import ObjectMemory.Atom
import Mathlib
set_option autoImplicit false

/-!
# Interned names

An `AtomTable` has two structures beside each other: the names in the order of their atoms, and the atom of
each name.  Interning a new name adds to both, so each stays the inverse of the other (`AtomTable.Mirrored`).
The blank at the front is no name's: the null atom is not handed out, not even for the empty name, and has
no name.

`AtomTable.interned_for_good` says what this comes to for a table that names are interned in one after the
other.
-/

namespace ObjectMemory

theorem Atom.isNull_eq_false_iff {a : Atom} : a.isNull = false ↔ 1 ≤ a.raw.toNat := by
  rw [isNull, beq_eq_false_iff_ne, ne_eq, ← UInt32.toNat_inj, Nat.one_le_iff_ne_zero]
  rfl

namespace AtomTable

variable {t : AtomTable} {seen names : List String} {name other : String} {a : Atom}

/-! ## One name -/

/-- A name that has an atom keeps it, and the table stays as it is. -/
theorem intern_of_get?_eq_some (hget : t.get? name = some a) : t.intern name = (a, t) := by
  unfold get? at hget
  rw [intern, hget]

/-- A name without an atom gets the next one. -/
theorem intern_of_get?_eq_none (hget : t.get? name = none) : t.intern name =
    (⟨t.size.toUInt32⟩, ⟨t.names.push name, t.atoms.insert name ⟨t.size.toUInt32⟩⟩) := by
  unfold get? at hget
  rw [intern, hget]
  rfl

/-- The name that is interned gets the atom that is answered; others keep theirs. -/
theorem get?_intern (t : AtomTable) (name other : String) : (t.intern name).2.get? other =
    if name = other then some (t.intern name).1 else t.get? other := by
  cases hget : t.get? name with
  | some a =>
    rw [intern_of_get?_eq_some hget]
    split
    · rename_i he
      rw [← he, hget]
    · rfl
  | none =>
    rw [intern_of_get?_eq_none hget, get?, Std.HashMap.getElem?_insert]
    simp only [beq_iff_eq]
    rfl

theorem size_intern (t : AtomTable) (name : String) :
    (t.intern name).2.size = if (t.get? name).isSome then t.size else t.size + 1 := by
  cases hget : t.get? name with
  | some a => rw [intern_of_get?_eq_some hget, Option.isSome_some, if_pos rfl]
  | none =>
    rw [intern_of_get?_eq_none hget]
    simp [size]

theorem name?_eq_some_iff : t.name? a = some name ↔ a.isNull = false ∧ t.names[a.raw.toNat]? = some name := by
  rw [name?]
  cases a.isNull <;> simp

/-- An atom has a name if it is not the null atom and was handed out. -/
theorem isSome_name?_iff : (t.name? a).isSome ↔ 1 ≤ a.raw.toNat ∧ a.raw.toNat < t.size := by
  rw [← Atom.isNull_eq_false_iff, name?, size]
  cases a.isNull <;> simp

/-! ## The two structures -/

/-- The names and the atoms are each other's inverse, and the first entry is no name's. -/
structure Mirrored (t : AtomTable) : Prop where
  blank : 0 < t.size
  inverse : ∀ name a, t.get? name = some a ↔ t.name? a = some name

/-- The next atom is not in use, and is not the null atom. -/
theorem Mirrored.intern (ht : t.Mirrored) (hroom : t.get? name = none → t.size < 2 ^ 32) :
    (t.intern name).2.Mirrored := by
  cases hget : t.get? name with
  | some a =>
    rw [intern_of_get?_eq_some hget]
    exact ht
  | none =>
    have hnext : t.size.toUInt32.toNat = t.size := Nat.mod_eq_of_lt (hroom hget)
    have hblank := ht.blank
    refine ⟨?_, fun other a => ?_⟩
    · rw [size_intern, hget]
      exact Nat.succ_pos _
    · have hold := ht.inverse other a
      rw [name?_eq_some_iff] at hold
      rw [get?_intern, intern_of_get?_eq_none hget, name?_eq_some_iff, Array.getElem?_push]
      have hlast : a.raw.toNat = t.names.size ↔ a = ⟨t.size.toUInt32⟩ := by
        obtain ⟨raw⟩ := a
        rw [Atom.mk.injEq, ← UInt32.toNat_inj, hnext]
        exact Iff.rfl
      by_cases hname : name = other
      · subst hname
        rw [if_pos rfl]
        -- the name had no atom before, so none of the old entries is the name
        have hfresh : ¬ (a.isNull = false ∧ t.names[a.raw.toNat]? = some name) := by
          rw [← hold, hget]
          simp
        split
        · rename_i h
          rw [hlast.mp h, Atom.isNull_eq_false_iff, hnext]
          exact iff_of_true rfl ⟨hblank, rfl⟩
        · rename_i h
          refine ⟨fun he => ?_, fun he => absurd he hfresh⟩
          cases he
          exact absurd (hlast.mpr rfl) h
      · rw [if_neg hname, hold]
        split
        · rename_i h
          have hbeyond : t.names[a.raw.toNat]? = none := by simp [h]
          simp [hbeyond, hname]
        · exact Iff.rfl

/-- No name is interned yet, `length` neither. -/
theorem mirrored_blank : Mirrored ⟨#[""], ∅⟩ := by
  refine ⟨Nat.one_pos, fun name a => ?_⟩
  rw [name?_eq_some_iff, get?, Std.HashMap.getElem?_empty]
  refine ⟨nofun, fun ⟨hpos, hname⟩ => ?_⟩
  have hlt : a.raw.toNat < 1 := (Array.getElem?_eq_some_iff.mp hname).1
  exact absurd (Atom.isNull_eq_false_iff.mp hpos) (Nat.not_le_of_lt hlt)

/-! ## Names one after the other -/

/-- The table after names are interned one after the other. -/
def internAll (t : AtomTable) (names : List String) : AtomTable :=
  names.foldl (fun t name => (t.intern name).2) t

theorem internAll_append (t : AtomTable) (xs ys : List String) :
    t.internAll (xs ++ ys) = (t.internAll xs).internAll ys := List.foldl_append

/-- An atom stays that of its name. -/
theorem get?_internAll (hget : t.get? name = some a) (names : List String) :
    (t.internAll names).get? name = some a := by
  induction names generalizing t with
  | nil => exact hget
  | cons n rest ih =>
    refine ih ?_
    rw [get?_intern]
    split
    · rename_i he
      subst he
      rw [intern_of_get?_eq_some hget]
    · exact hget

/-- The names in the table are `length` and those that were interned, each of them once. -/
structure Lists (t : AtomTable) (seen : List String) : Prop extends Mirrored t where
  size : t.size = 2 + (seen.toFinset.erase "length").card
  interned : ∀ name, (t.get? name).isSome ↔ name = "length" ∨ name ∈ seen

theorem lists_initial : initial.Lists [] := by
  have hnone : ∀ name, get? ⟨#[""], ∅⟩ name = none := fun name => by
    rw [get?, Std.HashMap.getElem?_empty]
  refine ⟨mirrored_blank.intern fun _ => by decide, ?_, fun name => ?_⟩
  · rw [initial, size_intern, hnone]
    rfl
  · rw [initial, get?_intern, hnone]
    split
    · rename_i he
      simp [← he]
    · rename_i he
      simp [Ne.symm he]

theorem Lists.intern (ht : t.Lists seen)
    (hroom : ((name :: seen).toFinset.erase "length").card < 2 ^ 32 - 2) :
    (t.intern name).2.Lists (name :: seen) := by
  have hgrown : ¬ (t.get? name).isSome →
      ((name :: seen).toFinset.erase "length").card = (seen.toFinset.erase "length").card + 1 := by
    intro hnone
    obtain ⟨hlength, hseen⟩ := not_or.mp fun h => hnone ((ht.interned name).mpr h)
    rw [List.toFinset_cons, Finset.erase_insert_of_ne hlength, Finset.card_insert_of_notMem (by simp [hseen])]
  have hsame : (t.get? name).isSome →
      ((name :: seen).toFinset.erase "length").card = (seen.toFinset.erase "length").card := by
    intro hsome
    rw [List.toFinset_cons]
    rcases (ht.interned name).mp hsome with rfl | hseen
    · rw [Finset.erase_insert_eq_erase]
    · rw [Finset.insert_eq_of_mem (List.mem_toFinset.mpr hseen)]
  refine ⟨ht.toMirrored.intern fun hnone => ?_, ?_, fun other => ?_⟩
  · have hcard := hgrown (by simp [hnone])
    rw [ht.size]
    omega
  · rw [size_intern, ht.size]
    split
    · rename_i hsome
      rw [hsame hsome]
    · rename_i hnone
      rw [hgrown hnone, Nat.add_assoc]
  · rw [get?_intern]
    split
    · rename_i he
      simp [he]
    · rename_i he
      rw [ht.interned, List.mem_cons]
      simp [Ne.symm he]

/-- With room for all names, every one of them is listed in the end. -/
theorem Lists.internAll (ht : t.Lists seen)
    (hroom : ((names.reverse ++ seen).toFinset.erase "length").card < 2 ^ 32 - 2) :
    (t.internAll names).Lists (names.reverse ++ seen) := by
  induction names generalizing t seen with
  | nil => exact ht
  | cons n rest ih =>
    rw [List.reverse_cons, List.append_assoc] at hroom ⊢
    refine ih (ht.intern ?_) hroom
    refine Nat.lt_of_le_of_lt (Finset.card_le_card (Finset.erase_subset_erase _ fun m hm => ?_)) hroom
    exact List.mem_toFinset.mpr (List.mem_append_right _ (List.mem_toFinset.mp hm))

/-- Names are interned in a new table, fewer different ones than there are atoms left.  Each gets an atom that
is not the null atom, the empty name too.  From then on the atom has that name, the name that atom, and to
intern it again gives the atom and leaves the table alone.  No two names have one atom, and a name that was
never interned has none, `length` apart.  The atoms from one on have names, below the size of the table: two,
and one for every name besides `length`. -/
theorem interned_for_good (names : List String) (hfew : (names.toFinset.erase "length").card < 2 ^ 32 - 2) :
    (∀ before name after, names = before ++ name :: after → ∃ a : Atom, a.isNull = false ∧
      ((initial.internAll before).intern name).1 = a ∧ (initial.internAll names).name? a = some name ∧
      (initial.internAll names).get? name = some a ∧
      (initial.internAll names).intern name = (a, initial.internAll names)) ∧
    (∀ m n a, (initial.internAll names).get? m = some a → (initial.internAll names).get? n = some a → m = n) ∧
    (∀ name, ((initial.internAll names).get? name).isSome ↔ name = "length" ∨ name ∈ names) ∧
    (∀ a, ((initial.internAll names).name? a).isSome ↔
      1 ≤ a.raw.toNat ∧ a.raw.toNat < (initial.internAll names).size) ∧
    (initial.internAll names).size = 2 + (names.toFinset.erase "length").card := by
  have hlists : (initial.internAll names).Lists (names.reverse ++ []) :=
    lists_initial.internAll (by simpa using hfew)
  refine ⟨?_, fun m n a hm hn => ?_, fun name => ?_, fun a => isSome_name?_iff, ?_⟩
  · rintro before name after rfl
    have hget : (initial.internAll (before ++ name :: after)).get? name =
        some ((initial.internAll before).intern name).1 := by
      rw [internAll_append]
      refine get?_internAll (t := ((initial.internAll before).intern name).2) ?_ after
      rw [get?_intern, if_pos rfl]
    have hname := (hlists.inverse _ _).mp hget
    exact ⟨_, (name?_eq_some_iff.mp hname).1, rfl, hname, hget, intern_of_get?_eq_some hget⟩
  · have hm := (hlists.inverse m a).mp hm
    have hn := (hlists.inverse n a).mp hn
    exact Option.some.inj (hm.symm.trans hn)
  · rw [hlists.interned]
    simp
  · rw [hlists.size]
    simp

/-- The empty name is interned twice, with another one between. -/
theorem interned_for_good_empty : ∃ a : Atom, a.isNull = false ∧ (initial.intern "").1 = a ∧
    (initial.internAll ["", "x", ""]).name? a = some "" ∧ (initial.internAll ["", "x", ""]).get? "" = some a ∧
    (initial.internAll ["", "x", ""]).size = 4 := by
  obtain ⟨hnamed, -, -, -, hsize⟩ := interned_for_good ["", "x", ""] (by decide)
  obtain ⟨a, hnull, ha, hname, hget, -⟩ := hnamed [] "" ["x", ""] rfl
  exact ⟨a, hnull, ha, hname, hget, hsize.trans (by decide)⟩

end AtomTable

end ObjectMemory
