import ObjectMemory.Proofs.EntryChains
set_option autoImplicit false

/-!
# Layouts

Two things hold of every layout, whatever was done to it.  Its chains are in order (`Shape.Wired`), so that
looking up an atom finds the last entry it has.  And the hash a shape is shared under is the hash of its
prototype and its entries, none of them deleted (`Shape.Consed`).
-/

namespace ObjectMemory.Shape

variable {t : Shape} {atom : Atom} {flags : Flags} {i j k n : Nat} {e : Entry}

/-- Every bucket is a thread of its entries, and no entry is left out that is not a hole. -/
def Wired (t : Shape) : Prop := t.toChains.Wired t.entries t.entries.size

/-! ## Numbers of buckets -/

@[simp] theorem size_buckets_push (t : Shape) (atom : Atom) (flags : Flags) :
    (t.push atom flags).buckets.size = t.buckets.size := by
  simp [push, Chains.push]

@[simp] theorem size_linkAll (c : Chains) (i : Nat) (es : List Entry) :
    (c.linkAll i es).buckets.size = c.buckets.size := by
  induction es generalizing c i with
  | nil => rfl
  | cons e rest ih =>
    rw [Chains.linkAll, ih]
    split
    · rfl
    · exact Chains.size_buckets_link _ _ _

@[simp] theorem size_rebuild (n : Nat) (links : Array Nat) (entries : Array Entry) :
    (Chains.rebuild n links entries).buckets.size = n := by
  simp [Chains.rebuild, Chains.unlinked]

@[simp] theorem size_buckets_remove (t : Shape) (i : Nat) : (t.remove i).buckets.size = t.buckets.size := by
  simp [remove]

theorem le_doubleTo (target fuel n : Nat) : n ≤ doubleTo target fuel n := by
  induction fuel generalizing n with
  | zero => exact Nat.le_refl n
  | succ fuel ih =>
    rw [doubleTo]
    split
    · exact Nat.le_trans (by omega) (ih (n * 2))
    · exact Nat.le_refl n

/-- Doubled often enough, a positive number reaches any other. -/
theorem target_le_doubleTo (target fuel n : Nat) (hn : 0 < n) (hfuel : target ≤ n + fuel) :
    target ≤ doubleTo target fuel n := by
  induction fuel generalizing n with
  | zero => exact hfuel
  | succ fuel ih =>
    rw [doubleTo]
    split
    · exact ih (n * 2) (by omega) (by omega)
    · omega

theorem doubleTo_two_pow (target fuel k : Nat) : ∃ m, doubleTo target fuel (2 ^ k) = 2 ^ m := by
  induction fuel generalizing k with
  | zero => exact ⟨k, rfl⟩
  | succ fuel ih =>
    rw [doubleTo]
    split
    · rw [← Nat.pow_succ]
      exact ih (k + 1)
    · exact ⟨k, rfl⟩

theorem halveTo_pos (target fuel n : Nat) (ht : 0 < target) (hn : 0 < n) : 0 < halveTo target fuel n := by
  induction fuel generalizing n with
  | zero => exact hn
  | succ fuel ih =>
    rw [halveTo]
    split
    · exact ih (n / 2) (by omega)
    · exact hn

theorem target_le_halveTo (target fuel n : Nat) (hn : target ≤ n) : target ≤ halveTo target fuel n := by
  induction fuel generalizing n with
  | zero => exact hn
  | succ fuel ih =>
    rw [halveTo]
    split
    · rename_i hhalf
      exact ih (n / 2) hhalf
    · exact hn

theorem halveTo_two_pow (target fuel k : Nat) (ht : 0 < target) :
    ∃ m, halveTo target fuel (2 ^ k) = 2 ^ m := by
  induction fuel generalizing k with
  | zero => exact ⟨k, rfl⟩
  | succ fuel ih =>
    rw [halveTo]
    split
    · cases k with
      | zero => omega
      | succ k =>
        rw [Nat.pow_succ, Nat.mul_div_cancel _ (by decide)]
        exact ih k
    · exact ⟨k, rfl⟩

/-! ## Changes that keep the chains in order -/

theorem wired_initial (proto : Option Handle) : (initial proto).Wired :=
  .unlinked (by decide) rfl

theorem Wired.of_eq {t' : Shape} (hw : t.Wired) (hentries : t'.entries = t.entries)
    (hchains : t'.toChains = t.toChains) : t'.Wired := by
  rw [Wired, hchains, hentries]
  exact hw

theorem Wired.push (hw : t.Wired) (atom : Atom) (flags : Flags) : (t.push atom flags).Wired :=
  Chains.Wired.push hw ⟨atom, flags⟩

theorem Wired.grow (hw : t.Wired) (capacity : Nat) : (t.grow capacity).Wired := by
  unfold Shape.grow
  dsimp only
  split
  · exact hw.of_eq rfl rfl
  · have hn : 0 < t.grownBuckets capacity := Nat.lt_of_lt_of_le hw.room (le_doubleTo _ _ _)
    exact Chains.Wired.rebuild hn hw.size

theorem Wired.setFlags (hw : t.Wired) (i : Nat) (flags : Flags) : (t.setFlags i flags).Wired := by
  refine ⟨hw.room, ?_, fun b n hn => ?_⟩
  · simpa [Shape.setFlags] using hw.size
  · have hatom : ∀ (j : Nat) (e' : Entry), (t.setFlags i flags).entries[j]? = some e' →
        ∃ e : Entry, t.entries[j]? = some e ∧ e'.atom = e.atom := by
      intro j e' he'
      simp only [Shape.setFlags, Array.getElem?_modify] at he'
      split at he'
      · obtain ⟨e, he, rfl⟩ := Option.map_eq_some_iff.mp he'
        exact ⟨e, he, rfl⟩
      · exact ⟨e', he', rfl⟩
    have hsize : (t.setFlags i flags).entries.size = t.entries.size := by simp [Shape.setFlags]
    obtain ⟨is, ht, hf⟩ := hw.threads b n hn
    rw [hsize]
    refine ⟨is, ht, hf.down, fun j hj => ?_, fun j e' hj he' hnull hb => ?_⟩
    · obtain ⟨hlt, e, he, hb⟩ := hf.home j hj
      have hj' : j < (t.setFlags i flags).entries.size := hsize ▸ hlt
      obtain ⟨e₀, he₀, hsame⟩ := hatom j _ (Array.getElem?_eq_getElem hj')
      cases he.symm.trans he₀
      exact ⟨hlt, _, Array.getElem?_eq_getElem hj', by rw [hsame]; exact hb⟩
    · obtain ⟨e, he, hsame⟩ := hatom j e' he'
      rw [hsame] at hnull hb
      exact hf.all j e hj he hnull hb

theorem Wired.remove (hw : t.Wired) (i : Nat) : (t.remove i).Wired :=
  Chains.Wired.unlink hw rfl

theorem Wired.compact (hw : t.Wired) (entries : Array Entry) : (t.compact entries).Wired := by
  have htarget : 0 < t.compactCapacity := Nat.lt_of_lt_of_le (by decide) (Nat.le_max_left _ _)
  exact .rebuild (halveTo_pos _ _ _ htarget hw.room) (by simp)

/-! ## Looking up -/

theorem flagsAt?_eq_some_iff : t.flagsAt? atom i = some flags ↔ t.entries[i]? = some ⟨atom, flags⟩ := by
  unfold flagsAt?
  cases he : t.entries[i]? with
  | none => simp
  | some e =>
    obtain ⟨a, f⟩ := e
    simp only [Option.some.injEq, Entry.mk.injEq]
    split
    · rename_i ha
      simp [ha]
    · rename_i ha
      simp [ha]

/-- The null atom is never found. -/
theorem isNull_of_find? (hf : t.find? atom = some (i, flags)) : atom.isNull = false := by
  unfold find? at hf
  split at hf
  · cases hf
  · rename_i hnull
    simpa using hnull

/-- What is found is an entry of the atom. -/
theorem getElem?_of_find? (hf : t.find? atom = some (i, flags)) : t.entries[i]? = some ⟨atom, flags⟩ := by
  unfold find? at hf
  split at hf
  · cases hf
  · obtain ⟨j, _, hj⟩ := List.exists_of_findSome?_eq_some hf
    obtain ⟨f, hflags, he⟩ := Option.map_eq_some_iff.mp hj
    cases he
    exact flagsAt?_eq_some_iff.mp hflags

/-- An entry that is not a hole is on the chain of its atom. -/
theorem Wired.mem_chain (hw : t.Wired) (he : t.entries[i]? = some e) (hnull : e.atom.isNull = false) :
    i ∈ t.chain e.atom :=
  (Chains.Wired.chain hw e.atom).2.all i e (Array.getElem?_eq_some_iff.mp he).1 he hnull rfl

/-- An atom that is not found has no entry. -/
theorem Wired.atom_ne_of_find? (hw : t.Wired) (hnull : atom.isNull = false) (hf : t.find? atom = none)
    (he : t.entries[i]? = some e) : e.atom ≠ atom := by
  rintro rfl
  unfold find? at hf
  rw [hnull, if_neg (by simp), List.findSome?_eq_none_iff] at hf
  have hi := hf i (hw.mem_chain he hnull)
  rw [Option.map_eq_none_iff, flagsAt?_eq_some_iff.mpr he] at hi
  cases hi

/-- A search of the bucket is a search of all entries from the last one on. -/
theorem Wired.find?_eq_some_iff (hw : t.Wired) (hnull : atom.isNull = false) :
    t.find? atom = some (i, flags) ↔
      t.entries[i]? = some ⟨atom, flags⟩ ∧ ∀ j e, i < j → t.entries[j]? = some e → e.atom ≠ atom := by
  have hdown := (Chains.Wired.chain hw atom).2.down
  constructor
  · intro hf
    refine ⟨getElem?_of_find? hf, ?_⟩
    rintro j e hij he rfl
    rw [find?, hnull, if_neg (by simp), List.findSome?_eq_some_iff] at hf
    obtain ⟨before, k, after, hchain, hk, hnone⟩ := hf
    obtain ⟨_, _, ⟨⟩⟩ := Option.map_eq_some_iff.mp hk
    have hmem := hw.mem_chain he hnull
    rw [hchain] at hmem hdown
    rcases List.mem_append.mp hmem with hj | hj
    · have hfound := hnone j hj
      rw [Option.map_eq_none_iff, flagsAt?_eq_some_iff.mpr he] at hfound
      cases hfound
    · -- behind the place that was found the chain goes on down
      rcases List.mem_cons.mp hj with rfl | hj
      · omega
      · have hlt := (List.pairwise_cons.mp (List.pairwise_append.mp hdown).2.1).1 j hj
        omega
  · rintro ⟨he, hlast⟩
    obtain ⟨before, after, hchain⟩ := List.append_of_mem (hw.mem_chain he hnull)
    rw [find?, hnull, if_neg (by simp), List.findSome?_eq_some_iff]
    refine ⟨before, i, after, hchain, by rw [flagsAt?_eq_some_iff.mpr he]; rfl, fun j hj => ?_⟩
    rw [hchain] at hdown
    have hij : i < j := (List.pairwise_append.mp hdown).2.2 j hj i List.mem_cons_self
    rw [Option.map_eq_none_iff]
    cases hflags : t.flagsAt? atom j with
    | none => rfl
    | some f => exact absurd rfl (hlast j _ hij (flagsAt?_eq_some_iff.mp hflags))

/-- An atom without an entry is not found. -/
theorem Wired.find?_eq_none_iff (hw : t.Wired) (hnull : atom.isNull = false) :
    t.find? atom = none ↔ ∀ (i : Nat) (e : Entry), t.entries[i]? = some e → e.atom ≠ atom := by
  constructor
  · exact fun hf i e he => hw.atom_ne_of_find? hnull hf he
  · intro hno
    cases hf : t.find? atom with
    | none => rfl
    | some p => exact absurd rfl (hno p.1 _ (getElem?_of_find? hf))

/-- An entry that is not a hole is in its bucket. -/
theorem Wired.isLinked (hw : t.Wired) (he : t.entries[i]? = some e) (hnull : e.atom.isNull = false) :
    t.isLinked i = true := by
  have hatom : t.atomAt i = e.atom := by simp [atomAt, he]
  rw [Shape.isLinked, hatom, List.contains_iff_mem]
  exact hw.mem_chain he hnull

/-! ## The hash of a layout -/

/-- The hash of a prototype with entries added one after the other. -/
def layoutHash (t : Shape) : UInt32 :=
  t.entries.foldl (fun hash e => transitionHash hash e.atom e.flags) (initialHash t.proto)

theorem layoutHash_push {t' : Shape} (hproto : t'.proto = t.proto)
    (hentries : t'.entries = t.entries.push ⟨atom, flags⟩) :
    t'.layoutHash = transitionHash t.layoutHash atom flags := by
  rw [layoutHash, hproto, hentries, Array.foldl_push, layoutHash]

/-- The hash is that of the layout, and nothing was deleted from it. -/
structure Consed (t : Shape) : Prop where
  hash : t.hash = t.layoutHash
  whole : t.holes = 0

end ObjectMemory.Shape
