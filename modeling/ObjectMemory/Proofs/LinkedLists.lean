import ObjectMemory.CellLists
import Mathlib
set_option autoImplicit false

/-!
# Linked lists as sequences

A doubly linked list is a ring: with the head as one more member, everyone has someone behind and
someone before.  `CellLists.Path` says that a sequence of cells leads from one member of the ring to
another by links that agree in both directions, and `CellLists.Spells` that a list is made of a sequence
of cells: the links lead along it from the head back to the head, no cell is on it twice, and the head
knows its length.

A cell that joins is put at the end of the sequence (`Spells.pushBack`), one that leaves is taken out
of it (`Spells.unlink`), and the other lists stay (`Spells.other_pushBack`, `Spells.other_unlink`).
`CellLists.Arranges` is about the three lists together.
-/

namespace ObjectMemory

namespace CellLists

variable {l l' : CellLists} {name other : ListName} {a b : Option Nat} {i : Nat} {xs ys : List Nat}

/-! ## Joining and leaving, link by link -/

theorem next_pushBack : (l.pushBack name i).next other a =
    if a = l.prev name none ∧ (l.prev name none = none → name = other) then some i
    else if a = some i then none else l.next other a := by
  simp [pushBack]

theorem prev_pushBack : (l.pushBack name i).prev other a =
    if a = none ∧ name = other then some i
    else if a = some i then l.prev name none else l.prev other a := by
  simp [pushBack]

theorem len_pushBack : (l.pushBack name i).len other = if name = other then l.len name + 1 else l.len other := by
  simp [pushBack]

theorem next_unlink : (l.unlink name i).next other a =
    if a = some i then none
    else if a = l.prev name (some i) ∧ (l.prev name (some i) = none → name = other) then l.next name (some i)
    else l.next other a := by
  simp only [unlink, next_setLink, next_setLen, next_setPrev, next_setNext]
  rfl

theorem prev_unlink : (l.unlink name i).prev other a =
    if a = some i then none
    else if a = l.next name (some i) ∧ (l.next name (some i) = none → name = other) then l.prev name (some i)
    else l.prev other a := by
  simp only [unlink, prev_setLink, prev_setLen, prev_setPrev, prev_setNext]
  rfl

theorem len_unlink : (l.unlink name i).len other = if name = other then l.len name - 1 else l.len other := by
  simp [unlink]

/-! ## Paths -/

/-- The links lead from `a` along the cells `xs` to `b`, and from `b` back to `a`. -/
def Path (l : CellLists) (name : ListName) (a : Option Nat) : List Nat → Option Nat → Prop
  | [], b => l.next name a = b ∧ l.prev name b = a
  | i :: xs, b => l.next name a = some i ∧ l.prev name (some i) = a ∧ l.Path name (some i) xs b

/-- A path is what the links of its members say. -/
theorem Path.congr (hp : l.Path name a xs b)
    (hnext : ∀ c ∈ a :: xs.map some, l'.next name c = l.next name c)
    (hprev : ∀ c ∈ xs.map some ++ [b], l'.prev name c = l.prev name c) : l'.Path name a xs b := by
  induction xs generalizing a with
  | nil => exact ⟨(hnext a (by simp)).trans hp.1, (hprev b (by simp)).trans hp.2⟩
  | cons j xs ih =>
    obtain ⟨hn, hb, hrest⟩ := hp
    refine ⟨(hnext a (by simp)).trans hn, (hprev _ (by simp)).trans hb, ih hrest (fun c hc => ?_) fun c hc => ?_⟩
    · exact hnext c (List.mem_cons_of_mem _ (by simpa using hc))
    · exact hprev c (by
        rw [List.map_cons, List.cons_append]
        exact List.mem_cons_of_mem _ hc)

theorem path_append : l.Path name a (xs ++ i :: ys) b ↔
    l.Path name a xs (some i) ∧ l.Path name (some i) ys b := by
  induction xs generalizing a with
  | nil => exact and_assoc.symm
  | cons j xs ih => simp only [List.cons_append, Path, ih, and_assoc]

/-- Before the end of a path is its last cell, or the start if there is none. -/
theorem Path.prev_mem (hp : l.Path name a xs b) : l.prev name b ∈ a :: xs.map some := by
  induction xs generalizing a with
  | nil => exact List.mem_singleton.mpr hp.2
  | cons j xs ih => exact List.mem_cons_of_mem _ (by simpa using ih hp.2.2)

/-- Behind the start of a path is its first cell, or the end if there is none. -/
theorem Path.next_mem (hp : l.Path name a xs b) : l.next name a ∈ xs.map some ++ [b] := by
  cases xs with
  | nil => exact List.mem_singleton.mpr hp.1
  | cons j xs => simp [hp.1]

/-- Behind the start of a path to the head is its first cell. -/
theorem Path.next_eq (hp : l.Path name a xs none) : l.next name a = xs.head? := by
  cases xs with
  | nil => exact hp.1
  | cons j xs => exact hp.1

/-- The end of a path is linked to another place. -/
theorem Path.retarget {b' : Option Nat} (hp : l.Path name a xs b) (hnodup : (a :: xs.map some).Nodup)
    (hnext : ∀ c ∈ a :: xs.map some,
      l'.next name c = if c = l.prev name b then b' else l.next name c)
    (hprev : ∀ c ∈ xs.map some, l'.prev name c = l.prev name c) (hend : l'.prev name b' = l.prev name b) :
    l'.Path name a xs b' := by
  induction xs generalizing a with
  | nil => exact ⟨by rw [hnext a (by simp), if_pos hp.2.symm], hend.trans hp.2⟩
  | cons j xs ih =>
    obtain ⟨hj, hback, hrest⟩ := hp
    rw [List.map_cons] at hnodup hnext hprev
    -- the last cell comes later, so the start is linked as it was
    have hlast : a ≠ l.prev name b := fun h =>
      (List.nodup_cons.mp hnodup).1 (h ▸ hrest.prev_mem)
    refine ⟨?_, ?_, ih hrest (List.nodup_cons.mp hnodup).2 (fun c hc => ?_) fun c hc => ?_⟩
    · rw [hnext a List.mem_cons_self, if_neg hlast, hj]
    · rw [hprev _ List.mem_cons_self, hback]
    · exact hnext c (List.mem_cons_of_mem _ hc)
    · exact hprev c (List.mem_cons_of_mem _ hc)

/-- A path goes on without a cell whose neighbours are linked with each other. -/
theorem Path.splice (hleft : l.Path name a xs (some i)) (hright : l.Path name (some i) ys b)
    (hstarts : (a :: (xs ++ i :: ys).map some).Nodup) (hends : ((xs ++ i :: ys).map some ++ [b]).Nodup)
    (hnext : ∀ c, c ≠ some i → l'.next name c =
      if c = l.prev name (some i) then l.next name (some i) else l.next name c)
    (hprev : ∀ c, c ≠ some i → l'.prev name c =
      if c = l.next name (some i) then l.prev name (some i) else l.prev name c) :
    l'.Path name a (xs ++ ys) b := by
  have hbefore := hleft.prev_mem
  simp only [List.map_append, List.map_cons] at hstarts hends
  have hturn : l'.Path name a xs (l.next name (some i)) := by
    have hbehind := hright.next_mem
    refine hleft.retarget (by grind) (fun c hc => hnext c (by grind)) (fun c hc => ?_) ?_
    · rw [hprev c (by grind), if_neg (by grind)]
    · rw [hprev _ (by grind), if_pos rfl]
  cases ys with
  | nil =>
    rw [List.append_nil, ← hright.1]
    exact hturn
  | cons j ys =>
    obtain ⟨hj, _, hrest⟩ := hright
    rw [hj] at hturn hprev
    refine path_append.mpr ⟨hturn, hrest.congr (fun c hc => ?_) fun c hc => ?_⟩
    · rw [hnext c (by grind), if_neg (by grind)]
    · rw [hprev c (by grind), if_neg (by grind)]

/-! ## One list -/

/-- The list is made of the cells `xs`, in this order. -/
structure Spells (l : CellLists) (name : ListName) (xs : List Nat) : Prop where
  path : l.Path name none xs none
  nodup : xs.Nodup
  len : l.len name = xs.length

theorem spells_empty (name : ListName) : empty.Spells name [] := by
  cases name with
  | _ => exact ⟨⟨rfl, rfl⟩, .nil, rfl⟩

namespace Spells

variable {zs : List Nat}

theorem starts_nodup (hs : l.Spells name xs) : (none :: xs.map some).Nodup :=
  List.nodup_cons.mpr ⟨by simp, hs.nodup.map (Option.some_injective _)⟩

theorem ends_nodup (hs : l.Spells name xs) : (xs.map some ++ [none]).Nodup :=
  (List.perm_append_singleton none (xs.map some)).nodup_iff.mpr hs.starts_nodup

/-- A list keeps its cells when the links of its members stay. -/
theorem congr (hs : l.Spells name xs) (hnext : ∀ c ∈ none :: xs.map some, l'.next name c = l.next name c)
    (hprev : ∀ c ∈ none :: xs.map some, l'.prev name c = l.prev name c) (hlen : l'.len name = l.len name) :
    l'.Spells name xs :=
  ⟨hs.path.congr hnext fun c hc => hprev c (by simpa [or_comm] using hc), hs.nodup, hlen.trans hs.len⟩

theorem prev_mem (hs : l.Spells name (xs ++ i :: ys)) : l.prev name (some i) ∈ none :: xs.map some :=
  (path_append.mp hs.path).1.prev_mem

theorem next_mem (hs : l.Spells name (xs ++ i :: ys)) : l.next name (some i) ∈ ys.map some ++ [none] :=
  (path_append.mp hs.path).2.next_mem

theorem first (hs : l.Spells name xs) : l.next name none = xs.head? := hs.path.next_eq

theorem behind (hs : l.Spells name (xs ++ i :: ys)) : l.next name (some i) = ys.head? :=
  (path_append.mp hs.path).2.next_eq

theorem last_mem (hs : l.Spells name xs) : l.prev name none ∈ none :: xs.map some := hs.path.prev_mem

/-- A cell joins at the end. -/
theorem pushBack (hs : l.Spells name xs) (hi : i ∉ xs) : (l.pushBack name i).Spells name (xs ++ [i]) := by
  have hlast := hs.last_mem
  have hself : some i ≠ l.prev name none := by grind
  refine ⟨path_append.mpr ⟨hs.path.retarget hs.starts_nodup (fun c hc => ?_) (fun c hc => ?_) ?_, ?_, ?_⟩, ?_, ?_⟩
  · rw [next_pushBack, if_neg (show c ≠ some i by grind)]
    simp
  · rw [prev_pushBack, if_neg (by grind), if_neg (show c ≠ some i by grind)]
  · rw [prev_pushBack, if_neg (by simp), if_pos rfl]
  · rw [next_pushBack, if_neg (by simp [hself]), if_pos rfl]
  · rw [prev_pushBack, if_pos ⟨rfl, rfl⟩]
  · grind [hs.nodup]
  · rw [len_pushBack, if_pos rfl, hs.len, List.length_append, List.length_singleton]

/-- A cell leaves from anywhere. -/
theorem unlink (hs : l.Spells name (xs ++ i :: ys)) : (l.unlink name i).Spells name (xs ++ ys) := by
  obtain ⟨hleft, hright⟩ := path_append.mp hs.path
  refine ⟨hleft.splice hright hs.starts_nodup hs.ends_nodup (fun c hc => ?_) fun c hc => ?_, ?_, ?_⟩
  · simp [next_unlink, hc]
  · simp [prev_unlink, hc]
  · grind [hs.nodup]
  · rw [len_unlink, if_pos rfl, hs.len]
    simp

/-- A cell that joins a list has no part in the others. -/
theorem other_pushBack (hs : l.Spells name xs) (ho : l.Spells other zs) (hne : name ≠ other)
    (hi : i ∉ zs) (hdisjoint : ∀ j ∈ xs, j ∉ zs) : (l.pushBack name i).Spells other zs := by
  have hlast := hs.last_mem
  refine ho.congr (fun c hc => ?_) (fun c hc => ?_) ?_
  · rw [next_pushBack, if_neg (by grind), if_neg (by grind)]
  · rw [prev_pushBack, if_neg (by grind), if_neg (by grind)]
  · rw [len_pushBack, if_neg hne]

/-- A cell that leaves a list has no part in the others. -/
theorem other_unlink (hs : l.Spells name (xs ++ i :: ys)) (ho : l.Spells other zs) (hne : name ≠ other)
    (hdisjoint : ∀ j ∈ xs ++ i :: ys, j ∉ zs) : (l.unlink name i).Spells other zs := by
  have hbefore := hs.prev_mem
  have hbehind := hs.next_mem
  refine ho.congr (fun c hc => ?_) (fun c hc => ?_) ?_
  · rw [next_unlink, if_neg (by grind), if_neg (by grind)]
  · rw [prev_unlink, if_neg (by grind), if_neg (by grind)]
  · rw [len_unlink, if_neg hne]

end Spells

/-! ## The three lists -/

/-- Every list is made of the cells that `order` gives for it, and no cell is on two lists. -/
structure Arranges (l : CellLists) (order : ListName → List Nat) : Prop where
  spells : ∀ name, l.Spells name (order name)
  disjoint : ∀ m n i, i ∈ order m → i ∈ order n → m = n

theorem arranges_empty : empty.Arranges fun _ => [] :=
  ⟨spells_empty, fun _ _ _ hi => absurd hi List.not_mem_nil⟩

namespace Arranges

variable {order : ListName → List Nat}

/-- A cell leaves the list it is on. -/
theorem leave {old : Option ListName} (ha : l.Arranges order) (hold : ∀ name, i ∈ order name ↔ old = some name) :
    (l.leave i old).Arranges fun name => (order name).erase i := by
  refine ⟨fun other => ?_, fun m n j hm hn =>
    ha.disjoint m n j (List.mem_of_mem_erase hm) (List.mem_of_mem_erase hn)⟩
  cases old with
  | none =>
    rw [List.erase_of_not_mem fun h => by cases (hold other).mp h]
    exact ha.spells other
  | some name =>
    have hi := (hold name).mpr rfl
    obtain ⟨xs, ys, hxs, horder, herase⟩ := List.exists_erase_eq hi
    have hs := ha.spells name
    rw [horder] at hs
    by_cases hne : name = other
    · subst hne
      rw [herase]
      exact hs.unlink
    · have hnot : i ∉ order other := fun h => hne (Option.some.inj ((hold other).mp h))
      rw [List.erase_of_not_mem hnot]
      exact hs.other_unlink (ha.spells other) hne fun j hj hj' =>
        hne (ha.disjoint name other j (by rw [horder]; exact hj) hj')

/-- A cell that is on no list joins one. -/
theorem join (ha : l.Arranges order) (hnone : ∀ name, i ∉ order name) (new : Option ListName) :
    (l.join i new).Arranges fun name => if new = some name then order name ++ [i] else order name := by
  cases new with
  | none => simpa [CellLists.join] using ha
  | some name =>
    refine ⟨fun other => ?_, fun m n j hm hn => ?_⟩
    · by_cases hne : name = other
      · subst hne
        rw [if_pos rfl]
        exact (ha.spells name).pushBack (hnone name)
      · rw [if_neg fun h => hne (Option.some.inj h)]
        exact (ha.spells name).other_pushBack (ha.spells other) hne (hnone other) fun j hj hj' =>
          hne (ha.disjoint name other j hj hj')
    · have hdisjoint := ha.disjoint m n j
      have hm' := hnone m
      have hn' := hnone n
      grind

end Arranges

end CellLists

end ObjectMemory
