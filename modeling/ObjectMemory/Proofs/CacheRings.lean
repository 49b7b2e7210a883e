import ObjectMemory.InlineCache.Access
import Mathlib
set_option autoImplicit false

/-!
# The rings of a cache

A cache keeps its rings in an array and their places in a directory.  Seen from outside it is a
function from atoms to rings (`InlineCache.ring?`), as long as the directory is tidy: a place it gives
for an atom holds the ring of that atom.  This module says what each operation does to that function.
-/

namespace ObjectMemory

namespace CacheRing

/-- The item in a place of a ring. -/
def item (s : CacheRing) (i : Fin ringSize) : CacheItem := s.items.get i

variable {s : CacheRing} {i : Fin ringSize}

theorem stamp_of_find? {stamp : ShapeStamp} (e : s.find? stamp = some i) :
    (s.item i).stamp = some stamp := by
  unfold find? at e
  have := List.find?_some e
  simpa [item, Vector.get_eq_getElem] using this

theorem items_set (s : CacheRing) (i j : Fin ringSize) (item : CacheItem) :
    (s.set i item).item j = if i = j then item else s.item j := by
  simp only [set, CacheRing.item, Vector.get_eq_getElem, Vector.getElem_set]
  by_cases hij : i = j
  · simp [hij]
  · have : i.val ≠ j.val := fun h => hij (Fin.ext h)
    simp [hij, this]

@[simp] theorem atom_put (s : CacheRing) (shape : Handle) (item : CacheItem) :
    (s.put shape item).1.atom = s.atom := by
  unfold put
  split <;> rfl

/-- An item of a ring that another was put into is that one or was there before. -/
theorem items_put (s : CacheRing) (shape : Handle) (item : CacheItem) (j : Fin ringSize) :
    (s.put shape item).1.item j = item ∨ (s.put shape item).1.item j = s.item j := by
  have hset : ∀ i, (s.set i item).item j = item ∨ (s.set i item).item j = s.item j := by
    intro i
    rw [items_set]
    split
    · exact .inl rfl
    · exact .inr rfl
  unfold put
  split
  · exact hset _
  · exact hset s.cursor

theorem stamp_empty (atom : Atom) (j : Fin ringSize) : ((empty atom).item j).stamp = none := by
  simp [item, empty, CacheItem.empty]

end CacheRing

namespace InlineCache

variable {c : InlineCache} {a b : Atom} {s : CacheRing}

/-- Wherever the directory sends an atom stands the ring of that atom. -/
def Tidy (c : InlineCache) : Prop :=
  ∀ (a : Atom) (i : Nat), c.directory[a]? = some i → ∃ s, c.rings[i]? = some s ∧ s.atom = a

theorem tidy_empty : Tidy empty := by
  intro a i hi
  simp [empty] at hi

theorem tidy_clear (c : InlineCache) : Tidy c.clear := by
  intro a i hi
  simp [clear] at hi

@[simp] theorem ring?_clear (c : InlineCache) (a : Atom) : c.clear.ring? a = none := by
  simp [clear, ring?]

theorem Tidy.modifyRing (hc : c.Tidy) (a : Atom) {f : CacheRing → CacheRing}
    (hf : ∀ s, c.ring? a = some s → (f s).atom = s.atom) : (c.modifyRing a f).Tidy := by
  unfold InlineCache.modifyRing
  cases hi : c.directory[a]? with
  | none => exact hc
  | some i =>
    intro b j hj
    obtain ⟨s, hs, hb⟩ := hc b j hj
    by_cases hij : i = j
    · subst hij
      exact ⟨f s, by simp [Array.getElem?_modify, hs], (hf s (by simp [ring?, hi, hs])).trans hb⟩
    · exact ⟨s, by simp [Array.getElem?_modify, hij, hs], hb⟩

/-- Two atoms have two rings, so a change of one leaves the other. -/
theorem Tidy.ring?_modifyRing (hc : c.Tidy) (a b : Atom) (f : CacheRing → CacheRing) :
    (c.modifyRing a f).ring? b = if a = b then (c.ring? a).map f else c.ring? b := by
  unfold InlineCache.modifyRing
  cases hi : c.directory[a]? with
  | none =>
    dsimp only
    split
    · rename_i hab
      subst hab
      simp [ring?, hi]
    · rfl
  | some i =>
    simp only [ring?, hi, Option.bind_some]
    split
    · rename_i hab
      subst hab
      simp [hi, Array.getElem?_modify]
    · rename_i hab
      cases hj : c.directory[b]? with
      | none => rfl
      | some j =>
        have hij : i ≠ j := by
          rintro rfl
          obtain ⟨s, hs, ha⟩ := hc a i hi
          obtain ⟨t, ht, hb⟩ := hc b i hj
          rw [hs] at ht
          cases ht
          exact hab (ha.symm.trans hb)
        simp [Array.getElem?_modify, hij]

theorem Tidy.withRing (hc : c.Tidy) (a : Atom) : (c.withRing a).Tidy := by
  unfold InlineCache.withRing
  split
  · exact hc
  · intro b j hj
    simp only [Std.HashMap.getElem?_insert] at hj
    split at hj
    · rename_i hab
      cases hj
      exact ⟨.empty a, by simp, by simpa [CacheRing.empty] using hab⟩
    · obtain ⟨s, hs, hb⟩ := hc b j hj
      have hlt := (Array.getElem?_eq_some_iff.mp hs).1
      exact ⟨s, by simp [Array.getElem?_push, Nat.ne_of_lt hlt, hs], hb⟩

theorem Tidy.ring?_withRing (hc : c.Tidy) (a b : Atom) :
    (c.withRing a).ring? b = if a = b then some ((c.ring? a).getD (.empty a)) else c.ring? b := by
  unfold InlineCache.withRing
  cases hi : c.directory[a]? with
  | some i =>
    obtain ⟨s, hs, _⟩ := hc a i hi
    dsimp only
    split
    · rename_i hab
      subst hab
      simp [ring?, hi, hs]
    · rfl
  | none =>
    by_cases hab : a = b
    · subst hab
      simp [ring?, hi]
    · simp only [ring?, hi, Std.HashMap.getElem?_insert, beq_iff_eq, hab, if_false]
      cases hj : c.directory[b]? with
      | none => rfl
      | some j =>
        obtain ⟨s, hs, _⟩ := hc b j hj
        have hlt := (Array.getElem?_eq_some_iff.mp hs).1
        simp [Array.getElem?_push, Nat.ne_of_lt hlt]

/-- What entering an item does to the rings. -/
theorem Tidy.ring?_enter (hc : c.Tidy) (a b : Atom) (shape : Handle) (item : CacheItem) :
    (c.enter a shape item).ring? b =
      if a = b then some (((c.ring? a).getD (.empty a)).put shape item).1 else c.ring? b := by
  have hring := hc.ring?_withRing a a
  rw [if_pos rfl] at hring
  have hview : (c.enter a shape item).ring? b =
      ((c.withRing a).modifyRing a fun _ => (((c.ring? a).getD (.empty a)).put shape item).1).ring? b := by
    unfold InlineCache.enter
    simp only [hring]
    rfl
  rw [hview, (hc.withRing a).ring?_modifyRing, hring, hc.ring?_withRing]
  split
  · rfl
  · rfl

theorem Tidy.enter (hc : c.Tidy) (a : Atom) (shape : Handle) (item : CacheItem) :
    (c.enter a shape item).Tidy := by
  have hwith := hc.withRing a
  unfold InlineCache.enter
  dsimp only
  cases hs : (c.withRing a).ring? a with
  | none => exact hwith
  | some s =>
    refine Tidy.modifyRing (c := c.withRing a) hwith a (f := fun _ => (s.put shape item).1) ?_
    intro t ht
    rw [hs] at ht
    cases ht
    exact CacheRing.atom_put s shape item

end InlineCache

end ObjectMemory
