import ObjectMemory.Frame
import Mathlib
set_option autoImplicit false

/-!
# The frames of a table

A table of frames is seen through `FrameTable.get?`, the frame of a name, and through totals over all
frames.  Each change of the table has one lemma per view.  Entering a frame relies on the places marked
free being vacant (`FrameTable.Tidy`).
-/

namespace ObjectMemory

/-- Changing one element of a list changes a sum by the difference it makes there. -/
theorem sum_map_modify {α : Type} (w : α → Nat) (g : α → α) (xs : List α) (i : Nat) {a : α}
    (ha : xs[i]? = some a) :
    ((xs.modify i g).map w).sum + w a = (xs.map w).sum + w (g a) := by
  induction xs generalizing i with
  | nil => simp at ha
  | cons b rest ih =>
    cases i with
    | zero =>
      simp only [List.getElem?_cons_zero, Option.some.injEq] at ha
      subst ha
      simp only [List.modify_zero_cons, List.map_cons, List.sum_cons]
      omega
    | succ i =>
      have hrest := ih i (by simpa using ha)
      simp only [List.modify_succ_cons, List.map_cons, List.sum_cons]
      omega

namespace Frame

variable {f : Frame} {r s : Handle}

/-- Removing an element of a list without repetition leaves the others. -/
theorem mem_swapRemove {xs : Array Handle} {i : Nat} (hnd : xs.toList.Nodup) (hi : xs[i]? = some r) :
    (swapRemove xs i).toList.Nodup ∧ ∀ s, s ∈ (swapRemove xs i).toList ↔ s ∈ xs.toList ∧ s ≠ r := by
  have hperm : xs.toList.Perm (r :: (swapRemove xs i).toList) := by
    obtain ⟨ys, last, hys⟩ : ∃ ys last, xs.toList = ys ++ [last] := by
      rcases List.eq_nil_or_concat xs.toList with hnil | ⟨ys, last, hys⟩
      · rw [← Array.getElem?_toList, hnil] at hi
        simp at hi
      · exact ⟨ys, last, by simpa using hys⟩
    have hback : xs.back? = some last := by
      rw [← Array.getLast?_toList, hys]
      simp
    have hlist : (swapRemove xs i).toList = ((ys ++ [last]).set i last).dropLast := by
      simp [swapRemove, hback, hys]
    rw [← Array.getElem?_toList, hys] at hi
    rw [hlist, hys]
    by_cases hlt : i < ys.length
    · rw [List.getElem?_append_left hlt] at hi
      rw [List.set_append_left _ _ hlt, List.dropLast_concat]
      -- the last element moves to the place of the removed one
      obtain ⟨hi', hget⟩ := List.getElem?_eq_some_iff.mp hi
      have hsplit : ys = ys.take i ++ r :: ys.drop (i + 1) := by
        rw [← hget, List.getElem_cons_drop, List.take_append_drop]
      rw [List.set_eq_take_append_cons_drop, if_pos hlt]
      nth_rewrite 1 [hsplit]
      have hmove : (ys.take i ++ r :: ys.drop (i + 1) ++ [last]).Perm
          (r :: (ys.take i ++ ys.drop (i + 1)) ++ [last]) := List.perm_middle.append_right _
      refine hmove.trans ?_
      rw [List.cons_append]
      refine List.Perm.cons r ?_
      rw [List.append_assoc]
      exact (List.perm_append_singleton last _).append_left _
    · have hle : (ys ++ [last]).length ≤ i + 1 := by simp; omega
      have heq : i = ys.length := by
        obtain ⟨hi', _⟩ := List.getElem?_eq_some_iff.mp hi
        simp at hi'
        omega
      subst heq
      simp only [List.getElem?_concat_length, Option.some.injEq] at hi
      subst hi
      rw [List.set_append_right _ _ (Nat.le_refl _)]
      simp
  have hcons := hperm.nodup_iff.mp hnd
  refine ⟨(List.nodup_cons.mp hcons).2, fun s => ?_⟩
  rw [hperm.mem_iff, List.mem_cons]
  constructor
  · intro hs
    refine ⟨.inr hs, ?_⟩
    rintro rfl
    exact (List.nodup_cons.mp hcons).1 hs
  · rintro ⟨rfl | hs, hne⟩
    · exact absurd rfl hne
    · exact hs

@[simp] theorem locals_close (f : Frame) (r : Handle) : (f.close r).locals = f.locals := by
  unfold close
  split <;> rfl

@[simp] theorem size_close (f : Frame) (r : Handle) : (f.close r).size = f.size := by
  unfold close
  split <;> rfl

/-- Closing a variable takes it, and only it, off the list of open ones. -/
theorem mem_close (hnd : f.openVariables.toList.Nodup) (r : Handle) :
    (f.close r).openVariables.toList.Nodup ∧
      ∀ s, s ∈ (f.close r).openVariables.toList ↔ s ∈ f.openVariables.toList ∧ s ≠ r := by
  unfold close
  cases hi : f.openVariables.findIdx? (· == r) with
  | none =>
    refine ⟨hnd, fun s => ⟨fun hs => ⟨hs, ?_⟩, fun hs => hs.1⟩⟩
    rintro rfl
    rw [Array.findIdx?_eq_none_iff] at hi
    simpa using hi s (Array.mem_toList_iff.mp hs)
  | some i =>
    have hget : f.openVariables[i]? = some r := by
      obtain ⟨hlt, hr, _⟩ := Array.findIdx?_eq_some_iff_getElem.mp hi
      rw [Array.getElem?_eq_getElem hlt]
      simpa using hr
    exact mem_swapRemove hnd hget

end Frame

namespace FrameTable

variable {t : FrameTable} {id : FrameId} {f : Frame} {i : Nat}

/-- The sum of `w` over the frames. -/
def total (t : FrameTable) (w : Frame → Nat) : Nat :=
  (t.slots.toList.map fun s => s.frame.elim 0 w).sum

/-- The places marked free are vacant, and none is marked twice. -/
structure Tidy (t : FrameTable) : Prop where
  nodup : t.free.Nodup
  vacant : ∀ i ∈ t.free, ∃ s, t.slots[i]? = some s ∧ s.frame = none

theorem tidy_empty : Tidy empty := ⟨.nil, nofun⟩

theorem get?_eq_some_iff : t.get? id = some f ↔
    ∃ s, t.slots[id.index]? = some s ∧ s.frame = some f ∧ s.generation = id.generation := by
  unfold get?
  cases t.slots[id.index]? with
  | none => simp
  | some s =>
    dsimp only
    split
    · rename_i hg
      exact ⟨fun hf => ⟨s, rfl, hf, hg⟩, fun ⟨_, hs, hf, _⟩ => by cases hs; exact hf⟩
    · rename_i hg
      exact ⟨nofun, fun ⟨_, hs, _, hg'⟩ => by cases hs; exact absurd hg' hg⟩

/-- Two names of one place that both name a frame are the same name. -/
theorem id_eq_of_get? {id' : FrameId} {f' : Frame} (hf : t.get? id = some f)
    (hf' : t.get? id' = some f') (hi : id'.index = id.index) : id' = id := by
  obtain ⟨s, hs, _, hg⟩ := get?_eq_some_iff.mp hf
  obtain ⟨s', hs', _, hg'⟩ := get?_eq_some_iff.mp hf'
  rw [hi, hs] at hs'
  cases hs'
  cases id
  cases id'
  simp_all

/-! ## Changing a frame -/

theorem get?_modify (t : FrameTable) (i : Nat) (g : Frame → Frame) (id : FrameId) :
    (t.modify i g).get? id = if i = id.index then (t.get? id).map g else t.get? id := by
  unfold get? modify
  simp only [Array.getElem?_modify]
  by_cases hi : i = id.index
  · simp only [hi, if_true]
    cases t.slots[id.index]? with
    | none => rfl
    | some s =>
      change (if s.generation = id.generation then s.frame.map g else none) = _
      by_cases hg : s.generation = id.generation
      · simp only [hg, if_true]
      · simp only [hg, if_false, Option.map_none]
  · simp only [hi, if_false]

theorem total_modify (w : Frame → Nat) (g : Frame → Frame) (hf : t.get? id = some f) :
    (t.modify id.index g).total w + w f = t.total w + w (g f) := by
  obtain ⟨s, hs, hsf, _⟩ := get?_eq_some_iff.mp hf
  have hsum := sum_map_modify (fun s : FrameSlot => s.frame.elim 0 w)
    (fun s => { s with frame := s.frame.map g }) t.slots.toList id.index
    (by rw [Array.getElem?_toList]; exact hs)
  simpa [total, modify, hsf] using hsum

theorem Tidy.modify (ht : t.Tidy) (i : Nat) (g : Frame → Frame) : (t.modify i g).Tidy := by
  refine ⟨ht.nodup, fun j hj => ?_⟩
  obtain ⟨s, hs, hsf⟩ := ht.vacant j hj
  by_cases hij : i = j
  · exact ⟨_, by simp [FrameTable.modify, Array.getElem?_modify, hij, hs]; rfl, by simp [hsf]⟩
  · exact ⟨s, by simp [FrameTable.modify, Array.getElem?_modify, hij, hs], hsf⟩

/-! ## Popping a frame -/

theorem get?_pop (t : FrameTable) (i : Nat) (id : FrameId) :
    (t.pop i).get? id = if i = id.index then none else t.get? id := by
  unfold get? pop
  simp only [Array.getElem?_modify]
  by_cases hi : i = id.index
  · simp only [hi, if_true]
    cases t.slots[id.index]? with
    | none => rfl
    | some s => simp
  · simp only [hi, if_false]

theorem total_pop (w : Frame → Nat) (hf : t.get? id = some f) :
    (t.pop id.index).total w + w f = t.total w := by
  obtain ⟨s, hs, hsf, _⟩ := get?_eq_some_iff.mp hf
  have hsum := sum_map_modify (fun s : FrameSlot => s.frame.elim 0 w)
    (fun s => ⟨s.pops + 1, none⟩) t.slots.toList id.index
    (by rw [Array.getElem?_toList]; exact hs)
  simpa [total, pop, hsf] using hsum

theorem Tidy.pop (ht : t.Tidy) (hf : t.get? id = some f) : (t.pop id.index).Tidy := by
  obtain ⟨s, hs, hsf, _⟩ := get?_eq_some_iff.mp hf
  have hnew : id.index ∉ t.free := by
    intro hmem
    obtain ⟨s', hs', hsf'⟩ := ht.vacant _ hmem
    rw [hs] at hs'
    cases hs'
    rw [hsf] at hsf'
    cases hsf'
  refine ⟨List.nodup_cons.mpr ⟨hnew, ht.nodup⟩, fun j hj => ?_⟩
  by_cases hij : id.index = j
  · exact ⟨_, by simp [FrameTable.pop, Array.getElem?_modify, ← hij, hs]; rfl, rfl⟩
  · rcases List.mem_cons.mp hj with rfl | hj
    · exact absurd rfl hij
    · obtain ⟨s', hs', hsf'⟩ := ht.vacant j hj
      exact ⟨s', by simp [FrameTable.pop, Array.getElem?_modify, hij, hs'], hsf'⟩

/-! ## Entering a frame -/

theorem push_of_nil (hfree : t.free = []) (f : Frame) :
    t.push f = (⟨t.slots.size, 0⟩, ⟨t.slots.push ⟨0, some f⟩, []⟩) := by
  simp [push, hfree]

theorem push_of_cons {rest : List Nat} {s : FrameSlot} (hfree : t.free = i :: rest)
    (hs : t.slots[i]? = some s) (f : Frame) :
    t.push f = (⟨i, s.generation⟩, ⟨t.slots.modify i fun s => { s with frame := some f }, rest⟩) := by
  simp [push, hfree, hs]

/-- A new frame is found under its name, and all others under theirs. -/
theorem Tidy.get?_push (ht : t.Tidy) (f : Frame) (id : FrameId) :
    (t.push f).2.get? id = if id = (t.push f).1 then some f else t.get? id := by
  obtain ⟨index, generation⟩ := id
  cases hfree : t.free with
  | nil =>
    rw [push_of_nil hfree]
    unfold get?
    simp only [Array.getElem?_push]
    by_cases hi : index = t.slots.size
    · subst hi
      by_cases hg : generation = 0
      · simp [hg, FrameSlot.generation]
      · simp [hg, Ne.symm hg, FrameSlot.generation]
    · simp [hi]
  | cons i rest =>
    obtain ⟨s, hs, hsf⟩ := ht.vacant i (by simp [hfree])
    rw [push_of_cons hfree hs]
    unfold get?
    simp only [Array.getElem?_modify]
    by_cases hi : i = index
    · subst hi
      by_cases hg : generation = s.generation
      · simp [hg, hs, FrameSlot.generation]
      · have hg' : s.pops.toUInt32 ≠ generation := Ne.symm hg
        have hne : generation ≠ s.pops.toUInt32 := hg
        simp only [hs, hsf, FrameSlot.generation, hg', hne, if_true, if_false, Option.map_some,
          FrameId.mk.injEq, and_false]
    · have hi' : index ≠ i := Ne.symm hi
      simp [hi, hi']

theorem Tidy.total_push (ht : t.Tidy) (w : Frame → Nat) (f : Frame) :
    (t.push f).2.total w = t.total w + w f := by
  cases hfree : t.free with
  | nil => simp [push_of_nil hfree, total]
  | cons i rest =>
    obtain ⟨s, hs, hsf⟩ := ht.vacant i (by simp [hfree])
    rw [push_of_cons hfree hs]
    have hsum := sum_map_modify (fun s : FrameSlot => s.frame.elim 0 w)
      (fun s => { s with frame := some f }) t.slots.toList i
      (by rw [Array.getElem?_toList]; exact hs)
    simpa [total, hsf] using hsum

theorem Tidy.push (ht : t.Tidy) (f : Frame) : (t.push f).2.Tidy := by
  cases hfree : t.free with
  | nil =>
    rw [push_of_nil hfree]
    exact ⟨.nil, nofun⟩
  | cons i rest =>
    obtain ⟨s, hs, hsf⟩ := ht.vacant i (by simp [hfree])
    rw [push_of_cons hfree hs]
    have hnd := ht.nodup
    rw [hfree] at hnd
    obtain ⟨hi, hnd⟩ := List.nodup_cons.mp hnd
    refine ⟨hnd, fun j hj => ?_⟩
    have hij : i ≠ j := by
      rintro rfl
      exact hi hj
    obtain ⟨s, hs, hsf⟩ := ht.vacant j (by rw [hfree]; exact List.mem_cons_of_mem _ hj)
    exact ⟨s, by simp [Array.getElem?_modify, hij, hs], hsf⟩

end FrameTable

end ObjectMemory
