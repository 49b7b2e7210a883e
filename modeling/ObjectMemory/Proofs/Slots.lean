import ObjectMemory.Proofs.Actions
set_option autoImplicit false

/-!
# Slots as two functions

What a heap keeps in its slots is seen through two functions of the slot's number: the cell in it
(`Heap.tenant?`) and how many cells were freed in it (`Heap.frees`).  A slot beyond the end is like a
new one.  Each change of a slot has one lemma per view, and no later proof looks into the array.
-/

namespace ObjectMemory

namespace Heap

/-- The cell in a slot, if the slot is taken. -/
def tenant? (h : Heap) (i : Nat) : Option Cell := h.slots[i]?.bind (·.cell)

/-- The number of cells freed in a slot. -/
def frees (h : Heap) (i : Nat) : Nat := (h.slots[i]?.map (·.frees)).getD 0

/-- The handle that names a slot now. -/
def handle (h : Heap) (i : Nat) : Handle := ⟨i, (h.frees i).toUInt32⟩

variable {h h' : Heap} {i j : Nat} {c : Cell} {r : Handle}

@[simp] theorem index_handle (h : Heap) (i : Nat) : (h.handle i).index = i := rfl

/-! ## Cells -/

theorem slot_of_tenant (hc : h.tenant? i = some c) :
    ∃ s, h.slots[i]? = some s ∧ s.cell = some c ∧ s.frees = h.frees i := by
  unfold tenant? at hc
  cases hs : h.slots[i]? with
  | none => simp [hs] at hc
  | some s => exact ⟨s, rfl, by simpa [hs] using hc, by simp [frees, hs]⟩

theorem lt_size_of_tenant (hc : h.tenant? i = some c) : i < h.slots.size := by
  obtain ⟨s, hs, _⟩ := slot_of_tenant hc
  exact (Array.getElem?_eq_some_iff.mp hs).1

theorem cell?_eq_some_iff :
    h.cell? r = some c ↔ h.tenant? r.index = some c ∧ (h.frees r.index).toUInt32 = r.generation := by
  unfold cell? tenant? frees
  cases hs : h.slots[r.index]? with
  | none => simp
  | some s =>
    by_cases hg : s.generation = r.generation
    · simp only [hg, if_true, Option.bind_some, Option.map_some, Option.getD_some]
      exact ⟨fun hc => ⟨hc, hg⟩, fun hc => hc.1⟩
    · simp only [hg, if_false, Option.bind_some, Option.map_some, Option.getD_some]
      exact ⟨fun hc => (nomatch hc), fun hc => absurd hc.2 hg⟩

theorem tenant?_of_cell? (hc : h.cell? r = some c) : h.tenant? r.index = some c :=
  (cell?_eq_some_iff.mp hc).1

theorem cell?_handle (h : Heap) (i : Nat) : h.cell? (h.handle i) = h.tenant? i := by
  cases hc : h.tenant? i with
  | some c => exact cell?_eq_some_iff.mpr ⟨hc, rfl⟩
  | none =>
    cases hr : h.cell? (h.handle i) with
    | none => rfl
    | some c =>
      have hi : h.tenant? i = some c := tenant?_of_cell? hr
      rw [hc] at hi
      cases hi

/-- A handle that names a cell is the handle of its slot. -/
theorem handle_eq_of_cell? (hc : h.cell? r = some c) : h.handle r.index = r := by
  have hg := (cell?_eq_some_iff.mp hc).2
  cases r
  simpa [handle] using hg

theorem cellAt_eq_ok_iff : h.cellAt i = .ok c ↔ h.tenant? i = some c := by
  unfold cellAt tenant?
  cases hs : h.slots[i]? with
  | none => simp
  | some s => cases hc : s.cell <;> simp [hc]

theorem placeAt?_eq (h : Heap) (i : Nat) : h.placeAt? i = (h.tenant? i).map (·.place) := by
  unfold placeAt? tenant?
  cases h.slots[i]? <;> simp

theorem contains_iff : h.contains r = true ↔ ∃ c, h.cell? r = some c := by
  unfold contains
  exact Option.isSome_iff_exists

/-- Two heaps with the same views have the same cells. -/
theorem cell?_congr (ht : h'.tenant? r.index = h.tenant? r.index)
    (hf : h'.frees r.index = h.frees r.index) : h'.cell? r = h.cell? r := by
  apply Option.ext
  intro c
  rw [cell?_eq_some_iff, cell?_eq_some_iff, ht, hf]

/-! ## Bodies of one kind -/

theorem body?_eq_some_iff {b : Body} :
    h.body? r = some b ↔ ∃ c, h.cell? r = some c ∧ c.body = b := by
  unfold body?
  exact Option.map_eq_some_iff

theorem kind?_eq_some_iff {k : Kind} :
    h.kind? r = some k ↔ ∃ c, h.cell? r = some c ∧ c.kind = k := by
  unfold kind?
  exact Option.map_eq_some_iff

theorem refCount?_eq_some_iff {n : Nat} :
    h.refCount? r = some n ↔ ∃ c, h.cell? r = some c ∧ c.refCount = n := by
  unfold refCount?
  exact Option.map_eq_some_iff

theorem object?_eq_some_iff {o : Object} :
    h.object? r = some o ↔ ∃ c, h.cell? r = some c ∧ c.body = .object o := by
  rw [← body?_eq_some_iff]
  unfold object?
  cases h.body? r with
  | none => simp
  | some b => cases b <;> simp

theorem shape?_eq_some_iff {s : Shape} :
    h.shape? r = some s ↔ ∃ c, h.cell? r = some c ∧ c.body = .shape s := by
  rw [← body?_eq_some_iff]
  unfold shape?
  cases h.body? r with
  | none => simp
  | some b => cases b <;> simp

theorem captured?_eq_some_iff {v : Variable} :
    h.captured? r = some v ↔ ∃ c, h.cell? r = some c ∧ c.body = .captured v := by
  rw [← body?_eq_some_iff]
  unfold captured?
  cases h.body? r with
  | none => simp
  | some b => cases b <;> simp

theorem object?_iff_body? {o : Object} : h.object? r = some o ↔ h.body? r = some (.object o) := by
  rw [object?_eq_some_iff, body?_eq_some_iff]

theorem shape?_iff_body? {s : Shape} : h.shape? r = some s ↔ h.body? r = some (.shape s) := by
  rw [shape?_eq_some_iff, body?_eq_some_iff]

theorem captured?_iff_body? {v : Variable} :
    h.captured? r = some v ↔ h.body? r = some (.captured v) := by
  rw [captured?_eq_some_iff, body?_eq_some_iff]

theorem suspension?_eq_some_iff {s : Suspension} :
    h.suspension? r = some s ↔ ∃ c, h.cell? r = some c ∧ c.body = .suspension s := by
  rw [← body?_eq_some_iff]
  unfold suspension?
  cases h.body? r with
  | none => simp
  | some b => cases b <;> simp

theorem realm?_eq_some_iff {x : Realm} :
    h.realm? r = some x ↔ ∃ c, h.cell? r = some c ∧ c.body = .realm x := by
  rw [← body?_eq_some_iff]
  unfold realm?
  cases h.body? r with
  | none => simp
  | some b => cases b <;> simp

/-! ## Changing a cell -/

theorem tenant?_modifyCell (h : Heap) (i : Nat) (f : Cell → Cell) (j : Nat) :
    (h.modifyCell i f).tenant? j = if i = j then (h.tenant? j).map f else h.tenant? j := by
  unfold tenant? modifyCell
  simp only [Array.getElem?_modify]
  split
  · cases h.slots[j]? <;> simp
  · rfl

@[simp] theorem frees_modifyCell (h : Heap) (i : Nat) (f : Cell → Cell) (j : Nat) :
    (h.modifyCell i f).frees j = h.frees j := by
  unfold frees modifyCell
  simp only [Array.getElem?_modify]
  split
  · cases h.slots[j]? <;> simp
  · rfl

theorem cell?_modifyCell (h : Heap) (i : Nat) (f : Cell → Cell) (r : Handle) :
    (h.modifyCell i f).cell? r = if i = r.index then (h.cell? r).map f else h.cell? r := by
  apply Option.ext
  intro c
  rw [cell?_eq_some_iff, tenant?_modifyCell, frees_modifyCell]
  split
  · rw [Option.map_eq_some_iff, Option.map_eq_some_iff]
    constructor
    · rintro ⟨⟨d, hd, hc⟩, hg⟩
      exact ⟨d, cell?_eq_some_iff.mpr ⟨hd, hg⟩, hc⟩
    · rintro ⟨d, hd, hc⟩
      obtain ⟨hd, hg⟩ := cell?_eq_some_iff.mp hd
      exact ⟨⟨d, hd, hc⟩, hg⟩
  · rw [cell?_eq_some_iff]

@[simp] theorem size_modifyCell (h : Heap) (i : Nat) (f : Cell → Cell) :
    (h.modifyCell i f).slots.size = h.slots.size := by
  simp [modifyCell]

/-- Changing a cell changes a total by the difference it makes there. -/
theorem total_modifyCell (f : Cell → Nat) (g : Cell → Cell) (hc : h.tenant? i = some c) :
    (h.modifyCell i g).total f + f c = h.total f + f (g c) := by
  obtain ⟨s, hs, hsc, _⟩ := slot_of_tenant hc
  exact slotTotal_modifyCell f g hs hsc

/-- A change that leaves every cell as it is changes nothing. -/
theorem modifyCell_self (h : Heap) (i : Nat) {f : Cell → Cell} (hf : ∀ c, f c = c) :
    h.modifyCell i f = h := by
  obtain rfl : f = id := funext hf
  unfold modifyCell
  have hslots : h.slots.modify i (fun s => { s with cell := s.cell.map id }) = h.slots := by
    apply Array.ext_getElem?
    intro j
    rw [Array.getElem?_modify]
    split
    · cases h.slots[j]? <;> simp
    · rfl
  rw [hslots]

/-- Two changes of one cell are one change. -/
theorem modifyCell_modifyCell (h : Heap) (i : Nat) (f g : Cell → Cell) :
    (h.modifyCell i f).modifyCell i g = h.modifyCell i (g ∘ f) := by
  unfold modifyCell
  simp only [Heap.mk.injEq, true_and, and_true]
  apply Array.ext_getElem?
  intro j
  simp only [Array.getElem?_modify]
  split
  · cases h.slots[j]? <;> simp
  · rfl

/-- Changes of different cells can be made in any order. -/
theorem modifyCell_comm (h : Heap) (f g : Cell → Cell) (hij : i ≠ j) :
    (h.modifyCell i f).modifyCell j g = (h.modifyCell j g).modifyCell i f := by
  unfold modifyCell
  simp only [Heap.mk.injEq, true_and, and_true]
  apply Array.ext_getElem?
  intro k
  simp only [Array.getElem?_modify]
  by_cases hi : i = k
  · have hj : j ≠ k := fun hj => hij (hi.trans hj.symm)
    simp [hi, hj]
  · simp [hi]

/-! ## Vacant slots -/

/-- A slot beyond the end is a vacant one that was never freed. -/
theorem tenant?_push (hs : h'.slots = h.slots.push ⟨0, none⟩) (j : Nat) : h'.tenant? j = h.tenant? j := by
  unfold tenant?
  rw [hs, Array.getElem?_push]
  split
  · rename_i hj
    simp [hj]
  · rfl

theorem frees_push (hs : h'.slots = h.slots.push ⟨0, none⟩) (j : Nat) : h'.frees j = h.frees j := by
  unfold frees
  rw [hs, Array.getElem?_push]
  split
  · rename_i hj
    simp [hj]
  · rfl

/-- The heap with one slot more, which is vacant. -/
def widen (h : Heap) : Heap :=
  { h with slots := h.slots.push ⟨0, none⟩, freeSlots := h.slots.size :: h.freeSlots }

@[simp] theorem tenant?_widen (h : Heap) (j : Nat) : h.widen.tenant? j = h.tenant? j := tenant?_push rfl j

@[simp] theorem frees_widen (h : Heap) (j : Nat) : h.widen.frees j = h.frees j := frees_push rfl j

@[simp] theorem size_widen (h : Heap) : h.widen.slots.size = h.slots.size + 1 := Array.size_push ..

theorem takeSlot_eq_error {cause : Fault} (e : h.takeSlot = .error cause) : cause = .tooManySlots := by
  unfold takeSlot at e
  split at e
  · cases e
  · split at e
    · cases e
    · cases e
      rfl

/-- The slot that is taken is vacant, and all cells are where they were. -/
theorem takeSlot_eq_ok {i : Nat} (e : h.takeSlot = .ok (i, h')) :
    h.slots.size ≤ h'.slots.size ∧ (∀ j, h'.frees j = h.frees j) ∧
      ∀ j, h'.tenant? j = h.tenant? j := by
  unfold takeSlot at e
  split at e
  · cases e
    exact ⟨Nat.le_refl _, fun _ => rfl, fun _ => rfl⟩
  · split at e
    · cases e
      exact ⟨by simp, frees_push rfl, tenant?_push rfl⟩
    · cases e

/-! ## Placing a cell -/

theorem tenant?_joinLive (h : Heap) (i : Nat) (old : Place) (j : Nat) :
    (h.joinLive i old).tenant? j =
      if i = j then (h.tenant? j).map fun c => { c with place := .live h.nextTicket }
      else h.tenant? j :=
  tenant?_modifyCell h i _ j

@[simp] theorem frees_joinLive (h : Heap) (i : Nat) (old : Place) (j : Nat) :
    (h.joinLive i old).frees j = h.frees j :=
  frees_modifyCell h i _ j

/-! ## Freeing a cell -/

/-- What is left of a heap when a cell is freed. -/
theorem free_eq_ok_iff : h.free i = .ok h' ↔
    ∃ c, h.tenant? i = some c ∧ c.size ≤ h.used ∧ h.liveCells ≠ 0 ∧
      h' = { h with
        slots := h.slots.modify i fun s => ⟨s.frees + 1, none⟩
        freeSlots := i :: h.freeSlots
        used := h.used - c.size
        liveCells := h.liveCells - 1
        lists := h.lists.leave i c.place.list? } := by
  unfold free
  cases hc : h.cellAt i with
  | error e =>
    simp only [reduceCtorEq, false_iff, not_exists, not_and]
    intro c hc'
    rw [cellAt_eq_ok_iff.mpr hc'] at hc
    cases hc
  | ok c =>
    have hc := cellAt_eq_ok_iff.mp hc
    dsimp only
    constructor
    · intro e
      split at e
      · cases e
      · rename_i hn
        cases e
        exact ⟨c, hc, by omega, by omega, rfl⟩
    · rintro ⟨d, hd, hsize, hlive, rfl⟩
      rw [hc] at hd
      cases hd
      rw [if_neg (by omega)]

theorem tenant?_vacate (h : Heap) (i j : Nat) :
    ((h.slots.modify i fun s => ⟨s.frees + 1, none⟩)[j]?.bind (·.cell)) =
      if i = j then none else h.tenant? j := by
  simp only [Array.getElem?_modify]
  split
  · cases h.slots[j]? <;> rfl
  · rfl

theorem frees_vacate (hc : h.tenant? i = some c) (j : Nat) :
    ((h.slots.modify i fun s => ⟨s.frees + 1, none⟩)[j]?.map (·.frees)).getD 0 =
      if i = j then h.frees j + 1 else h.frees j := by
  obtain ⟨s, hs, _⟩ := slot_of_tenant hc
  simp only [Array.getElem?_modify]
  split
  · rename_i hij
    subst hij
    simp [hs, frees]
  · rfl

theorem tenant?_free (hf : h.free i = .ok h') (j : Nat) :
    h'.tenant? j = if i = j then none else h.tenant? j := by
  obtain ⟨c, hc, _, _, rfl⟩ := free_eq_ok_iff.mp hf
  exact tenant?_vacate h i j

theorem frees_free (hf : h.free i = .ok h') (j : Nat) :
    h'.frees j = if i = j then h.frees j + 1 else h.frees j := by
  obtain ⟨c, hc, _, _, rfl⟩ := free_eq_ok_iff.mp hf
  exact frees_vacate hc j

theorem total_free (f : Cell → Nat) (hf : h.free i = .ok h') (hc : h.tenant? i = some c) :
    h'.total f + f c = h.total f := by
  obtain ⟨d, _, _, _, rfl⟩ := free_eq_ok_iff.mp hf
  obtain ⟨s, hs, hsc, _⟩ := slot_of_tenant hc
  exact slotTotal_vacate f hs hsc

end Heap

end ObjectMemory
