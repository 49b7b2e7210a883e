import ObjectMemory.Proofs.Registry
import ObjectMemory.Proofs.TrialDeletion
set_option autoImplicit false

/-!
# Walks along the lists

A pass of the collector is a fold over slots, and stands for a walk along one of the linked lists: the
cell under the cursor is seen to, and the links tell the next one.  Seeing to a cell moves cells from
list to list, among them the one under the cursor.  `Heap.Walks` is a walk that comes to the end of its
list all the same.

* Trial deletion reads the link before it sees to the cell.  It moves cells that are marked, and none
  ahead of the cursor is (`Heap.Sorting.walk`).
* Rescue reads the link afterwards, and cells join the list it walks.  Every one of them had a count that
  was used up, so the list grows only so often (`Heap.Saving.walk`).
* Restoring moves nothing (`Heap.Files.walk_restoring`).
-/

namespace ObjectMemory.Heap

variable {h h₁ h' : Heap} {c : Cell} {i j k : Nat} {name : ListName} {order : ListName → List Nat}
  {rest saved found : List Nat} {st st' : Heap × List Nat}

/-! ## Walks -/

/-- A walk that comes to the end of its list.  `visit` sees to the cell under the cursor and tells the
cells it is done with; `onward` is the next cell, read off the heap before the visit or after it. -/
inductive Walks (visit : Heap → Nat → List Nat → Heap → Prop) (onward : Heap → Nat → Heap → Option Nat) :
    Heap → Option Nat → List Nat → Heap → Prop where
  | finish (h : Heap) : Walks visit onward h none [] h
  | cell {h h₁ h' : Heap} {i : Nat} {cells log : List Nat} (e : visit h i cells h₁)
      (more : Walks visit onward h₁ (onward h i h₁) log h') : Walks visit onward h (some i) (cells ++ log) h'

/-- A visit is done with the cell under the cursor alone. -/
theorem Walks.single {visit : Heap → Nat → List Nat → Heap → Prop} {onward : Heap → Nat → Heap → Option Nat}
    {log : List Nat} (e : visit h i [i] h₁) (more : Walks visit onward h₁ (onward h i h₁) log h') :
    Walks visit onward h (some i) (i :: log) h' :=
  .cell e more

/-- The cell behind, as it is linked before the visit. -/
def linkBefore (name : ListName) (h : Heap) (i : Nat) (_ : Heap) : Option Nat := h.lists.next name (some i)

/-- The cell behind, as it is linked after the visit. -/
def linkAfter (name : ListName) (_ : Heap) (i : Nat) (h' : Heap) : Option Nat := h'.lists.next name (some i)

/-- The first cell of the list after the visit. -/
def firstAfter (name : ListName) (_ : Heap) (_ : Nat) (h' : Heap) : Option Nat := h'.lists.next name none

/-- A cell is seen to by trial deletion, whatever was found before. -/
def Tries (h : Heap) (i : Nat) (cells : List Nat) (h' : Heap) : Prop :=
  cells = [i] ∧ ∃ found found', trialCell (h, found) i = .ok (h', found')

/-- A cell is seen to by rescue, whatever was saved before. -/
def Rescues (h : Heap) (i : Nat) (cells : List Nat) (h' : Heap) : Prop :=
  cells = [i] ∧ ∃ saved saved', rescueCell (h, saved) i = .ok (h', saved')

/-- A cell is seen to by restoring. -/
def Restores (h : Heap) (i : Nat) (cells : List Nat) (h' : Heap) : Prop :=
  cells = [i] ∧ h.restoreCell i = .ok h'

/-! ## Trial deletion -/

/-- Taking an edge out lowers the count at its end.  A marked cell that lost the last of its count leaves
the list it is on for the candidates. -/
theorem Files.trialEdge (hf : st.1.Files order) (e : Heap.trialEdge st k = .ok st') :
    (∀ j, st'.1.markAt j = st.1.markAt j) ∧ st.1.countAt k ≠ 0 ∧
      (∀ j, st'.1.countAt j = if j = k then st.1.countAt k - 1 else st.1.countAt j) ∧
      ((st'.2 = st.2 ∧ st'.1.Files order) ∨ (st'.1.countAt k = 0 ∧ st.1.markAt k = true ∧
        st'.2 = k :: st.2 ∧ st'.1.Files (reorder order k (some .candidates)))) := by
  obtain ⟨c, hc, hpos, hcases⟩ := trialEdge_eq_ok e
  have hc := cellAt_eq_ok_iff.mp hc
  have hcell : st.1.cell? (st.1.handle k) = some c := by rw [cell?_handle, hc]
  have hu := Updates.setRefCount hcell (c.refCount - 1)
  have hf₁ : (st.1.setRefCount k (c.refCount - 1)).Files order :=
    hf.of_places (placeAt?_modifyCell st.1 k fun _ => rfl) rfl rfl
  simp only [countAt_of_tenant hc, markAt_of_tenant hc]
  obtain ⟨hlast, rfl⟩ | ⟨-, rfl⟩ := hcases
  · have hu₂ := hu.trans (.setPlace hu.cell_self c.place .candidate)
    have hf₂ := hf₁.setPlace (c := { c with refCount := c.refCount - 1 }) (q := .candidate)
      (tenant?_of_cell? hu.cell_self) rfl
    refine ⟨hu₂.markAt_same hcell rfl, hpos, hu₂.countAt, .inr ⟨(hu₂.countAt k).trans ?_, hlast.2, rfl, hf₂⟩⟩
    rw [index_handle, if_pos rfl, hlast.1]
  · exact ⟨hu.markAt_same hcell rfl, hpos, hu.countAt, .inl ⟨rfl, hf₁⟩⟩

/-- The lists while edges are taken out: the cells of `rest`, which are still to be seen to, are the last
ones on the live list, and the candidates stand in the order they were found in. -/
structure Sorting (rest : List Nat) (st : Heap × List Nat) (order : ListName → List Nat) : Prop where
  files : st.1.Files order
  ahead : rest <:+ order .live
  unmarked : ∀ j ∈ rest, st.1.markAt j = false
  candidates : order .candidates = st.2.reverse
  spent : ∀ j ∈ st.2, st.1.countAt j = 0
  waiting : order .waiting = []

/-- A cell that leaves a list leaves its end alone, if it is not there. -/
theorem suffix_erase {xs ys : List Nat} (hs : xs <:+ ys) (hi : i ∉ xs) : xs <:+ ys.erase i := by
  obtain ⟨front, rfl⟩ := hs
  by_cases hfront : i ∈ front
  · exact ⟨front.erase i, (List.erase_append_left _ hfront).symm⟩
  · rw [List.erase_append_right _ hfront, List.erase_of_not_mem hi]
    exact List.suffix_append _ _

namespace Sorting

/-- A cell that was seen to becomes a candidate. -/
theorem candidate (hs : Sorting rest st order) (hf : h'.Files (reorder order k (some .candidates)))
    (hk : k ∉ rest) (hnew : k ∉ st.2) (hmark : ∀ j ∈ rest, h'.markAt j = false)
    (hspent : ∀ j ∈ k :: st.2, h'.countAt j = 0) :
    Sorting rest (h', k :: st.2) (reorder order k (some .candidates)) := by
  refine ⟨hf, ?_, hmark, ?_, hspent, ?_⟩
  · rw [reorder_other _ _ (by decide)]
    exact suffix_erase hs.ahead hk
  · rw [reorder_self, hs.candidates, List.erase_of_not_mem (by simpa using hnew), List.reverse_cons]
  · rw [reorder_other _ _ (by decide), hs.waiting]
    rfl

theorem edge (hs : Sorting rest st order) (e : Heap.trialEdge st k = .ok st') :
    ∃ order', Sorting rest st' order' := by
  obtain ⟨hmark, hpos, hcount, hcases⟩ := hs.files.trialEdge e
  have hunmarked : ∀ j ∈ rest, st'.1.markAt j = false := fun j hj => (hmark j).trans (hs.unmarked j hj)
  -- the cell had a count, so it was not among the candidates
  have hnew : k ∉ st.2 := fun hk => hpos (hs.spent k hk)
  have hspent : ∀ j ∈ st.2, st'.1.countAt j = 0 := fun j hj => by
    rw [hcount, if_neg fun he : j = k => hnew (he ▸ hj)]
    exact hs.spent j hj
  obtain ⟨hfound, hf⟩ | ⟨hzero, hmarked, hfound, hf⟩ := hcases
  · exact ⟨order, hf, hs.ahead, hunmarked, hfound ▸ hs.candidates, hfound ▸ hspent, hs.waiting⟩
  · obtain ⟨h', found'⟩ := st'
    obtain rfl : found' = k :: st.2 := hfound
    refine ⟨_, hs.candidate hf (fun hk => ?_) hnew hunmarked (List.forall_mem_cons.mpr ⟨hzero, hspent⟩)⟩
    rw [hs.unmarked k hk] at hmarked
    cases hmarked

/-- The cell under the cursor is seen to. -/
theorem cell (hs : Sorting (k :: rest) st order) (hk : k ∉ rest) (e : Heap.trialCell st k = .ok st') :
    ∃ order', Sorting rest st' order' := by
  obtain ⟨children, _, e⟩ := except_bind_eq_ok e
  obtain ⟨⟨h₁, found₁⟩, he, e⟩ := except_bind_eq_ok e
  obtain ⟨c, hc, e⟩ := except_bind_eq_ok e
  have hc := cellAt_eq_ok_iff.mp hc
  have hcell : h₁.cell? (h₁.handle k) = some c := by rw [cell?_handle, hc]
  obtain ⟨order₁, hs₁⟩ := foldlM_ok_induct (P := fun st => ∃ order, Sorting (k :: rest) st order)
    (fun _ _ _ ⟨_, hs⟩ e => hs.edge e) ⟨order, hs⟩ he
  have hu : Updates (h₁.handle k) (some { c with mark := true }) h₁
      (h₁.modifyCell k fun c => { c with mark := true }) := .modifyCell hcell fun c => { c with mark := true }
  have hf₂ : (h₁.modifyCell k fun c => { c with mark := true }).Files order₁ :=
    hs₁.files.of_places (placeAt?_modifyCell h₁ k fun _ => rfl) rfl rfl
  have hcount : ∀ j, (h₁.modifyCell k fun c => { c with mark := true }).countAt j = h₁.countAt j :=
    hu.countAt_same hcell rfl
  have hunmarked : ∀ j ∈ rest, (h₁.modifyCell k fun c => { c with mark := true }).markAt j = false :=
    fun j hj => by
      rw [hu.markAt, index_handle, if_neg fun he : j = k => hk (he ▸ hj)]
      exact hs₁.unmarked j (List.mem_cons_of_mem k hj)
  have hspent : ∀ j ∈ found₁, (h₁.modifyCell k fun c => { c with mark := true }).countAt j = 0 :=
    fun j hj => (hcount j).trans (hs₁.spent j hj)
  have hs₂ : Sorting rest (h₁.modifyCell k fun c => { c with mark := true }, found₁) order₁ :=
    ⟨hf₂, (List.suffix_cons k rest).trans hs₁.ahead, hunmarked, hs₁.candidates, hspent, hs₁.waiting⟩
  split at e
  · rename_i hzero
    have hu₃ := Updates.setPlace hu.cell_self c.place .candidate
    have hf₃ := hf₂.setPlace (c := { c with mark := true }) (q := .candidate) (tenant?_of_cell? hu.cell_self) rfl
    cases e
    refine ⟨_, hs₂.candidate hf₃ hk (fun hmem => ?_) (fun j hj => ?_)
      (List.forall_mem_cons.mpr ⟨?_, fun j hj => ?_⟩)⟩
    · -- the cell is on the live list, so it is no candidate
      have hlive := hs₁.ahead.subset List.mem_cons_self
      have hcand : k ∈ order₁ .candidates := hs₁.candidates ▸ List.mem_reverse.mpr hmem
      cases hs₁.files.arranged.disjoint _ _ _ hlive hcand
    · exact (hu₃.markAt_same hu.cell_self rfl j).trans (hunmarked j hj)
    · exact (hu₃.countAt_same hu.cell_self rfl k).trans
        ((hcount k).trans ((countAt_of_tenant hc).trans hzero))
    · exact (hu₃.countAt_same hu.cell_self rfl j).trans (hspent j hj)
  · cases e
    exact ⟨order₁, hs₂⟩

/-- Trial deletion walks to the end of the live list. -/
theorem walk (hs : Sorting rest st order) (hnodup : rest.Nodup) (e : rest.foldlM trialCell st = .ok st') :
    Walks Tries (linkBefore .live) st.1 rest.head? rest st'.1 ∧ ∃ order', Sorting [] st' order' := by
  induction rest generalizing st order with
  | nil =>
    cases e
    exact ⟨.finish _, order, hs⟩
  | cons k rest ih =>
    rw [List.foldlM_cons] at e
    obtain ⟨st₁, e₁, e⟩ := except_bind_eq_ok e
    obtain ⟨hk, hnodup⟩ := List.nodup_cons.mp hnodup
    obtain ⟨_, hs₁⟩ := hs.cell hk e₁
    obtain ⟨hmore, hend⟩ := ih hs₁ hnodup e
    obtain ⟨front, hlive⟩ := hs.ahead
    refine ⟨.single ⟨rfl, _, _, e₁⟩ ?_, hend⟩
    rw [linkBefore, hs.files.behind hlive.symm]
    exact hmore

end Sorting

/-! ## Rescue -/

/-- Putting an edge back raises the count at its end.  A cell whose count was used up joins the live list,
behind all others. -/
theorem Files.rescueEdge (hf : st.1.Files order) (e : Heap.rescueEdge st k = .ok st') :
    (∀ j, st'.1.countAt j = if j = k then st.1.countAt k + 1 else st.1.countAt j) ∧
      ((st'.2 = st.2 ∧ st'.1.Files order) ∨ (st.1.countAt k = 0 ∧ st'.2 = k :: st.2 ∧
        st'.1.Files (reorder order k (some .live)))) := by
  obtain ⟨c, hc, hcases⟩ := rescueEdge_eq_ok e
  have hc := cellAt_eq_ok_iff.mp hc
  have hcell : st.1.cell? (st.1.handle k) = some c := by rw [cell?_handle, hc]
  simp only [countAt_of_tenant hc]
  obtain ⟨hzero, rfl⟩ | ⟨-, rfl⟩ := hcases
  · have hu : Updates (st.1.handle k) (some { c with refCount := 1, mark := false }) st.1
        (st.1.modifyCell k fun c => { c with refCount := 1, mark := false }) :=
      .modifyCell hcell fun c => { c with refCount := 1, mark := false }
    have hf₁ : (st.1.modifyCell k fun c => { c with refCount := 1, mark := false }).Files order :=
      hf.of_places (placeAt?_modifyCell st.1 k fun _ => rfl) rfl rfl
    have hu₂ := hu.trans (.joinLive hu.cell_self c.place)
    have hf₂ := hf₁.joinLive (c := { c with refCount := 1, mark := false }) (tenant?_of_cell? hu.cell_self)
    rw [hzero]
    exact ⟨hu₂.countAt, .inr ⟨rfl, rfl, hf₂⟩⟩
  · have hu := Updates.setRefCount hcell (c.refCount + 1)
    exact ⟨hu.countAt, .inl ⟨rfl, hf.of_places (placeAt?_modifyCell st.1 k fun _ => rfl) rfl rfl⟩⟩

/-- The lists while edges are put back: the live list is made of the cells of `done`, which were seen to,
and those of `ahead`; of the candidates that were `found` some may have left. -/
structure Saving (found done ahead : List Nat) (h : Heap) (order : ListName → List Nat) : Prop where
  files : h.Files order
  live : order .live = done ++ ahead
  candidates : (order .candidates).Sublist found
  counted : ∀ j ∈ order .live, h.countAt j ≠ 0
  waiting : order .waiting = []

namespace Saving

variable {done ahead log cells : List Nat}

/-- Nothing is saved yet. -/
theorem start (hs : Saving found done cells h order) :
    Saving found done (cells ++ (h, ([] : List Nat)).2.reverse) (h, ([] : List Nat)).1 order := by
  simpa using hs

theorem edge (hs : Saving found done (rest ++ st.2.reverse) st.1 order) (e : Heap.rescueEdge st k = .ok st') :
    ∃ order', Saving found done (rest ++ st'.2.reverse) st'.1 order' := by
  obtain ⟨hcount, hcases⟩ := hs.files.rescueEdge e
  have hcounted : ∀ j ∈ order .live, st'.1.countAt j ≠ 0 := fun j hj => by
    rw [hcount]
    split
    · exact Nat.succ_ne_zero _
    · exact hs.counted j hj
  obtain ⟨hsaved, hf⟩ | ⟨hzero, hsaved, hf⟩ := hcases
  · exact ⟨order, hf, hsaved ▸ hs.live, hs.candidates, hcounted, hs.waiting⟩
  · -- the count was used up, so the cell was not live
    have hnew : k ∉ order .live := fun hk => hs.counted k hk hzero
    have hlive : reorder order k (some .live) .live = order .live ++ [k] := by
      rw [reorder_self, List.erase_of_not_mem hnew]
    refine ⟨_, hf, ?_, ?_, fun j hj => ?_, ?_⟩
    · rw [hlive, hs.live, hsaved, List.reverse_cons, List.append_assoc, List.append_assoc]
    · rw [reorder_other _ _ (by decide)]
      exact List.erase_sublist.trans hs.candidates
    · rw [hlive] at hj
      rcases List.mem_append.mp hj with hj | hj
      · exact hcounted j hj
      · rw [List.mem_singleton.mp hj, hcount, if_pos rfl]
        exact Nat.succ_ne_zero _
    · rw [reorder_other _ _ (by decide), hs.waiting]
      rfl

/-- The cell under the cursor is seen to. -/
theorem cell (hs : Saving found done (k :: rest ++ st.2.reverse) st.1 order)
    (e : Heap.rescueCell st k = .ok st') :
    ∃ order', Saving found (done ++ [k]) (rest ++ st'.2.reverse) st'.1 order' := by
  obtain ⟨h, saved⟩ := st
  obtain ⟨children, -, e⟩ := rescueCell_eq_ok e
  have hf : (h.modifyCell k fun c => { c with mark := false }).Files order :=
    hs.files.of_places (placeAt?_modifyCell h k fun _ => rfl) rfl rfl
  have hlive : k ∈ order .live := by
    rw [hs.live]
    simp
  obtain ⟨c, hc, -⟩ := tenant_of_countAt (hs.counted k hlive)
  have hcell : h.cell? (h.handle k) = some c := by rw [cell?_handle, hc]
  have hu : Updates (h.handle k) (some { c with mark := false }) h
      (h.modifyCell k fun c => { c with mark := false }) := .modifyCell hcell fun c => { c with mark := false }
  have hs₁ : Saving found (done ++ [k]) (rest ++ saved.reverse)
      (h.modifyCell k fun c => { c with mark := false }) order :=
    ⟨hf, by simpa using hs.live, hs.candidates, fun j hj =>
      (hu.countAt_same hcell rfl j).symm ▸ hs.counted j hj, hs.waiting⟩
  exact foldlM_ok_induct
    (P := fun st => ∃ order, Saving found (done ++ [k]) (rest ++ st.2.reverse) st.1 order)
    (fun _ _ _ ⟨_, hs⟩ e => hs.edge e) ⟨order, hs₁⟩ e

/-- One round of a rescue walks to the cells that it saved. -/
theorem round (hs : Saving found done (rest ++ st.2.reverse) st.1 order)
    (e : rest.foldlM rescueCell st = .ok st') :
    (∃ order', Saving found (done ++ rest) st'.2.reverse st'.1 order') ∧
      ∀ {log h'}, Walks Rescues (linkAfter .live) st'.1 st'.2.reverse.head? log h' →
        Walks Rescues (linkAfter .live) st.1 (rest ++ st.2.reverse).head? (rest ++ log) h' := by
  induction rest generalizing st done order with
  | nil =>
    cases e
    exact ⟨⟨order, by simpa using hs⟩, fun hmore => hmore⟩
  | cons k rest ih =>
    rw [List.foldlM_cons] at e
    obtain ⟨st₁, e₁, e⟩ := except_bind_eq_ok e
    obtain ⟨order₁, hs₁⟩ := hs.cell e₁
    obtain ⟨hend, hwalk⟩ := ih hs₁ e
    refine ⟨by simpa using hend, fun hmore => .single ⟨rfl, _, _, e₁⟩ ?_⟩
    have hlive : order₁ .live = done ++ k :: (rest ++ st₁.2.reverse) := by simpa using hs₁.live
    rw [linkAfter, hs₁.files.behind hlive]
    exact hwalk hmore

/-- Rescue walks to the end of the live list, whatever joins it on the way. -/
theorem walk (hs : Saving found done cells h order) (e : h.rescue cells = .ok h') :
    ∃ log order', Walks Rescues (linkAfter .live) h cells.head? log h' ∧
      Saving found (done ++ log) [] h' order' := by
  fun_induction Heap.rescue h cells generalizing done order with
  | case1 h cells err he => cases e
  | case2 h cells h₁ he =>
    cases e
    obtain ⟨⟨order', hend⟩, hwalk⟩ := hs.start.round he
    refine ⟨cells, order', ?_, hend⟩
    simpa using hwalk (.finish _)
  | case3 h cells h₁ j saved he ih =>
    obtain ⟨⟨order₁, hs₁⟩, hwalk⟩ := hs.start.round he
    obtain ⟨log, order', hmore, hend⟩ := ih hs₁ e
    refine ⟨cells ++ log, order', ?_, by simpa using hend⟩
    simpa using hwalk hmore

end Saving

/-! ## Restoring -/

theorem Files.restoreCell (hf : h.Files order) (e : h.restoreCell i = .ok h') : h'.Files order := by
  obtain ⟨children, _, e⟩ := except_bind_eq_ok e
  refine foldlM_ok_induct (P := fun h => h.Files order) (fun s child s' hs hstep => ?_) hf e
  obtain ⟨c, -, rfl⟩ := restoreEdge_eq_ok hstep
  exact hs.of_places (placeAt?_modifyCell s child fun _ => rfl) rfl rfl

/-- Restoring walks to the end of the candidates. -/
theorem Files.walk_restoring (hf : h.Files order) (done : List Nat) (hs : order .candidates = done ++ rest)
    (e : rest.foldlM Heap.restoreCell h = .ok h') :
    Walks Restores (linkAfter .candidates) h rest.head? rest h' ∧ h'.Files order := by
  induction rest generalizing h done with
  | nil =>
    cases e
    exact ⟨.finish _, hf⟩
  | cons k rest ih =>
    rw [List.foldlM_cons] at e
    obtain ⟨h₁, e₁, e⟩ := except_bind_eq_ok e
    have hf₁ := hf.restoreCell e₁
    obtain ⟨hmore, hend⟩ := ih hf₁ (done ++ [k]) (by simpa using hs) e
    refine ⟨.single ⟨rfl, e₁⟩ ?_, hend⟩
    rw [linkAfter, hf₁.behind hs]
    exact hmore

end ObjectMemory.Heap
