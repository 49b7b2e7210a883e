import ObjectMemory.Heap.Release
set_option autoImplicit false

/-!
# The cycle collector

Counting frees everything but cycles.  The collector finds the cycles that nothing outside refers to
without knowing who is outside:

1. *Trial deletion* takes every edge between tracked cells out of the counts.  What is left of a count
   are the references from outside; a cell with none left is a candidate.
2. *Rescue* starts from the cells that still have a count and puts their edges back.  A candidate that
   gets an edge back was reachable after all, and its own edges are put back in turn.
3. *Restoring* puts back the edges of the remaining candidates, which are garbage, so that freeing
   them balances.
4. *Removal* finalizes the garbage of the queued kinds; the rest is freed when its owners are.

A variable attached to a frame is on no list and has no edges; its frame counts as outside.
-/

namespace ObjectMemory

namespace Heap

/-! ## Edges -/

/-- The handle names a variable that owns its value. -/
def isDetached (h : Heap) (r : Handle) : Bool :=
  match h.captured? r with
  | some v => v.isDetached
  | none => false

/-- The edges of a property. -/
def propertyEdges (h : Heap) : Property → List Handle
  | .value v => v.ref?.toList
  | .accessor getter setter => getter.toList ++ setter.toList
  | .captured r => if h.isDetached r then [r] else []

/-- The edges of a payload. -/
def payloadEdges (h : Heap) : Payload → List Handle
  | .ordinary => []
  | .array elements _ => elements.toList.filterMap Value.ref?
  | .closure bytecode captured home =>
    bytecode :: (captured.toList.filter h.isDetached ++ home.toList)

/-- The edges of a suspended call; once it has completed, only those of its outcome. -/
def suspensionEdges (s : Suspension) : List Handle :=
  (if s.active then (s.receiver :: s.values.toList).filterMap Value.ref? else []) ++
    [s.resolve, s.reject].filterMap Value.ref?

/-- The edges of a body to tracked cells. -/
def edges (h : Heap) : Body → List Handle
  | .object o =>
    o.shape :: (o.properties.toList.flatMap h.propertyEdges ++ h.payloadEdges o.payload)
  | .bytecode b => b.refs
  | .captured v => v.refs
  | .suspension s => suspensionEdges s
  | .shape s => s.proto.toList
  | .realm r => [r.globalObject, r.objectProto, r.functionProto, r.arrayProto, r.arrayShape]
  | .zombie _ => []

/-- The slots at the other end of a cell's edges. -/
def childrenAt (h : Heap) (i : Nat) : Except Fault (List Nat) :=
  match h.cellAt i with
  | .ok c => .ok ((h.edges c.body).map (·.index))
  | .error e => .error e

/-! ## Trial deletion -/

/-- Takes one edge out of the count of its end.  A cell that was visited before and has no count left
becomes a candidate; candidates are listed the latest first. -/
def trialEdge (st : Heap × List Nat) (child : Nat) : Except Fault (Heap × List Nat) :=
  let (h, found) := st
  match h.cellAt child with
  | .error e => .error e
  | .ok c =>
    if c.refCount = 0 then .error (.trialUnderflow child)
    else
      let h := h.setRefCount child (c.refCount - 1)
      if c.refCount = 1 ∧ c.mark then .ok (h.setPlace child c.place .candidate, child :: found)
      else .ok (h, found)

/-- Takes the edges of one cell out of the counts and marks the cell. -/
def trialCell (st : Heap × List Nat) (i : Nat) : Except Fault (Heap × List Nat) := do
  let children ← st.1.childrenAt i
  let (h, found) ← children.foldlM trialEdge st
  let c ← h.cellAt i
  let h := h.modifyCell i fun c => { c with mark := true }
  if c.refCount = 0 then return (h.setPlace i c.place .candidate, i :: found)
  else return (h, found)

/-- Takes every edge between tracked cells out of the counts.  The candidates come with the heap, in
the order they were found. -/
def trialDeletion (h : Heap) : Except Fault (Heap × List Nat) := do
  let (h, found) ← h.liveOrder.foldlM trialCell (h, [])
  return (h, found.reverse)

/-! ## Rescue -/

/-- Puts one edge back into the count of its end.  A cell whose count was used up is rescued: it joins
the live list again. -/
def rescueEdge (st : Heap × List Nat) (child : Nat) : Except Fault (Heap × List Nat) :=
  let (h, saved) := st
  match h.cellAt child with
  | .error e => .error e
  | .ok c =>
    if c.refCount = 0 then
      let h := h.modifyCell child fun c => { c with refCount := 1, mark := false }
      .ok (h.joinLive child c.place, child :: saved)
    else .ok (h.setRefCount child (c.refCount + 1), saved)

/-- Puts the edges of one cell back and takes its mark away. -/
def rescueCell (st : Heap × List Nat) (i : Nat) : Except Fault (Heap × List Nat) :=
  let (h, saved) := st
  let h := h.modifyCell i fun c => { c with mark := false }
  match h.childrenAt i with
  | .ok children => children.foldlM rescueEdge (h, saved)
  | .error e => .error e

/-! ## What a step does -/

section

variable {h h' : Heap} {st st' : Heap × List Nat} {i child : Nat}

theorem trialEdge_eq_ok (e : trialEdge st child = .ok st') :
    ∃ c, st.1.cellAt child = .ok c ∧ c.refCount ≠ 0 ∧
      (((c.refCount = 1 ∧ c.mark = true) ∧ st' =
        ((st.1.setRefCount child (c.refCount - 1)).setPlace child c.place .candidate, child :: st.2)) ∨
      (¬(c.refCount = 1 ∧ c.mark = true) ∧ st' = (st.1.setRefCount child (c.refCount - 1), st.2))) := by
  obtain ⟨h, found⟩ := st
  unfold trialEdge at e
  dsimp only at e
  split at e
  · cases e
  · rename_i c hc
    split at e
    · cases e
    · rename_i hpos
      refine ⟨c, hc, hpos, ?_⟩
      split at e
      · rename_i hlast
        cases e
        exact .inl ⟨hlast, rfl⟩
      · rename_i hmore
        cases e
        exact .inr ⟨hmore, rfl⟩

theorem rescueEdge_eq_ok (e : rescueEdge st child = .ok st') :
    ∃ c, st.1.cellAt child = .ok c ∧
      ((c.refCount = 0 ∧ st' =
        ((st.1.modifyCell child fun c => { c with refCount := 1, mark := false }).joinLive child c.place,
          child :: st.2)) ∨
      (c.refCount ≠ 0 ∧ st' = (st.1.setRefCount child (c.refCount + 1), st.2))) := by
  obtain ⟨h, saved⟩ := st
  unfold rescueEdge at e
  dsimp only at e
  split at e
  · cases e
  · rename_i c hc
    refine ⟨c, hc, ?_⟩
    split at e
    · rename_i hzero
      cases e
      exact .inl ⟨hzero, rfl⟩
    · rename_i hpos
      cases e
      exact .inr ⟨hpos, rfl⟩

theorem rescueCell_eq_ok (e : rescueCell st i = .ok st') :
    ∃ children, (st.1.modifyCell i fun c => { c with mark := false }).childrenAt i = .ok children ∧
      children.foldlM rescueEdge (st.1.modifyCell i fun c => { c with mark := false }, st.2) = .ok st' := by
  obtain ⟨h, saved⟩ := st
  unfold rescueCell at e
  dsimp only at e
  split at e
  · rename_i children hchildren
    exact ⟨children, hchildren, e⟩
  · cases e

end

/-! ## Why rescue ends -/

/-- Number of cells whose count is used up. -/
def zeroCounts (h : Heap) : Nat := slotTotal (fun c => if c.refCount = 0 then 1 else 0) h.slots

theorem zeroCounts_modifyCell {h : Heap} {i : Nat} {c : Cell} (hc : h.cellAt i = .ok c)
    (g : Cell → Cell) :
    (h.modifyCell i g).zeroCounts + (if c.refCount = 0 then 1 else 0) =
      h.zeroCounts + (if (g c).refCount = 0 then 1 else 0) := by
  obtain ⟨s, hs, hsc⟩ := cellAt_eq_ok hc
  exact slotTotal_modifyCell (fun c => if c.refCount = 0 then 1 else 0) g hs hsc

/-- Changing a cell to another with as many references keeps the number of used-up counts. -/
theorem zeroCounts_modifyCell_same (h : Heap) (i : Nat) (g : Cell → Cell)
    (hg : ∀ c, (g c).refCount = c.refCount) : (h.modifyCell i g).zeroCounts = h.zeroCounts := by
  cases hc : h.cellAt i with
  | ok c =>
    have := zeroCounts_modifyCell hc g
    rw [hg] at this
    omega
  | error e =>
    have hnone : h.slots[i]? = none ∨ ∃ s, h.slots[i]? = some s ∧ s.cell = none := by
      unfold cellAt at hc
      split at hc
      · rename_i hs
        exact .inl hs
      · rename_i s hs
        split at hc
        · rename_i hn
          exact .inr ⟨s, hs, hn⟩
        · cases hc
    rcases hnone with hs | ⟨s, hs, hn⟩
    · have : h.slots.modify i (fun s => { s with cell := s.cell.map g }) = h.slots := by
        apply Array.ext_getElem?
        intro j
        rw [Array.getElem?_modify]
        split
        · rename_i hij
          subst hij
          simp [hs]
        · rfl
      simp [zeroCounts, modifyCell, this]
    · have := slotTotal_modify (fun c => if c.refCount = 0 then 1 else 0)
        (fun s => { s with cell := s.cell.map g }) hs
      simp only [slotWeight, hn, Option.map_none] at this
      simpa [zeroCounts, modifyCell] using this

theorem zeroCounts_joinLive (h : Heap) (i : Nat) (old : Place) :
    (h.joinLive i old).zeroCounts = h.zeroCounts :=
  zeroCounts_modifyCell_same h i (fun c => { c with place := .live h.nextTicket }) fun _ => rfl

theorem zeroCounts_rescueEdge {st st' : Heap × List Nat} {child : Nat}
    (hst : rescueEdge st child = .ok st') :
    st'.1.zeroCounts + st'.2.length = st.1.zeroCounts + st.2.length := by
  obtain ⟨c, hc, ⟨hzero, rfl⟩ | ⟨hpos, rfl⟩⟩ := rescueEdge_eq_ok hst
  · have := zeroCounts_modifyCell hc fun c => { c with refCount := 1, mark := false }
    simp only [zeroCounts_joinLive, List.length_cons]
    simp [hzero] at this
    omega
  · have := zeroCounts_modifyCell hc fun d => { d with refCount := c.refCount + 1 }
    simp [hpos] at this
    simpa [setRefCount] using this

theorem zeroCounts_rescueEdges {children : List Nat} {st st' : Heap × List Nat}
    (hst : children.foldlM rescueEdge st = .ok st') :
    st'.1.zeroCounts + st'.2.length = st.1.zeroCounts + st.2.length := by
  induction children generalizing st with
  | nil =>
    cases hst
    rfl
  | cons child rest ih =>
    rw [List.foldlM_cons] at hst
    cases hc : rescueEdge st child with
    | error e =>
      rw [hc] at hst
      cases hst
    | ok st1 =>
      rw [hc] at hst
      rw [ih hst, zeroCounts_rescueEdge hc]

theorem zeroCounts_rescueCell {st st' : Heap × List Nat} {i : Nat}
    (hst : rescueCell st i = .ok st') :
    st'.1.zeroCounts + st'.2.length = st.1.zeroCounts + st.2.length := by
  obtain ⟨children, _, hst⟩ := rescueCell_eq_ok hst
  have := zeroCounts_rescueEdges hst
  rwa [zeroCounts_modifyCell_same st.1 i (fun c => { c with mark := false }) fun _ => rfl] at this

theorem zeroCounts_rescueCells {cells : List Nat} {st st' : Heap × List Nat}
    (hst : cells.foldlM rescueCell st = .ok st') :
    st'.1.zeroCounts + st'.2.length = st.1.zeroCounts + st.2.length := by
  induction cells generalizing st with
  | nil =>
    cases hst
    rfl
  | cons i rest ih =>
    rw [List.foldlM_cons] at hst
    cases hc : rescueCell st i with
    | error e =>
      rw [hc] at hst
      cases hst
    | ok st1 =>
      rw [hc] at hst
      rw [ih hst, zeroCounts_rescueCell hc]

/-- Puts the edges of the given cells back, then those of the cells this rescued, and so on.  It ends
because every rescue leaves fewer used-up counts. -/
def rescue (h : Heap) (cells : List Nat) : Except Fault Heap :=
  match _hst : cells.foldlM rescueCell (h, []) with
  | .error e => .error e
  | .ok (h', []) => .ok h'
  | .ok (h', i :: saved) => h'.rescue (i :: saved).reverse
termination_by h.zeroCounts
decreasing_by
  have := zeroCounts_rescueCells _hst
  simp only [List.length_cons, List.length_nil] at this
  omega

/-! ## Restoring -/

/-- Puts one edge of garbage back into the count of its end. -/
def restoreEdge (h : Heap) (child : Nat) : Except Fault Heap :=
  match h.cellAt child with
  | .ok c => .ok (h.setRefCount child (c.refCount + 1))
  | .error e => .error e

/-- Puts the edges of one garbage cell back. -/
def restoreCell (h : Heap) (i : Nat) : Except Fault Heap := do
  let children ← h.childrenAt i
  children.foldlM restoreEdge h

theorem restoreEdge_eq_ok {h h' : Heap} {child : Nat} (e : h.restoreEdge child = .ok h') :
    ∃ c, h.cellAt child = .ok c ∧ h' = h.setRefCount child (c.refCount + 1) := by
  unfold restoreEdge at e
  split at e
  · rename_i c hc
    cases e
    exact ⟨c, hc, rfl⟩
  · cases e

/-! ## Removal -/

/-- Finalizes one garbage cell, or parks it if its owners free it.  A cell that its owners freed
already is passed over. -/
def removeCell (h : Heap) (i : Nat) : Except Fault Heap :=
  match h.placeAt? i with
  | some .candidate =>
    match h.cellAt i with
    | .error e => .error e
    | .ok c =>
      if c.kind.isQueued then
        match h.run [.finalize i] with
        | .ok h => .ok { h with collected := h.collected + 1 }
        | .error e => .error e
      else .ok (h.setPlace i c.place .parked)
  | _ => .ok h

/-- Frees a cell that is still parked.  Only finalized cells may be left by then. -/
def sweepCell (h : Heap) (i : Nat) : Except Fault Heap :=
  match h.placeAt? i with
  | some .parked =>
    match h.cellAt i with
    | .error e => .error e
    | .ok c => if c.kind.isQueued then h.free i else .error .survivor
  | _ => .ok h

theorem removeCell_eq_ok {h h' : Heap} {i : Nat} (e : h.removeCell i = .ok h') :
    (h.placeAt? i ≠ some .candidate ∧ h' = h) ∨
    (h.placeAt? i = some .candidate ∧ ∃ c, h.cellAt i = .ok c ∧
      ((c.kind.isQueued = true ∧ ∃ h₁, h.run [.finalize i] = .ok h₁ ∧
        h' = { h₁ with collected := h₁.collected + 1 }) ∨
      (c.kind.isQueued = false ∧ h' = h.setPlace i c.place .parked))) := by
  unfold removeCell at e
  split at e
  · rename_i hplace
    refine .inr ⟨hplace, ?_⟩
    split at e
    · cases e
    · rename_i c hc
      refine ⟨c, hc, ?_⟩
      split at e
      · rename_i hkind
        split at e
        · rename_i h₁ hrun
          cases e
          exact .inl ⟨hkind, h₁, hrun, rfl⟩
        · cases e
      · rename_i hkind
        cases e
        exact .inr ⟨eq_false_of_ne_true hkind, rfl⟩
  · rename_i hplace
    cases e
    exact .inl ⟨hplace, rfl⟩

theorem sweepCell_eq_ok {h h' : Heap} {i : Nat} (e : h.sweepCell i = .ok h') :
    (h.placeAt? i ≠ some .parked ∧ h' = h) ∨
    (h.placeAt? i = some .parked ∧ ∃ c, h.cellAt i = .ok c ∧ c.kind.isQueued = true ∧
      h.free i = .ok h') := by
  unfold sweepCell at e
  split at e
  · rename_i hplace
    refine .inr ⟨hplace, ?_⟩
    split at e
    · cases e
    · rename_i c hc
      split at e
      · rename_i hkind
        exact ⟨c, hc, hkind, e⟩
      · cases e
  · rename_i hplace
    cases e
    exact .inl ⟨hplace, rfl⟩

/-- Frees the garbage. -/
def removeGarbage (h : Heap) (garbage : List Nat) : Except Fault Heap := do
  let h ← garbage.foldlM removeCell { h with phase := .removingCycles }
  garbage.foldlM sweepCell { h with phase := .idle }

/-- The cells of a list that are still candidates. -/
def stillCandidates (h : Heap) (cells : List Nat) : List Nat :=
  cells.filter fun i => h.placeAt? i == some .candidate

/-- One collection of an idle heap without dropped roots. -/
def collectCycles (h : Heap) : Except Fault Heap := do
  let (h, found) ← h.trialDeletion
  let h ← h.rescue h.liveOrder
  let garbage := h.stillCandidates found
  let h ← garbage.foldlM restoreCell h
  let h ← h.removeGarbage garbage
  return { h with collections := h.collections + 1 }

end Heap

/-! ## Operations -/

namespace HeapM

/-- Releases the references of the roots dropped so far. -/
def flushRoots : HeapM Unit := do
  let handles := (← get).dropped.toList
  modify fun h => { h with dropped := .empty }
  releaseAll handles

/-- Runs the collector, unless the heap is freeing already.  Gives the number of objects and
functions it finalized. -/
def collect : HeapM Nat := do
  if (← get).phase ≠ .idle then return 0
  flushRoots
  let before := (← get).collected
  change (·.collectCycles)
  return (← get).collected - before

end HeapM

end ObjectMemory
