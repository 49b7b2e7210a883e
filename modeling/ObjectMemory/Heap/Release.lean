import ObjectMemory.Heap.Basic
set_option autoImplicit false

/-!
# Giving up references

Releasing the last reference to a cell frees it, which gives up the references its body owns.  Cells
of the queued kinds wait in a queue that is drained in order, so that a long chain is freed without
nesting; cells of the other kinds are freed at once.  While a collection removes cycles nothing is
queued: the collector owns all garbage.

The work is a list of tasks.  Each task is one step that may put tasks of its own in front of the
rest, and `Heap.run` takes steps until none is left.  It ends because every step lowers `Heap.work`:
a release lowers a count, a finalization consumes a body, and the remaining steps consume a task.
-/

namespace ObjectMemory

/-- A step of freeing that is still to be taken. -/
inductive Task where
  /-- give up one counted reference -/
  | release (r : Handle)
  /-- give up what the body of a cell of a queued kind owns -/
  | finalize (index : Nat)
  /-- give back the slot of a finalized cell -/
  | dispose (index : Nat)
  /-- finalize the cells that wait in the queue -/
  | drain
  deriving DecidableEq, Repr, Inhabited

namespace Heap

/-! ## Steps -/

/-- Makes the slot of a cell vacant and advances its generation. -/
def free (h : Heap) (i : Nat) : Except Fault Heap :=
  match h.cellAt i with
  | .error e => .error e
  | .ok c =>
    if h.used < c.size ∨ h.liveCells = 0 then .error .arithmetic
    else .ok
      { h with
        slots := h.slots.modify i fun s => ⟨s.frees + 1, none⟩
        freeSlots := i :: h.freeSlots
        used := h.used - c.size
        liveCells := h.liveCells - 1
        lists := h.lists.leave i c.place.list? }

/-- Takes a shape that is about to be freed out of the table of shared shapes. -/
def forgetShape (h : Heap) (r : Handle) (s : Shape) : Except Fault Heap :=
  if s.isHashed then
    match h.table.erase? s.hash r with
    | some t => .ok { h with table := t }
    | none => .error (.shapeMissing r)
  else .ok h

/-- Takes a variable that has been freed out of the frame it is attached to. -/
def forgetVariable (h : Heap) (r : Handle) (v : Variable) : Except Fault Heap :=
  match v with
  | .detached _ => .ok h
  | .attached id _ =>
    match h.frames.get? id with
    | some _ => .ok { h with frames := h.frames.modify id.index (·.close r) }
    | none => .error (.frameDead id)

/-- Frees a cell of a kind that does not wait in the queue; the references it owns are the caller's
to give up. -/
def freeNow (h : Heap) (r : Handle) (body : Body) : Except Fault Heap :=
  match body with
  | .shape s =>
    match h.forgetShape r s with
    | .ok h => h.free r.index
    | .error e => .error e
  | .captured v =>
    match h.free r.index with
    | .ok h => h.forgetVariable r v
    | .error e => .error e
  | .suspension _ | .realm _ => h.free r.index
  | .object _ | .bytecode _ | .zombie _ => .error (.notFreeable r)

/-- Sets the number of references to the cell in a slot. -/
def setRefCount (h : Heap) (i n : Nat) : Heap := h.modifyCell i fun c => { c with refCount := n }

/-- Puts a cell without references behind those that wait. -/
def enqueue (h : Heap) (i : Nat) (old : Place) : Heap :=
  let h := h.setPlace i old .queued
  { h with zeroRefs := h.zeroRefs.push i }

/-- What happens to a cell of a queued kind that lost its last reference. -/
def dropQueued (h : Heap) (i : Nat) (old : Place) (rest : List Task) : Heap × List Task :=
  match h.phase with
  | .removingCycles => (h, rest)
  | .draining => (h.enqueue i old, rest)
  | .idle => ({ h.enqueue i old with phase := .draining }, .drain :: rest)

/-- One reference less. -/
def stepRelease (h : Heap) (r : Handle) (rest : List Task) : Except Fault (Heap × List Task) :=
  match h.cell? r with
  | none => .error (.staleRelease r)
  | some c =>
    if c.refCount = 0 then .error (.countUnderflow r)
    else
      let h := h.setRefCount r.index (c.refCount - 1)
      if c.refCount ≠ 1 then .ok (h, rest)
      else if c.kind.isQueued then .ok (h.dropQueued r.index c.place rest)
      else
        match h.freeNow r c.body with
        | .ok h => .ok (h, c.body.refs.map .release ++ rest)
        | .error e => .error e

/-- Takes the body of a cell of a queued kind. -/
def stepFinalize (h : Heap) (i : Nat) (rest : List Task) : Except Fault (Heap × List Task) :=
  match h.cellAt i with
  | .error e => .error e
  | .ok c =>
    match c.body with
    | .zombie _ => .error (.finalizedTwice i)
    | body =>
      if body.kind.isQueued then
        .ok (h.modifyBody i fun _ => .zombie body.kind,
          body.refs.map .release ++ .dispose i :: rest)
      else .error (.notFinalizable i)

/-- Frees the slot of a finalized cell, or parks the cell if other garbage still refers to it. -/
def stepDispose (h : Heap) (i : Nat) (rest : List Task) : Except Fault (Heap × List Task) :=
  match h.cellAt i with
  | .error e => .error e
  | .ok c =>
    if h.phase = .removingCycles ∧ c.refCount ≠ 0 then .ok (h.setPlace i c.place .parked, rest)
    else
      match h.free i with
      | .ok h => .ok (h, rest)
      | .error e => .error e

/-- Turns to the next cell that waits, or goes back to idle. -/
def stepDrain (h : Heap) (rest : List Task) : Except Fault (Heap × List Task) :=
  match h.zeroRefs.pop? with
  | none => .ok ({ h with phase := .idle }, rest)
  | some (i, q) =>
    match h.cellAt i with
    | .error e => .error e
    | .ok c =>
      if c.refCount ≠ 0 then .error .assertion
      else .ok ({ h with zeroRefs := q }, .finalize i :: .drain :: rest)

/-- Takes the step of one task in front of the rest. -/
def step (h : Heap) (task : Task) (rest : List Task) : Except Fault (Heap × List Task) :=
  match task with
  | .release r => h.stepRelease r rest
  | .finalize i => h.stepFinalize i rest
  | .dispose i => h.stepDispose i rest
  | .drain => h.stepDrain rest

/-! ## What a step does -/

section

variable {h h' : Heap} {r : Handle} {i : Nat} {rest tasks : List Task}

theorem forgetShape_cases {s : Shape} (e : h.forgetShape r s = .ok h') :
    ∃ table, h' = { h with table := table } := by
  unfold forgetShape at e
  split at e
  · split at e
    · cases e
      exact ⟨_, rfl⟩
    · cases e
  · cases e
    exact ⟨h.table, rfl⟩

theorem forgetVariable_cases {v : Variable} (e : h.forgetVariable r v = .ok h') :
    h' = h ∨ ∃ id : FrameId, h' = { h with frames := h.frames.modify id.index (·.close r) } := by
  unfold forgetVariable at e
  split at e
  · cases e
    exact .inl rfl
  · split at e
    · cases e
      exact .inr ⟨_, rfl⟩
    · cases e

/-- A shape leaves the table before its slot is given back, and a variable its frame after that. -/
theorem freeNow_cases {body : Body} (e : h.freeNow r body = .ok h') : (∀ k, body ≠ .zombie k) ∧
    ((∃ table, ({ h with table := table } : Heap).free r.index = .ok h') ∨
      ∃ h₁ v, h.free r.index = .ok h₁ ∧ h₁.forgetVariable r v = .ok h') := by
  unfold freeNow at e
  split at e
  · split at e
    · rename_i h₁ he
      obtain ⟨table, rfl⟩ := forgetShape_cases he
      exact ⟨nofun, .inl ⟨table, e⟩⟩
    · cases e
  · split at e
    · rename_i h₁ he
      exact ⟨nofun, .inr ⟨h₁, _, he, e⟩⟩
    · cases e
  · exact ⟨nofun, .inl ⟨h.table, e⟩⟩
  · exact ⟨nofun, .inl ⟨h.table, e⟩⟩
  all_goals cases e

/-- The count goes down.  With the last reference a cell of a queued kind is dropped, and any other cell
is freed. -/
theorem stepRelease_eq_ok (e : h.stepRelease r rest = .ok (h', tasks)) :
    ∃ c, h.cell? r = some c ∧ c.refCount ≠ 0 ∧
      ((c.refCount ≠ 1 ∧ h' = h.setRefCount r.index (c.refCount - 1) ∧ tasks = rest) ∨
      (c.refCount = 1 ∧ c.kind.isQueued = true ∧
        (h.setRefCount r.index (c.refCount - 1)).dropQueued r.index c.place rest = (h', tasks)) ∨
      (c.refCount = 1 ∧ c.kind.isQueued = false ∧
        (h.setRefCount r.index (c.refCount - 1)).freeNow r c.body = .ok h' ∧
        tasks = c.body.refs.map .release ++ rest)) := by
  unfold stepRelease at e
  split at e
  · cases e
  · rename_i c hc
    split at e
    · cases e
    · rename_i hpos
      refine ⟨c, hc, hpos, ?_⟩
      dsimp only at e
      split at e
      · rename_i hmore
        cases e
        exact .inl ⟨hmore, rfl, rfl⟩
      · rename_i hlast
        have hone : c.refCount = 1 := Decidable.not_not.mp hlast
        split at e
        · rename_i hkind
          exact .inr (.inl ⟨hone, hkind, Except.ok.inj e⟩)
        · rename_i hkind
          split at e
          · rename_i h₁ he
            cases e
            exact .inr (.inr ⟨hone, eq_false_of_ne_true hkind, he, rfl⟩)
          · cases e

/-- The body is taken, and what it owned is given up before the cell is disposed of. -/
theorem stepFinalize_eq_ok (e : h.stepFinalize i rest = .ok (h', tasks)) :
    ∃ c, h.cellAt i = .ok c ∧ (∀ k, c.body ≠ .zombie k) ∧ c.kind.isQueued = true ∧
      h' = (h.modifyBody i fun _ => .zombie c.kind) ∧
      tasks = c.body.refs.map .release ++ .dispose i :: rest := by
  unfold stepFinalize at e
  split at e
  · cases e
  · rename_i c hc
    split at e
    · cases e
    · rename_i hbody
      split at e
      · rename_i hkind
        cases e
        exact ⟨c, hc, hbody, hkind, rfl, rfl⟩
      · cases e

theorem stepDispose_eq_ok (e : h.stepDispose i rest = .ok (h', tasks)) :
    ∃ c, h.cellAt i = .ok c ∧ tasks = rest ∧
      (((h.phase = .removingCycles ∧ c.refCount ≠ 0) ∧ h' = h.setPlace i c.place .parked) ∨
      (¬(h.phase = .removingCycles ∧ c.refCount ≠ 0) ∧ h.free i = .ok h')) := by
  unfold stepDispose at e
  split at e
  · cases e
  · rename_i c hc
    refine ⟨c, hc, ?_⟩
    split at e
    · rename_i hpark
      cases e
      exact ⟨rfl, .inl ⟨hpark, rfl⟩⟩
    · rename_i hpark
      split at e
      · rename_i h₁ he
        cases e
        exact ⟨rfl, .inr ⟨hpark, he⟩⟩
      · cases e

theorem stepDrain_eq_ok (e : h.stepDrain rest = .ok (h', tasks)) :
    (h.zeroRefs.pop? = none ∧ h' = { h with phase := .idle } ∧ tasks = rest) ∨
    ∃ i q c, h.zeroRefs.pop? = some (i, q) ∧ h.cellAt i = .ok c ∧ c.refCount = 0 ∧
      h' = { h with zeroRefs := q } ∧ tasks = .finalize i :: .drain :: rest := by
  unfold stepDrain at e
  split at e
  · rename_i hnone
    cases e
    exact .inl ⟨hnone, rfl, rfl⟩
  · rename_i i q hpop
    split at e
    · cases e
    · rename_i c hc
      split at e
      · cases e
      · rename_i hzero
        cases e
        exact .inr ⟨i, q, c, hpop, hc, Decidable.not_not.mp hzero, rfl, rfl⟩

end

/-! ## Why freeing ends -/

/-- The part of a cell in the work that is left. -/
def cellWork (c : Cell) : Nat := 3 * c.refCount + c.body.weight

/-- A bound on the steps that are left. -/
def work (h : Heap) (tasks : List Task) : Nat :=
  slotTotal cellWork h.slots + 2 * h.zeroRefs.toList.length + tasks.length

theorem free_eq_ok {h h' : Heap} {i : Nat} (hf : h.free i = .ok h') :
    h'.slots = (h.slots.modify i fun s => ⟨s.frees + 1, none⟩) ∧
      h'.zeroRefs = h.zeroRefs := by
  unfold free at hf
  split at hf
  · cases hf
  · split at hf
    · cases hf
    · cases hf
      exact ⟨rfl, rfl⟩

theorem forgetVariable_eq_ok {h h' : Heap} {r : Handle} {v : Variable}
    (hf : h.forgetVariable r v = .ok h') : h'.slots = h.slots ∧ h'.zeroRefs = h.zeroRefs := by
  obtain rfl | ⟨id, rfl⟩ := forgetVariable_cases hf
  · exact ⟨rfl, rfl⟩
  · exact ⟨rfl, rfl⟩

theorem freeNow_eq_ok {h h' : Heap} {r : Handle} {body : Body} (hf : h.freeNow r body = .ok h') :
    h'.slots = (h.slots.modify r.index fun s => ⟨s.frees + 1, none⟩) ∧
      h'.zeroRefs = h.zeroRefs := by
  obtain ⟨-, ⟨table, hfree⟩ | ⟨h₁, v, hfree, hforget⟩⟩ := freeNow_cases hf
  · obtain ⟨e1, e2⟩ := free_eq_ok hfree
    exact ⟨e1, e2⟩
  · obtain ⟨e1, e2⟩ := free_eq_ok hfree
    obtain ⟨e3, e4⟩ := forgetVariable_eq_ok hforget
    exact ⟨by rw [e3, e1], by rw [e4, e2]⟩

/-- A vacated slot takes its cell out of a total. -/
theorem slotTotal_vacate (f : Cell → Nat) {slots : Array Slot} {i : Nat} {s : Slot} {c : Cell}
    (hs : slots[i]? = some s) (hc : s.cell = some c) :
    slotTotal f (slots.modify i fun s => ⟨s.frees + 1, none⟩) + f c = slotTotal f slots := by
  have := slotTotal_modify f (fun s => ⟨s.frees + 1, none⟩) hs
  simpa [slotWeight, hc] using this

/-- A cell's place has no part in the work. -/
theorem slotTotal_setPlace {h : Heap} {i : Nat} {s : Slot} {c : Cell} (old new : Place)
    (hs : h.slots[i]? = some s) (hc : s.cell = some c) :
    slotTotal cellWork (h.setPlace i old new).slots = slotTotal cellWork h.slots := by
  have := slotTotal_modifyCell cellWork (fun c => { c with place := new }) hs hc
  have e : (h.setPlace i old new).slots =
      (h.modifyCell i fun c => { c with place := new }).slots := rfl
  simp only [cellWork] at this e ⊢
  rw [e]
  omega

theorem work_dropQueued (h : Heap) (i : Nat) (old : Place) (rest : List Task) {s : Slot} {c : Cell}
    (hs : h.slots[i]? = some s) (hc : s.cell = some c) :
    (h.dropQueued i old rest).1.work (h.dropQueued i old rest).2 ≤ h.work rest + 3 := by
  have key := slotTotal_setPlace old .queued hs hc
  have hz : (h.setPlace i old .queued).zeroRefs = h.zeroRefs := rfl
  unfold dropQueued
  split
  · exact Nat.le_add_right _ _
  · simp only [work, enqueue, key, hz, Queue.toList_push, List.length_append, List.length_cons,
      List.length_nil]
    omega
  · simp only [work, enqueue, key, hz, Queue.toList_push, List.length_append, List.length_cons,
      List.length_nil]
    omega

theorem work_stepRelease {h h' : Heap} {r : Handle} {rest tasks : List Task}
    (hstep : h.stepRelease r rest = .ok (h', tasks)) :
    h'.work tasks < h.work (.release r :: rest) := by
  obtain ⟨c, hc, hpos, hcases⟩ := stepRelease_eq_ok hstep
  obtain ⟨s, hs, hsc⟩ := cell?_eq_some hc
  have hset := slotTotal_modifyCell cellWork
    (fun d => { d with refCount := c.refCount - 1 }) hs hsc
  have hs' : (h.setRefCount r.index (c.refCount - 1)).slots[r.index]? =
      some { s with cell := some { c with refCount := c.refCount - 1 } } := by
    simp [setRefCount, modifyCell, Array.getElem?_modify, hs, hsc]
  have hset' : slotTotal cellWork (h.setRefCount r.index (c.refCount - 1)).slots + 3 =
      slotTotal cellWork h.slots := by
    have e : (h.setRefCount r.index (c.refCount - 1)).slots =
      (h.modifyCell r.index fun d => { d with refCount := c.refCount - 1 }).slots := rfl
    rw [e]
    simp only [cellWork] at hset ⊢
    omega
  have hzero : (h.setRefCount r.index (c.refCount - 1)).zeroRefs = h.zeroRefs := rfl
  generalize h.setRefCount r.index (c.refCount - 1) = h1 at hcases hs' hset' hzero
  obtain ⟨_, rfl, rfl⟩ | ⟨_, _, hdrop⟩ | ⟨_, _, hfree, rfl⟩ := hcases
  · simp only [work, hzero, List.length_cons]
    omega
  · have hle := work_dropQueued h1 r.index c.place rest hs' rfl
    rw [hdrop] at hle
    simp only [work, hzero, List.length_cons] at hle ⊢
    omega
  · obtain ⟨e1, e2⟩ := freeNow_eq_ok hfree
    have hvac := slotTotal_vacate cellWork hs' rfl
    have hw : c.body.refs.length ≤ c.body.weight := by
      cases c.body <;> simp [Body.weight, Body.refs]
    simp only [work, e1, e2, hzero, List.length_append, List.length_map, List.length_cons]
    simp only [cellWork] at hvac hset' ⊢
    omega

theorem work_stepFinalize {h h' : Heap} {i : Nat} {rest tasks : List Task}
    (hstep : h.stepFinalize i rest = .ok (h', tasks)) :
    h'.work tasks < h.work (.finalize i :: rest) := by
  obtain ⟨c, hc, hb, _, rfl, rfl⟩ := stepFinalize_eq_ok hstep
  obtain ⟨s, hs, hsc⟩ := cellAt_eq_ok hc
  have hset := slotTotal_modifyCell cellWork (fun d => { d with body := .zombie c.kind }) hs hsc
  have hw : c.body.weight = c.body.refs.length + 1 := by
    cases hcb : c.body with
    | zombie k => exact absurd hcb (hb k)
    | _ => rfl
  have e : (h.modifyBody i fun _ => .zombie c.kind).slots =
    (h.modifyCell i fun d => { d with body := .zombie c.kind }).slots := rfl
  have hz : (h.modifyBody i fun _ => .zombie c.kind).zeroRefs = h.zeroRefs := rfl
  simp only [work, hz, e, List.length_append, List.length_map, List.length_cons]
  simp only [cellWork, Body.weight] at hset hw ⊢
  omega

theorem work_stepDispose {h h' : Heap} {i : Nat} {rest tasks : List Task}
    (hstep : h.stepDispose i rest = .ok (h', tasks)) :
    h'.work tasks < h.work (.dispose i :: rest) := by
  obtain ⟨c, hc, rfl, ⟨_, rfl⟩ | ⟨_, hfree⟩⟩ := stepDispose_eq_ok hstep
  · obtain ⟨s, hs, hsc⟩ := cellAt_eq_ok hc
    have key := slotTotal_setPlace c.place .parked hs hsc
    have hz : (h.setPlace i c.place .parked).zeroRefs = h.zeroRefs := rfl
    simp only [work, hz, key, List.length_cons]
    omega
  · obtain ⟨s, hs, hsc⟩ := cellAt_eq_ok hc
    obtain ⟨e1, e2⟩ := free_eq_ok hfree
    have := slotTotal_vacate cellWork hs hsc
    simp only [work, e1, e2, List.length_cons]
    omega

theorem work_stepDrain {h h' : Heap} {rest tasks : List Task}
    (hstep : h.stepDrain rest = .ok (h', tasks)) :
    h'.work tasks < h.work (.drain :: rest) := by
  obtain ⟨_, rfl, rfl⟩ | ⟨i, q, c, hq, _, _, rfl, rfl⟩ := stepDrain_eq_ok hstep
  · simp only [work, List.length_cons]
    omega
  · have hlen := congrArg List.length (Queue.pop?_eq_some hq)
    simp only [work, List.length_cons] at hlen ⊢
    omega

/-- Every step lowers the work that is left. -/
theorem work_step {h h' : Heap} {task : Task} {rest tasks : List Task}
    (hstep : h.step task rest = .ok (h', tasks)) : h'.work tasks < h.work (task :: rest) := by
  cases task with
  | release r => exact work_stepRelease hstep
  | finalize i => exact work_stepFinalize hstep
  | dispose i => exact work_stepDispose hstep
  | drain => exact work_stepDrain hstep

/-! ## Runs -/

/-- Takes steps until no task is left. -/
def run (h : Heap) (tasks : List Task) : Except Fault Heap :=
  match tasks with
  | [] => .ok h
  | task :: rest =>
    match _hstep : h.step task rest with
    | .error e => .error e
    | .ok (h', tasks') => h'.run tasks'
termination_by h.work tasks
decreasing_by exact work_step _hstep

end Heap

/-! ## Operations -/

namespace HeapM

/-- One more counted reference to a cell. -/
def retain (r : Handle) : HeapM Unit := fun h =>
  match h.cell? r with
  | some _ => .ok ((), h.modifyCell r.index fun c => { c with refCount := c.refCount + 1 })
  | none => .error (.staleRetain r)

/-- One more counted reference to a cell, if there is one. -/
def retainOption : Option Handle → HeapM Unit
  | some r => retain r
  | none => pure ()

/-- One counted reference less.  The cell is freed with the last one. -/
def release (r : Handle) : HeapM Unit := change (·.run [.release r])

/-- Gives up references one after the other. -/
def releaseAll : List Handle → HeapM Unit
  | [] => pure ()
  | r :: rest => do
    release r
    releaseAll rest

/-- A copy of a value, with a counted reference of its own. -/
def dupValue (v : Value) : HeapM Value := do
  retainOption v.ref?
  return v

/-- Gives up the counted reference of a value. -/
def freeValue (v : Value) : HeapM Unit := releaseAll v.ref?.toList

/-- Gives up the counted references of values, in order. -/
def freeValues (vs : Array Value) : HeapM Unit := releaseAll (vs.toList.filterMap Value.ref?)

end HeapM

end ObjectMemory
