import ObjectMemory.Heap.Objects
set_option autoImplicit false

/-!
# Frames and captured variables

A closure captures a local through a variable cell.  While the frame runs, the variable is attached:
it names a local of the frame and is on no list.  When the frame is popped, each of its open variables
takes over the value of its local and joins the live list.
-/

namespace ObjectMemory

namespace Heap

/-- The frame has not been popped. -/
def isFrameLive (h : Heap) (id : FrameId) : Bool := (h.frames.get? id).isSome

/-- What is asked of the allocator to enter a frame: nothing if a place is free. -/
def frameRequests (h : Heap) : List Request :=
  if h.frames.free.isEmpty then [.frames (h.frames.slots.size + 1)] else []

/-- The handle names a variable attached to local `slot` of its frame. -/
def isAttachedTo (h : Heap) (slot : Nat) (r : Handle) : Bool :=
  match h.captured? r with
  | some (.attached _ s) => s == slot
  | _ => false

/-- Moves the value of its local into an open variable of a frame that is popped. -/
def detachAt (h : Heap) (id : FrameId) (locals : Array Value) (r : Handle) :
    Except Fault (Heap × Array Value) :=
  match h.cell? r with
  | none => .error (.openVariableStale r id)
  | some c =>
    match c.body with
    | .captured (.detached _) => .error (.openVariableDetached r id)
    | .captured (.attached _ slot) =>
      match locals[slot]? with
      | none => .error .outOfRange
      | some v =>
        .ok (h.modifyBody r.index fun _ => .captured (.detached v),
          locals.setIfInBounds slot .undefined)
    | _ => .ok (h, locals)

/-- Detaches an open variable and puts it on the live list. -/
def detach (id : FrameId) (st : Heap × Array Value) (r : Handle) :
    Except Fault (Heap × Array Value) := do
  let (h, locals) ← st.1.detachAt id st.2 r
  let c ← h.cellAt r.index
  if c.place ≠ .unlisted then throw (.alreadyListed r.index)
  return (h.joinLive r.index c.place, locals)

end Heap

namespace HeapM

/-- A counted copy of a local. -/
def getLocal (id : FrameId) (slot : Nat) : HeapM (Option Value) := do
  match ((← get).frames.get? id).bind fun f => f.locals[slot]? with
  | none => return none
  | some v => return some (← dupValue v)

/-- Pops a frame: its open variables are detached, the locals nobody captured are given up. -/
def popFrame (id : FrameId) : HeapM Unit := do
  match (← get).frames.get? id with
  | none => fault (.framePoppedTwice id)
  | some f =>
    modify fun h => { h with frames := h.frames.pop id.index }
    let detachAll : HeapM (Array Value) := fun h =>
      match f.openVariables.toList.foldlM (Heap.detach id) (h, f.locals) with
      | .ok (h, locals) => .ok (locals, h)
      | .error e => .error e
    freeValues (← detachAll)
    uncharge f.size

end HeapM

namespace AllocM

open HeapM

/-- Puts a frame on the account and sets a place apart for it. -/
def reserveFrame (size : Nat) : AllocM Unit := do
  charge size
  ask (← get).frameRequests (uncharge size) (.ofReserve 1 Size.frameSlot)

/-- Enters a frame with its locals. -/
def pushFrame (locals : Array Value) : AllocM FrameId := do
  let size := Size.frameWithLocals locals.size
  try reserveFrame size
  catch e =>
    freeValues locals
    throw e
  let push : HeapM FrameId := fun h =>
    let (id, frames) := h.frames.push ⟨locals, #[], size⟩
    .ok (id, { h with frames := frames })
  push

/-- A captured variable for a local.  Captures of one local share one variable; the caller owns one
reference to it. -/
def captureVariable (id : FrameId) (slot : Nat) : AllocM Handle := do
  let h ← get
  match h.frames.get? id with
  | none => fault (.captureFromDead id)
  | some f =>
    if slot < f.locals.size then
      match f.openVariables.find? (h.isAttachedTo slot) with
      | some r =>
        retain r
        return r
      | none =>
        let p ← reserve Size.cell (fun _ => [.openVariable id.index]) (.ofReserve 1 Size.handle)
        if !(← get).isFrameLive id then fault (.frameDead id)
        let r ← install p (.captured (.attached id slot)) false
        modify fun h => { h with
          frames := h.frames.modify id.index fun f =>
            { f with openVariables := f.openVariables.push r } }
        return r
    else fault (.captureOutside slot id)

/-- Makes a variable that never lived in a frame. -/
def newVariable (v : Value) : AllocM Handle := do
  let p ← reserveOr Size.cell v.ref?.toList
  install p (.captured (.detached v)) true

end AllocM

end ObjectMemory
