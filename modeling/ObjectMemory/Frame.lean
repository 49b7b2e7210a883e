import ObjectMemory.Value
set_option autoImplicit false

/-!
# Stack frames

A running function keeps its locals in a frame.  Frames are not cells of the heap: they live in a
table of their own, are named by an index and a generation, and their locals count as references
from outside.

A frame also knows its open variables, the captured variables that still point at one of its locals.
-/

namespace ObjectMemory

/-- The name of a frame: a place in the frame table and its generation. -/
structure FrameId where
  index : Nat
  generation : UInt32
  deriving DecidableEq, Repr, Inhabited

namespace FrameId

/-- The text of a frame's name. -/
def text (id : FrameId) : String :=
  "frame " ++ toString id.index ++ "." ++ toString id.generation.toNat

end FrameId

/-- The locals of a running function. -/
structure Frame where
  locals : Array Value
  /-- captured variables that point at a local of this frame -/
  openVariables : Array Handle
  /-- accounted bytes -/
  size : Nat
  deriving DecidableEq, Repr, Inhabited

namespace Frame

/-- Removes the element at `i`; the last element takes its place. -/
def swapRemove (xs : Array Handle) (i : Nat) : Array Handle :=
  match xs.back? with
  | none => xs
  | some last => (xs.setIfInBounds i last).pop

/-- The frame without one of its open variables. -/
def close (f : Frame) (r : Handle) : Frame :=
  match f.openVariables.findIdx? (· == r) with
  | some i => { f with openVariables := swapRemove f.openVariables i }
  | none => f

end Frame

/-- A place in the frame table: how many frames were popped there, and the frame in it. -/
structure FrameSlot where
  pops : Nat
  frame : Option Frame
  deriving DecidableEq, Repr, Inhabited

namespace FrameSlot

/-- The generation of the names of a place: one 32-bit word, which wraps around. -/
def generation (s : FrameSlot) : UInt32 := s.pops.toUInt32

end FrameSlot

/-- Frames by index, and the places free for reuse, the latest first. -/
structure FrameTable where
  slots : Array FrameSlot
  free : List Nat
  deriving Repr, Inhabited

namespace FrameTable

/-- The table without frames. -/
def empty : FrameTable := ⟨#[], []⟩

/-- The frame with a name, unless it has been popped. -/
def get? (t : FrameTable) (id : FrameId) : Option Frame :=
  match t.slots[id.index]? with
  | some s => if s.generation = id.generation then s.frame else none
  | none => none

/-- Changes the frame at an index. -/
def modify (t : FrameTable) (i : Nat) (f : Frame → Frame) : FrameTable :=
  { t with slots := t.slots.modify i fun s => { s with frame := s.frame.map f } }

/-- Enters a frame, in the place freed last or in a new one. -/
def push (t : FrameTable) (f : Frame) : FrameId × FrameTable :=
  match t.free with
  | i :: rest =>
    let generation := match t.slots[i]? with
      | some s => s.generation
      | none => 0
    (⟨i, generation⟩, ⟨t.slots.modify i fun s => { s with frame := some f }, rest⟩)
  | [] => (⟨t.slots.size, 0⟩, ⟨t.slots.push ⟨0, some f⟩, []⟩)

/-- Removes the frame at an index and advances the generation of its place. -/
def pop (t : FrameTable) (i : Nat) : FrameTable :=
  ⟨t.slots.modify i fun s => ⟨s.pops + 1, none⟩, i :: t.free⟩

end FrameTable

end ObjectMemory
