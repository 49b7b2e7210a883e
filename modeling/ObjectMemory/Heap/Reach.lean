import ObjectMemory.Heap.Basic
set_option autoImplicit false

/-!
# What handles lead to

The cells that can be reached from handles along the references bodies own.  Stale handles lead
nowhere, and a variable attached to a frame does not lead to the locals of the frame.
-/

namespace ObjectMemory.Heap

/-- The handle of the cell in a slot. -/
def handleAt? (h : Heap) (i : Nat) : Option Handle :=
  h.slots[i]?.bind fun s => s.cell.map fun _ => ⟨i, s.generation⟩

/-- Marks in `seen` the slots of the cells that the pending handles lead to.  Every step takes one
handle, and every cell adds its references once. -/
def visit (h : Heap) : Nat → List Handle → Array Bool → Array Bool
  | 0, _, seen => seen
  | _, [], seen => seen
  | n + 1, r :: pending, seen =>
    match h.cell? r with
    | none => h.visit n pending seen
    | some c =>
      if seen.getD r.index false then h.visit n pending seen
      else h.visit n (c.body.refs ++ pending) (seen.setIfInBounds r.index true)

/-- The handles of the cells that `roots` lead to, by slot. -/
def reachableFrom (h : Heap) (roots : List Handle) : List Handle :=
  let steps := roots.length + h.total fun c => c.body.refs.length
  let seen := h.visit steps roots (Array.replicate h.slots.size false)
  (List.range h.slots.size).filterMap fun i => if seen.getD i false then h.handleAt? i else none

end ObjectMemory.Heap
