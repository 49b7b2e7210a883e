import ObjectMemory.Heap.Collector
import ObjectMemory.Size
set_option autoImplicit false

/-!
# Accounting and allocation

Every cell and frame is accounted for in bytes.  A charge that would pass the memory limit is refused
and changes nothing.  The bytes are on the account when the allocator is asked for the arrays they are
for; if it refuses (`ask`), they are taken off again.

A cell is made in two steps: `reserve` charges its size and takes a slot, after releasing dropped
roots and, above the threshold, running the collector; `install` puts the cell into the slot.  A slot
that was taken for a cell whose arrays are refused is given back (`cancel`).
-/

namespace ObjectMemory

namespace Config

/-- The memory limit allows `n` accounted bytes. -/
def allows (c : Config) (n : Nat) : Bool :=
  match c.memoryLimit with
  | some limit => n ≤ limit
  | none => true

end Config

/-- A slot and an accounted size, set apart for a cell. -/
structure Reservation where
  index : Nat
  size : Nat
  deriving DecidableEq, Repr, Inhabited

namespace Heap

/-- The accounted size the next collection is put off to. -/
def nextThreshold (used : Nat) : Nat := used + used / 2

/-- An allocation runs the collector first. -/
def isCollectionDue (h : Heap) : Bool :=
  h.config.autoCollect && h.phase == .idle && h.used > h.threshold

/-- The greatest number of slots. -/
def maxSlots : Nat := 4294967295

/-- Takes the vacant slot freed last, or a new one. -/
def takeSlot (h : Heap) : Except Fault (Nat × Heap) :=
  match h.freeSlots with
  | i :: rest => .ok (i, { h with freeSlots := rest })
  | [] =>
    if h.slots.size < maxSlots then .ok (h.slots.size, { h with slots := h.slots.push ⟨0, none⟩ })
    else .error .tooManySlots

/-- What is asked of the allocator to take a slot: nothing if there is a vacant one. -/
def slotRequests (h : Heap) : List Request :=
  if h.freeSlots.isEmpty then [.slots (h.slots.size + 1)] else []

/-- Puts a cell into a vacant slot.  It starts with one reference; `listed` cells join the live list. -/
def putCell (h : Heap) (p : Reservation) (body : Body) (listed : Bool) :
    Except Fault (Handle × Heap) :=
  match h.slots[p.index]? with
  | none => .error .outOfRange
  | some s =>
    if s.cell.isSome then .error (.slotOccupied p.index)
    else
      let c : Cell := ⟨1, false, .unlisted, p.size, body⟩
      let h := { h with
        slots := h.slots.modify p.index fun s => { s with cell := some c }
        liveCells := h.liveCells + 1 }
      .ok (⟨p.index, s.generation⟩, if listed then h.joinLive p.index .unlisted else h)

end Heap

namespace HeapM

/-- Takes bytes off the account. -/
def uncharge (n : Nat) : HeapM Unit := fun h =>
  if h.used < n then .error .arithmetic else .ok ((), { h with used := h.used - n })

/-- Takes bytes off the account of a cell. -/
def unchargeCell (r : Handle) (n : Nat) : HeapM Unit := do
  uncharge n
  let c ← read (·.cellAt r.index)
  if c.size < n then fault .arithmetic
  else modify (·.modifyCell r.index fun c => { c with size := c.size - n })

/-- Gives back a slot and its bytes that no cell is made of. -/
def cancel (p : Reservation) : HeapM Unit := do
  uncharge p.size
  modify fun h => { h with freeSlots := p.index :: h.freeSlots }

/-- Runs the collector if that is due, and puts the next collection off. -/
def collectIfDue : HeapM Unit := do
  if (← get).isCollectionDue then
    let _ ← collect
    modify fun h => { h with threshold := Heap.nextThreshold h.used }

/-- Makes a cell in a reserved slot. -/
def install (p : Reservation) (body : Body) (listed : Bool) : HeapM Handle :=
  fun h => h.putCell p body listed

end HeapM

namespace AllocM

open HeapM

/-- Puts bytes on the account, within the memory limit. -/
def charge (n : Nat) : AllocM Unit := ExceptT.mk fun h =>
  if h.config.allows (h.used + n) then .ok (.ok (), { h with used := h.used + n })
  else .ok (.error ⟨n⟩, h)

/-- Puts bytes on the account of a cell. -/
def chargeCell (r : Handle) (n : Nat) : AllocM Unit := do
  charge n
  modify (·.modifyCell r.index fun c => { c with size := c.size + n })

/-- Asks the allocator for room.  If it refuses, undoes what was done for that and fails. -/
def ask (requests : List Request) (undo : HeapM Unit) (failure : OutOfMemory) : AllocM Unit := do
  if !(← get).grants requests then
    undo
    throw failure

/-- Puts bytes on the account of a cell for arrays that grow by as much. -/
def growCell (r : Handle) (n : Nat) (arrays : List Request) : AllocM Unit := do
  chargeCell r n
  ask arrays (unchargeCell r n) ⟨n⟩

/-- Puts `size` bytes on the account and takes a slot for a new cell that needs `arrays` in this slot. -/
def claimSlot (size : Nat) (arrays : Nat → List Request) (failure : OutOfMemory) : AllocM Reservation := do
  charge size
  ask (← get).slotRequests (uncharge size) (.ofReserve 1 Size.slot)
  let takeSlot : HeapM Nat := fun h => h.takeSlot
  let index ← takeSlot
  ask (arrays index) (cancel ⟨index, size⟩) failure
  return ⟨index, size⟩

/-- Sets a slot and `size` bytes apart for a new cell, after roots and garbage are gone. -/
def reserve (size : Nat) (arrays : Nat → List Request := fun _ => [])
    (failure : OutOfMemory := ⟨size⟩) : AllocM Reservation := do
  flushRoots
  collectIfDue
  claimSlot size arrays failure

/-- Sets a slot apart as `reserve` does; if memory runs out, gives up `owned` first. -/
def reserveOr (size : Nat) (owned : List Handle) (arrays : Nat → List Request := fun _ => []) :
    AllocM Reservation := do
  try reserve size arrays
  catch e =>
    releaseAll owned
    throw e

end AllocM

end ObjectMemory
