import ObjectMemory.Heap.Objects
set_option autoImplicit false

/-!
# Arrays

An array is an object of its realm's array shape that carries dense elements.  Its length property
follows the number of elements as they are pushed.
-/

namespace ObjectMemory

namespace Heap

/-- The elements of an array. -/
def elements? (h : Heap) (r : Handle) : Option (Array Value) :=
  match h.object? r with
  | some ⟨_, _, _, _, .array elements _⟩ => some elements
  | _ => none

/-- An element of an array. -/
def arrayGet? (h : Heap) (r : Handle) (i : Nat) : Option Value := (h.elements? r).bind fun xs => xs[i]?

/-- The number of elements of an array. -/
def arrayLength? (h : Heap) (r : Handle) : Option Nat := (h.elements? r).map (·.size)

end Heap

namespace HeapM

/-- The realm a handle names. -/
def realm (r : Handle) : HeapM Realm := read fun h =>
  match h.realm? r with
  | some x => .ok x
  | none => .error (.notRealm r)

/-- Number of elements of an array, and number of them room is accounted for. -/
def arrayExtent (r : Handle) : HeapM (Nat × Nat) := do
  let o ← object r
  match o.payload with
  | .array elements capacity => return (elements.size, capacity)
  | _ => fault (.notArray r)

/-- Puts a small integer into the length slot of an array, if its shape has one. -/
def setLength (r : Handle) (n : Nat) : HeapM Unit := do
  let shape ← objectShape r
  match (← get).findProperty? shape .length with
  | none => return ()
  | some (index, _) =>
    let o ← object r
    if index < o.properties.size then
      modifyObject r fun o =>
        { o with properties := o.properties.setIfInBounds index (.value (.smi (Int32.ofNat n))) }
    else fault .outOfRange

end HeapM

namespace AllocM

open HeapM

/-- Makes an array in a realm. -/
def newArray (ctx : Handle) : AllocM Handle := do
  let x ← realm ctx
  retain x.arrayShape
  let r ← newObjectFromShape x.arrayShape (.array #[] 0)
  setLength r 0
  return r

/-- Adds an element at the end of an array. -/
def arrayPush (r : Handle) (v : Value) : AllocM Unit := do
  let (size, capacity) ← arrayExtent r
  if size = capacity then
    let target := Object.grownCapacity size capacity
    try growCell r ((target - capacity) * Size.value) [.elements r.index target]
    catch e =>
      freeValue v
      throw e
    modifyObject r fun o => { o with
      payload := match o.payload with
        | .array elements _ => .array elements target
        | p => p }
  modifyObject r fun o => { o with
    payload := match o.payload with
      | .array elements capacity => .array (elements.push v) capacity
      | p => p }
  setLength r (size + 1)

end AllocM

end ObjectMemory
