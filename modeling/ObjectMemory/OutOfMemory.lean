set_option autoImplicit false

/-!
# Running out of memory

The one failure a caller can recover from.  It carries the number of bytes that were asked for.

Memory runs out in two ways: an operation would pass the memory limit, or the allocator refuses room for
an array that is made or has to grow.  What the allocator is asked for is a `Request`.
-/

namespace ObjectMemory

/-- Room for an array of so many elements, as it is asked of the allocator. -/
inductive Request where
  /-- the slots of the heap -/
  | slots (count : Nat)
  /-- the places for frames -/
  | frames (count : Nat)
  /-- the open variables of the frame in a place, one more than there are -/
  | openVariable (place : Nat)
  /-- the entries of the shape in a slot -/
  | entries (slot count : Nat)
  /-- the buckets of the shape in a slot -/
  | buckets (slot count : Nat)
  /-- the properties of the object in a slot -/
  | properties (slot count : Nat)
  /-- the elements of the array in a slot -/
  | elements (slot count : Nat)
  deriving DecidableEq, Repr, Inhabited

/-- An allocation that the memory limit does not allow, or that the allocator refuses. -/
structure OutOfMemory where
  requested : Nat
  deriving DecidableEq, Repr, Inhabited

namespace OutOfMemory

/-- The greatest number of bytes a request can state. -/
def maxRequest : Nat := 0xFFFFFFFFFFFFFFFF

/-- The failure to reserve room for `additional` elements of `elementSize` bytes each. -/
def ofReserve (additional elementSize : Nat) : OutOfMemory :=
  ⟨min (additional * elementSize) maxRequest⟩

/-- The text shown to a user. -/
def message (e : OutOfMemory) : String :=
  "out of memory (" ++ toString e.requested ++ " bytes requested)"

/-- The diagnostic text. -/
def describe (e : OutOfMemory) : String :=
  "OutOfMemory \x7b requested: " ++ toString e.requested ++ " \x7d"

end OutOfMemory

end ObjectMemory
