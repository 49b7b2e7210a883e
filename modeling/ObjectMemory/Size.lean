set_option autoImplicit false

/-!
# Accounted sizes

The number of bytes each part of the heap is accounted for.
-/

namespace ObjectMemory.Size

/-- A cell without what hangs on it. -/
def cell : Nat := 128

/-- An entry of a shape. -/
def entry : Nat := 12

/-- A bucket of a shape. -/
def bucket : Nat := 4

/-- A property of an object. -/
def property : Nat := 32

/-- A value in a sequence of values. -/
def value : Nat := 24

/-- A frame without its locals. -/
def frame : Nat := 56

/-- A slot of the heap. -/
def slot : Nat := 136

/-- A place for a frame. -/
def frameSlot : Nat := 64

/-- A handle in a sequence of handles. -/
def handle : Nat := 8

/-- A shape with room for `capacity` entries and with `buckets` buckets. -/
def shape (capacity buckets : Nat) : Nat := cell + capacity * entry + buckets * bucket

/-- An object with room for `capacity` properties. -/
def object (capacity : Nat) : Nat := cell + capacity * property

/-- A cell that holds `n` values. -/
def cellWithValues (n : Nat) : Nat := cell + n * value

/-- A frame with `n` locals. -/
def frameWithLocals (n : Nat) : Nat := frame + n * value

end ObjectMemory.Size
