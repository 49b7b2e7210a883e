set_option autoImplicit false

/-!
# Property flags

One byte describes a property.  The low bits are its attributes; the two bits under `kindMask` say
how an object stores it: a plain value, an accessor pair, or a reference to a captured variable.
-/

namespace ObjectMemory

/-- Attributes and storage kind of a property. -/
structure Flags where
  bits : UInt8
  deriving DecidableEq, Repr, Inhabited

namespace Flags

/-- No attribute, plain storage. -/
def empty : Flags := ⟨0⟩

/-- The property can be deleted and reconfigured. -/
def configurable : Flags := ⟨0x01⟩

/-- The value of the property can be changed. -/
def writable : Flags := ⟨0x02⟩

/-- The property shows up in enumeration. -/
def enumerable : Flags := ⟨0x04⟩

/-- Configurable, writable and enumerable. -/
def ordinary : Flags := ⟨0x07⟩

/-- The length property of arrays. -/
def length : Flags := ⟨0x08⟩

/-- The bits that hold the storage kind. -/
def kindMask : Flags := ⟨0x30⟩

/-- Storage kind: a plain value. -/
def plain : Flags := ⟨0x00⟩

/-- Storage kind: a getter and a setter. -/
def accessor : Flags := ⟨0x10⟩

/-- Storage kind: a reference to a captured variable. -/
def captured : Flags := ⟨0x20⟩

/-- Every bit of `g` is set in `f`. -/
def contains (f g : Flags) : Bool := f.bits &&& g.bits == g.bits

/-- The storage kind alone. -/
def kind (f : Flags) : Flags := ⟨f.bits &&& kindMask.bits⟩

/-- The attributes of `f` with the storage kind `k`. -/
def withKind (f k : Flags) : Flags := ⟨(f.bits &&& ~~~kindMask.bits) ||| k.bits⟩

/-- The property is stored as a plain value. -/
def isData (f : Flags) : Bool := f.bits &&& kindMask.bits == 0

/-- The bits of both. -/
def union (f g : Flags) : Flags := ⟨f.bits ||| g.bits⟩

/-- A plain value that may be assigned. -/
def isPlainWritable (f : Flags) : Bool := f.isData && f.contains writable

end Flags

end ObjectMemory
