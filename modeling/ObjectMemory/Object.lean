import ObjectMemory.Value
set_option autoImplicit false

/-!
# Objects

An object keeps one property per entry of its shape, in the same order, and the data of its class:
nothing more, the elements of an array, or the parts of a closure.
-/

namespace ObjectMemory

/-- How an object stores one property. -/
inductive Property where
  | value (v : Value)
  | accessor (getter setter : Option Handle)
  /-- a binding kept in a captured variable -/
  | captured (r : Handle)
  deriving DecidableEq, Repr, Inhabited

namespace Property

/-- A property without a value yet. -/
def undefined : Property := value .undefined

/-- The cells a property refers to, in the order they are released. -/
def refs : Property → List Handle
  | value v => v.ref?.toList
  | accessor getter setter => getter.toList ++ setter.toList
  | captured r => [r]

/-- The diagnostic text. -/
def describe : Property → String
  | value v => "Value(" ++ v.describe ++ ")"
  | accessor getter setter =>
    "GetSet \x7b getter: " ++ Handle.describeOption getter ++ ", setter: " ++
      Handle.describeOption setter ++ " \x7d"
  | captured r => "VarRef(" ++ r.describe ++ ")"

end Property

/-- Data an object carries beside its properties. -/
inductive Payload where
  | ordinary
  /-- dense elements, and the number of them room is accounted for -/
  | array (elements : Array Value) (capacity : Nat)
  /-- compiled function, captured variables in order, and the object used for parent lookups -/
  | closure (bytecode : Handle) (captured : Array Handle) (home : Option Handle)
  deriving DecidableEq, Repr, Inhabited

/-- The class of an object. -/
inductive ObjectClass where
  | object
  | array
  | closure
  deriving DecidableEq, Repr, Inhabited

namespace Payload

/-- The class a payload makes. -/
def objectClass : Payload → ObjectClass
  | ordinary => .object
  | array _ _ => .array
  | closure _ _ _ => .closure

/-- An array payload given as a whole has room for just its elements. -/
def ofElements (elements : Array Value) : Payload := array elements elements.size

/-- The cells a payload refers to, in the order they are released. -/
def refs : Payload → List Handle
  | ordinary => []
  | array elements _ => elements.toList.filterMap Value.ref?
  | closure bytecode captured home => bytecode :: (captured.toList ++ home.toList)

end Payload

/-- An object. -/
structure Object where
  /-- layout of the properties -/
  shape : Handle
  /-- one property per entry of the shape -/
  properties : Array Property
  /-- number of properties room is accounted for -/
  capacity : Nat
  /-- new properties may be added -/
  extensible : Bool
  payload : Payload
  deriving DecidableEq, Repr, Inhabited

namespace Object

/-- The cells an object refers to, in the order they are released: properties, payload, shape. -/
def refs (o : Object) : List Handle :=
  o.properties.toList.flatMap Property.refs ++ o.payload.refs ++ [o.shape]

/-- The room a full sequence of `size` items with room for `capacity` grows to. -/
def grownCapacity (size capacity : Nat) : Nat := max (size + 1) (capacity * 3 / 2)

end Object

end ObjectMemory
