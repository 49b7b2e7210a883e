import ObjectMemory.CellLists
import ObjectMemory.Frame
import ObjectMemory.Object
import ObjectMemory.Shape
set_option autoImplicit false

/-!
# Cells

A cell is one allocation of the heap: its body and what the heap keeps about it, the number of counted
references to it, its place among the lists the collector walks, its mark and its accounted size.

This module holds the bodies other than objects and shapes, and the references a body gives up when
it is finalized, in order (`Body.refs`).
-/

namespace ObjectMemory

/-- A captured variable.  While the frame that owns it runs, the variable is a local of the frame;
afterwards it owns its value. -/
inductive Variable where
  | attached (frame : FrameId) (slot : Nat)
  | detached (value : Value)
  deriving DecidableEq, Repr, Inhabited

/-- A compiled function: its constants, the realm it belongs to and its name. -/
structure Bytecode where
  pool : Array Value
  realm : Option Handle
  name : Option Atom
  deriving DecidableEq, Repr, Inhabited

/-- The state of a suspended asynchronous call. -/
structure Suspension where
  /-- cleared once the call has completed -/
  active : Bool
  receiver : Value
  /-- arguments, locals and operands -/
  values : Array Value
  resolve : Value
  reject : Value
  deriving DecidableEq, Repr, Inhabited

/-- A realm: the global object, the intrinsic prototypes and the shape of a new array. -/
structure Realm where
  globalObject : Handle
  objectProto : Handle
  functionProto : Handle
  arrayProto : Handle
  arrayShape : Handle
  deriving DecidableEq, Repr, Inhabited

/-- The kinds of cells. -/
inductive Kind where
  | object
  | bytecode
  | captured
  | suspension
  | shape
  | realm
  deriving DecidableEq, Repr, Inhabited

namespace Kind

/-- Every kind, in declaration order. -/
def all : List Kind := [object, bytecode, captured, suspension, shape, realm]

/-- Cells of these kinds wait in a queue when their last reference goes, and are finalized by the
collector itself; the others are freed at once. -/
def isQueued : Kind → Bool
  | object | bytecode => true
  | _ => false

end Kind

/-- The body of a cell. -/
inductive Body where
  | object (o : Object)
  | bytecode (b : Bytecode)
  | captured (v : Variable)
  | suspension (s : Suspension)
  | shape (s : Shape)
  | realm (r : Realm)
  /-- finalized, while other garbage still refers to the cell -/
  | zombie (kind : Kind)
  deriving DecidableEq, Repr, Inhabited

namespace Variable

/-- The variable owns its value. -/
def isDetached : Variable → Bool
  | attached _ _ => false
  | detached _ => true

/-- The cell a variable refers to. -/
def refs : Variable → List Handle
  | attached _ _ => []
  | detached v => v.ref?.toList

end Variable

namespace Bytecode

/-- The cells a compiled function refers to. -/
def refs (b : Bytecode) : List Handle := b.pool.toList.filterMap Value.ref? ++ b.realm.toList

end Bytecode

namespace Suspension

/-- The values of a suspended call, in the order they are released. -/
def contents (s : Suspension) : List Value := s.receiver :: (s.values.toList ++ [s.resolve, s.reject])

/-- The cells a suspended call refers to. -/
def refs (s : Suspension) : List Handle := s.contents.filterMap Value.ref?

end Suspension

namespace Realm

/-- The cells a realm refers to, in the order they are released. -/
def refs (r : Realm) : List Handle :=
  [r.globalObject, r.functionProto, r.arrayProto, r.arrayShape, r.objectProto]

end Realm

namespace Body

/-- The kind of a body. -/
def kind : Body → Kind
  | object _ => .object
  | bytecode _ => .bytecode
  | captured _ => .captured
  | suspension _ => .suspension
  | shape _ => .shape
  | realm _ => .realm
  | zombie k => k

/-- The counted references a body owns, in the order its finalization gives them up. -/
def refs : Body → List Handle
  | object o => o.refs
  | bytecode b => b.refs
  | captured v => v.refs
  | suspension s => s.refs
  | shape s => s.proto.toList
  | realm r => r.refs
  | zombie _ => []

/-- The steps a body is worth when its finalization is counted: one per reference, and one for the
body itself. -/
def weight : Body → Nat
  | zombie _ => 0
  | b => b.refs.length + 1

end Body

/-- Where a cell stands among the lists the collector walks. -/
inductive Place where
  /-- on no list: a variable attached to a frame -/
  | unlisted
  /-- on the live list; tickets give the order in which cells joined it -/
  | live (ticket : Nat)
  /-- a candidate of the collection that is under way -/
  | candidate
  /-- without references, waiting to be finalized -/
  | queued
  /-- garbage that waits for the end of the collection -/
  | parked
  deriving DecidableEq, Repr, Inhabited

namespace Place

/-- The ticket of a cell on the live list. -/
def ticket? : Place → Option Nat
  | live ticket => some ticket
  | _ => none

/-- On the live list? -/
def isLive (p : Place) : Bool := p.ticket?.isSome

/-- The list a place is on.  Parked garbage waits as queued cells do. -/
def list? : Place → Option ListName
  | unlisted => none
  | live _ => some .live
  | candidate => some .candidates
  | queued | parked => some .waiting

end Place

/-- One allocation of the heap. -/
structure Cell where
  /-- number of counted references to the cell; a count that outgrew a signed 32-bit word would stop the
  program, so that no count of a run that goes on is greater -/
  refCount : Nat
  /-- set on cells the trial deletion has visited -/
  mark : Bool
  place : Place
  /-- accounted bytes -/
  size : Nat
  body : Body
  deriving DecidableEq, Repr, Inhabited

namespace Cell

/-- The kind of a cell. -/
def kind (c : Cell) : Kind := c.body.kind

end Cell

/-- A slot of the heap: how many cells were freed in it, and the cell in it if it is taken. -/
structure Slot where
  frees : Nat
  cell : Option Cell
  deriving DecidableEq, Repr, Inhabited

namespace Slot

/-- The generation of the handles to a slot: one 32-bit word, which wraps around. -/
def generation (s : Slot) : UInt32 := s.frees.toUInt32

end Slot

end ObjectMemory
