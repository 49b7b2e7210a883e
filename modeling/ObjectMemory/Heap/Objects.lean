import ObjectMemory.Heap.Shapes
set_option autoImplicit false

/-!
# Objects in the heap

An object is a list of properties laid out by its shape.  Operations that define a property replace
it where the shape has it and add it at the end where it has not.  Deleting a property leaves a hole;
once holes are plenty, the layout is compacted.

A value or reference handed to an operation is the object's from then on.  If the operation refuses or
runs out of memory, it is given up.
-/

namespace ObjectMemory

/-- Where a property was found. -/
structure Location where
  /-- the object that has the property: the receiver or one of its prototypes -/
  holder : Handle
  /-- index in the holder's shape -/
  offset : Nat
  flags : Flags
  /-- number of prototypes between the receiver and the holder, the holder included -/
  depth : Nat
  deriving DecidableEq, Repr, Inhabited

namespace Heap

/-! ## Looking up -/

/-- The shape of an object. -/
def shapeOf? (h : Heap) (r : Handle) : Option Shape := (h.object? r).bind fun o => h.shape? o.shape

/-- The prototype of an object. -/
def proto? (h : Heap) (r : Handle) : Option Handle := (h.shapeOf? r).bind (·.proto)

/-- The shape of an object, with its version. -/
def objectStamp? (h : Heap) (r : Handle) : Option ShapeStamp :=
  (h.object? r).bind fun o => h.shapeStamp? o.shape

/-- The objects from `r` along the prototypes, at most `n` of them. -/
def protoChainFrom (h : Heap) : Nat → Option Handle → List Handle
  | 0, _ => []
  | _, none => []
  | n + 1, some r => r :: h.protoChainFrom n (h.proto? r)

/-- The objects from `r` along the prototypes.  A chain without repetition is not longer than there
are slots, but for its last handle, which may be stale. -/
def protoChain (h : Heap) (r : Option Handle) : List Handle := h.protoChainFrom (h.slots.size + 1) r

/-- The index and flags of an own property of an object. -/
def findOwn? (h : Heap) (r : Handle) (atom : Atom) : Option (Nat × Flags) :=
  (h.object? r).bind fun o => h.findProperty? o.shape atom

/-- An own property of an object. -/
def getOwn? (h : Heap) (r : Handle) (atom : Atom) : Option Property :=
  (h.object? r).bind fun o =>
    (h.findProperty? o.shape atom).bind fun (i, _) => o.properties[i]?

/-- Looks for a property in `r` and at most `n - 1` prototypes after it. -/
def lookupFrom (h : Heap) (atom : Atom) : Nat → Nat → Handle → Option Location
  | 0, _, _ => none
  | n + 1, depth, r =>
    match h.shapeOf? r with
    | none => none
    | some s =>
      match s.find? atom with
      | some (offset, flags) => some ⟨r, offset, flags, depth⟩
      | none =>
        match s.proto with
        | some p => h.lookupFrom atom n (depth + 1) p
        | none => none

/-- The first object along the prototypes of `r` that has the property. -/
def lookup? (h : Heap) (r : Handle) (atom : Atom) : Option Location :=
  h.lookupFrom atom (h.slots.size + 1) 0 r

/-- Changes the object in a slot. -/
def modifyObjectAt (h : Heap) (i : Nat) (f : Object → Object) : Heap :=
  h.modifyBody i fun
    | .object o => .object (f o)
    | b => b

/-- The variable a property of an object or a variable of the program stands for. -/
def variableValue (h : Heap) (r : Handle) : Except Fault Value :=
  match h.captured? r with
  | some (.detached v) => .ok v
  | some (.attached id slot) =>
    match h.frames.get? id with
    | none => .error (.variableOfDeadFrame r id)
    | some f =>
      match f.locals[slot]? with
      | some v => .ok v
      | none => .error .outOfRange
  | none => .error (.notVariable r)

end Heap

namespace HeapM

/-- The object a handle names. -/
def object (r : Handle) : HeapM Object := read fun h =>
  match h.object? r with
  | some o => .ok o
  | none => .error (.notObject r)

/-- The shape of an object. -/
def objectShape (r : Handle) : HeapM Handle := read fun h =>
  match h.object? r with
  | some o => .ok o.shape
  | none => .error (.notObject r)

/-- Changes an object. -/
def modifyObject (r : Handle) (f : Object → Object) : HeapM Unit := fun h =>
  match h.object? r with
  | some _ => .ok ((), h.modifyObjectAt r.index f)
  | none => .error (.notObject r)

/-- Gives an object another shape. -/
def setShape (r shape : Handle) : HeapM Unit := modifyObject r fun o => { o with shape := shape }

/-- Puts a property in the place of another and gives the old one back. -/
def replaceProperty (r : Handle) (i : Nat) (p : Property) : HeapM Property := do
  let o ← object r
  match o.properties[i]? with
  | none => fault .outOfRange
  | some old =>
    modifyObject r fun o => { o with properties := o.properties.setIfInBounds i p }
    return old

/-- Gives up the references of a property. -/
def releaseProperty (p : Property) : HeapM Unit := releaseAll p.refs

/-! ## Reading and writing slots -/

/-- A counted copy of the value of a captured variable. -/
def getVariable (r : Handle) : HeapM Value := do
  dupValue (← read (·.variableValue r))

/-- Puts a value into a local of a frame. -/
def setLocal (id : FrameId) (slot : Nat) (v : Value) : HeapM Unit := do
  match (← get).frames.get? id with
  | none => fault (.frameDead id)
  | some f =>
    match f.locals[slot]? with
    | none => fault .outOfRange
    | some old =>
      modify fun h => { h with
        frames := h.frames.modify id.index fun f =>
          { f with locals := f.locals.setIfInBounds slot v } }
      freeValue old

/-- Puts a value into a captured variable. -/
def setVariable (r : Handle) (v : Value) : HeapM Unit := do
  match (← get).captured? r with
  | some (.detached old) =>
    modify (·.modifyBody r.index fun _ => .captured (.detached v))
    freeValue old
  | some (.attached id slot) => setLocal id slot v
  | none => fault (.notVariable r)

/-- A counted copy of what a slot of an object stands for; accessors stand for nothing. -/
def readSlot (r : Handle) (offset : Nat) : HeapM (Option Value) := do
  match (← get).object? r with
  | none => return none
  | some o =>
    match o.properties[offset]? with
    | some (.value v) => return some (← dupValue v)
    | some (.captured x) => return some (← getVariable x)
    | some (.accessor _ _) | none => return none

/-- Replaces the plain value in a slot of an object. -/
def writeSlot (r : Handle) (offset : Nat) (v : Value) : HeapM Unit := do
  let o ← object r
  match o.properties[offset]? with
  | none => fault .outOfRange
  | some (.value old) =>
    modifyObject r fun o => { o with properties := o.properties.setIfInBounds offset (.value v) }
    freeValue old
  | some _ => fault (.notPlain offset r)

/-- A counted copy of a property of an object or its prototypes; undefined if there is none. -/
def getProperty (r : Handle) (atom : Atom) : HeapM Value := do
  match (← get).lookup? r atom with
  | some l => return (← readSlot l.holder l.offset).getD .undefined
  | none => return .undefined

/-- Forbids new properties. -/
def preventExtensions (r : Handle) : HeapM Unit := modifyObject r fun o => { o with extensible := false }

end HeapM

namespace AllocM

open HeapM

/-! ## Making objects -/

/-- Makes an object of a shape, with a payload.  The references to the shape and in the payload are
the object's.  Properties the shape has start undefined. -/
def newObjectFromShape (shape : Handle) (payload : Payload) : AllocM Handle := do
  let s ← HeapM.shape shape
  let count := s.entries.size
  let capacity := max s.capacity Shape.initialCapacity
  let p ← reserveOr (Size.object capacity) (shape :: payload.refs) fun i => [.properties i capacity]
  install p (.object ⟨shape, Array.replicate count .undefined, capacity, true, payload⟩) true

/-- Makes an ordinary object. -/
def newObject (proto : Option Handle) : AllocM Handle := do
  newObjectFromShape (← shapeForNewObject proto) .ordinary

/-! ## Changing objects -/

/-- Gives an object a shape of its own that may be changed in place. -/
def ownShape (r : Handle) : AllocM Handle := do
  let old ← objectShape r
  let shape ←
    try prepareUpdate old
    catch e =>
      setShape r old
      throw e
  setShape r shape
  return shape

/-- Makes room for one more property. -/
def reserveProperty (r : Handle) : AllocM Unit := do
  let o ← object r
  let size := o.properties.size
  let capacity := o.capacity
  if size ≥ capacity then
    let target := Object.grownCapacity size capacity
    growCell r ((target - capacity) * Size.property) [.properties r.index target]
    modifyObject r fun o => { o with capacity := target }

/-- Adds a property at the end. -/
def appendProperty (r : Handle) (atom : Atom) (flags : Flags) (p : Property) : AllocM Unit := do
  try
    reserveProperty r
  catch e =>
    releaseProperty p
    throw e
  let old ← objectShape r
  let (shape, index) ←
    try addProperty old atom flags
    catch e =>
      setShape r old
      releaseProperty p
      throw e
  setShape r shape
  modifyObject r fun o => { o with properties := o.properties.push p }
  let o ← object r
  if index + 1 ≠ o.properties.size then fault .assertion

/-- Defines an own property.  Refused if it would be new and the object is not extensible. -/
def defineOwn (r : Handle) (atom : Atom) (flags : Flags) (p : Property) : AllocM Bool := do
  let shape ← objectShape r
  match (← get).findProperty? shape atom with
  | some (index, oldFlags) =>
    if oldFlags ≠ flags then
      let shape ←
        try ownShape r
        catch e =>
          releaseProperty p
          throw e
      modifyShape shape (·.setFlags index flags)
    let old ← replaceProperty r index p
    releaseProperty old
    return true
  | none =>
    let o ← object r
    if o.extensible then
      appendProperty r atom flags p
      return true
    else
      releaseProperty p
      return false

/-- Defines a plain property. -/
def defineProperty (r : Handle) (atom : Atom) (flags : Flags) (v : Value) : AllocM Bool :=
  defineOwn r atom (flags.withKind .plain) (.value v)

/-- Defines an accessor.  The getter and the setter remain the caller's as well. -/
def defineAccessor (r : Handle) (atom : Atom) (flags : Flags) (getter setter : Option Handle) :
    AllocM Bool := do
  retainOption getter
  retainOption setter
  defineOwn r atom (flags.withKind .accessor) (.accessor getter setter)

/-- Defines a property that stands for a captured variable. -/
def defineCaptured (r : Handle) (atom : Atom) (flags : Flags) (x : Handle) : AllocM Bool :=
  defineOwn r atom (flags.withKind .captured) (.captured x)

/-- Assigns to a property: in place if the object has it, else by adding it.  Refused for a read-only
property, an accessor, and a new property of an object that is not extensible. -/
def setProperty (r : Handle) (atom : Atom) (v : Value) : AllocM Bool := do
  match (← get).findOwn? r atom with
  | some (index, flags) =>
    if !flags.contains .writable || flags.kind == .accessor then
      freeValue v
      return false
    else if flags.kind == .captured then
      let o ← object r
      match o.properties[index]? with
      | none => fault .outOfRange
      | some (.captured x) =>
        setVariable x v
        return true
      | some p => fault (.notCaptured p)
    else
      writeSlot r index v
      return true
  | none => defineOwn r atom .ordinary (.value v)

/-! ## Compaction and deletion -/

/-- The entries and properties that are not holes, or nothing if a hole holds something. -/
def withoutHoles : List (Entry × Property) → Option (List (Entry × Property))
  | [] => some []
  | (e, p) :: rest =>
    if e.atom.isNull then if p = .undefined then withoutHoles rest else none
    else (withoutHoles rest).map ((e, p) :: ·)

/-- Rebuilds the layout of an object without the holes deletions left.  The allocator is asked for the
new arrays when the shape is the object's own already; what was done to that end is not undone. -/
def compactProperties (r : Handle) : AllocM Unit := do
  let shape ← ownShape r
  let s ← HeapM.shape shape
  let o ← object r
  let capacity := s.compactCapacity
  let buckets := s.compactBuckets
  ask [.entries shape.index capacity, .buckets shape.index buckets, .properties r.index capacity]
    (pure ()) ⟨capacity * Size.property⟩
  match withoutHoles (s.entries.toList.zip o.properties.toList) with
  | none => fault .assertion
  | some kept =>
    let freedValues := (o.capacity - capacity) * Size.property
    let freedLayout := Size.shape s.capacity s.buckets.size - Size.shape capacity buckets
    modifyShape shape (·.compact (kept.map (·.1)).toArray)
    modifyObject r fun o =>
      { o with properties := (kept.map (·.2)).toArray, capacity := capacity }
    unchargeCell shape freedLayout
    unchargeCell r freedValues

/-- Number of holes below which a layout is never compacted. -/
def minHoles : Nat := 8

/-- Deletes an own property.  Refused for one that is not configurable. -/
def deleteProperty (r : Handle) (atom : Atom) : AllocM Bool := do
  match (← get).findOwn? r atom with
  | none => return true
  | some (index, flags) =>
    if !flags.contains .configurable then return false
    let shape ← ownShape r
    let s ← HeapM.shape shape
    if !s.isLinked index then fault (.entryMissing atom)
    modifyShape shape (·.remove index)
    let s ← HeapM.shape shape
    let isCrowded := s.holes ≥ minHoles ∧ s.holes ≥ s.entries.size / 2
    let old ← replaceProperty r index .undefined
    releaseProperty old
    if isCrowded then
      try compactProperties r
      catch _ => pure ()
    return true

/-- Gives an object another prototype.  Refused if the object is among the prototypes of the new
one. -/
def setPrototype (r : Handle) (proto : Option Handle) : AllocM Bool := do
  if r ∈ (← get).protoChain proto then return false
  let s ← HeapM.shape (← objectShape r)
  if s.proto = proto then return true
  let shape ← ownShape r
  retainOption proto
  let s ← HeapM.shape shape
  let old := s.proto
  modifyShape shape fun s => { s with proto := proto }
  releaseAll old.toList
  return true

end AllocM

end ObjectMemory
