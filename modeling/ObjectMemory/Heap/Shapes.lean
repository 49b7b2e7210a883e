import ObjectMemory.Heap.Allocation
set_option autoImplicit false

/-!
# Shapes in the heap

A shape in the table of shared shapes never changes while anyone else refers to it.  To add a property
(`addProperty`), a shared shape hands its owner the shape that already has the property, if there is
one; otherwise a copy is extended, or the shape itself if its owner is the only one.  Any other change
goes through `prepareUpdate`, which hands back a shape of one owner that is not in the table.

Both leave the caller's shape as it was if memory runs out.  Room for the table of shared shapes is never
refused; a table that did not grow would only have longer buckets.
-/

namespace ObjectMemory

namespace Heap

/-- The shape a handle names, with its version. -/
def shapeStamp? (h : Heap) (r : Handle) : Option ShapeStamp :=
  (h.shape? r).map fun s => ⟨r, s.version⟩

/-- The index and flags of a property of a shape. -/
def findProperty? (h : Heap) (shape : Handle) (atom : Atom) : Option (Nat × Flags) :=
  (h.shape? shape).bind (·.find? atom)

/-- Changes the shape in a slot. -/
def modifyShapeAt (h : Heap) (i : Nat) (f : Shape → Shape) : Heap :=
  h.modifyBody i fun
    | .shape s => .shape (f s)
    | b => b

/-- The shape without properties for a prototype, if it is in the table. -/
def sharedEmpty? (h : Heap) (proto : Option Handle) : Option Handle :=
  (h.table.candidates (Shape.initialHash proto)).find? fun r =>
    match h.shape? r with
    | some s => s.proto == proto && s.isEmpty
    | none => false

/-- The shape that has one more property than `s`, if it is in the table. -/
def sharedTransition? (h : Heap) (s : Shape) (atom : Atom) (flags : Flags) : Option Handle :=
  (h.table.candidates (Shape.transitionHash s.hash atom flags)).find? fun r =>
    match h.shape? r with
    | some t => s.isExtendedBy atom flags t
    | none => false

end Heap

namespace HeapM

/-- The shape a handle names. -/
def shape (r : Handle) : HeapM Shape := read fun h =>
  match h.shape? r with
  | some s => .ok s
  | none => .error (.notShape r)

/-- Changes a shape. -/
def modifyShape (r : Handle) (f : Shape → Shape) : HeapM Unit := fun h =>
  match h.shape? r with
  | some _ => .ok ((), h.modifyShapeAt r.index f)
  | none => .error (.notShape r)

/-- Enters a shape into the table under its hash. -/
def register (r : Handle) : HeapM Unit := fun h =>
  match h.shape? r with
  | none => .error (.notShape r)
  | some s =>
    if s.isHashed then .error (.shapeRegisteredTwice r)
    else
      let hash := s.hash
      let h := h.modifyShapeAt r.index fun s => { s with isHashed := true }
      .ok ((), { h with table := h.table.insert hash r })

/-- Takes a shape out of the table. -/
def unregister (r : Handle) : HeapM Unit := fun h =>
  match h.shape? r with
  | none => .error (.notShape r)
  | some s =>
    if s.isHashed then
      match h.table.erase? s.hash r with
      | some t =>
        let h := h.modifyShapeAt r.index fun s => { s with isHashed := false }
        .ok ((), { h with table := t })
      | none => .error (.shapeMissing r)
    else .error (.shapeNotRegistered r)

end HeapM

namespace AllocM

open HeapM

/-- Makes the shape without properties for a prototype and enters it into the table. -/
def newShape (proto : Option Handle) : AllocM Handle := do
  let p ← reserve (Size.shape Shape.initialCapacity Shape.initialBuckets)
    (fun i => [.buckets i Shape.initialBuckets])
  retainOption proto
  let r ← install p (.shape (.initial proto)) true
  register r
  return r

/-- The shape without properties for a prototype.  The caller owns one reference to it. -/
def shapeForNewObject (proto : Option Handle) : AllocM Handle := do
  match (← get).sharedEmpty? proto with
  | some r =>
    retain r
    return r
  | none => newShape proto

/-- A copy of a shape, outside the table, of one owner. -/
def cloneShape (r : Handle) : AllocM Handle := do
  let s ← shape r
  let p ← reserve (Size.shape s.capacity s.buckets.size)
    (fun i => [.entries i s.capacity, .buckets i s.buckets.size])
  let s ← shape r
  retainOption s.proto
  install p (.shape s.copy) true

/-- Makes room for `count` entries in a shape. -/
def growShape (r : Handle) (count : Nat) : AllocM Unit := do
  let s ← shape r
  let capacity := s.grownCapacity count
  let buckets := s.grownBuckets capacity
  growCell r ((capacity - s.capacity) * Size.entry + (buckets - s.buckets.size) * Size.bucket)
    (.entries r.index capacity ::
      if buckets = s.buckets.size then [] else [.buckets r.index buckets])
  modifyShape r (·.grow capacity)

/-- Adds a property to a shape in place.  While it grows, the shape is out of the table; it comes back
under its new hash, or under the old one if memory runs out. -/
def extendShape (r : Handle) (atom : Atom) (flags : Flags) : AllocM Nat := do
  let s ← shape r
  let isHashed := s.isHashed
  let count := s.entries.size
  let isFull := count ≥ s.capacity
  let hash := Shape.transitionHash s.hash atom flags
  if isHashed then unregister r
  if isFull then
    try growShape r (count + 1)
    catch e =>
      if isHashed then register r
      throw e
  if isHashed then
    modifyShape r fun s => { s with hash := hash }
    register r
  modifyShape r (·.push atom flags)
  return count

/-- Adds a property to the shape the caller owns a reference to.  Gives the shape the caller owns from
then on, and the index of the property in it. -/
def addProperty (r : Handle) (atom : Atom) (flags : Flags) : AllocM (Handle × Nat) := do
  let s ← shape r
  let isHashed := s.isHashed
  let shared? := (← get).sharedTransition? s atom flags
  match if isHashed then shared? else none with
  | some next =>
    retain next
    release r
    let t ← shape next
    return (next, t.entries.size - 1)
  | none =>
    if (← get).refCount? r ≠ some 1 then
      let clone ← cloneShape r
      let index ←
        try extendShape clone atom flags
        catch e =>
          release clone
          throw e
      release r
      if isHashed then
        modifyShape clone fun s => { s with hash := Shape.transitionHash s.hash atom flags }
        register clone
      return (clone, index)
    else
      let index ← extendShape r atom flags
      return (r, index)

/-- Makes the shape the caller owns a reference to ready for changes in place: it has no other owner,
is not in the table, and its version has advanced.  Gives the shape the caller owns from then on. -/
def prepareUpdate (r : Handle) : AllocM Handle := do
  if (← get).refCount? r ≠ some 1 then
    let clone ← cloneShape r
    release r
    modifyShape clone (·.bump)
    return clone
  else
    let s ← shape r
    if s.isHashed then unregister r
    modifyShape r (·.bump)
    return r

end AllocM

end ObjectMemory
