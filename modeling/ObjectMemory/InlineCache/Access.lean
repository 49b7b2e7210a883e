import ObjectMemory.InlineCache.Basic
set_option autoImplicit false

/-!
# Properties through a cache

Reading and assigning properties with a cache in front.  What the cache knows is read or written
directly; what it does not know is looked up in the heap and recorded.  Only plain properties are
recorded, and only own writable ones are assigned directly.
-/

namespace ObjectMemory

namespace HeapM

/-- Looks a property up in the heap, and records where it is if it is plain. -/
def getRecording (c : InlineCache) (r : Handle) (atom : Atom) : HeapM (Value × InlineCache) := do
  let h ← get
  match h.lookup? r atom with
  | none => return (.undefined, c)
  | some l =>
    let c :=
      if l.flags.isData then
        (c.update h atom r l.offset (if l.depth > 0 then some l.holder else none)).2
      else c
    return ((← readSlot l.holder l.offset).getD .undefined, c)

/-- Reads a property of an object or its prototypes through a cache. -/
def getCached (c : InlineCache) (r : Handle) (atom : Atom) : HeapM (Value × InlineCache) := do
  let (hit?, c) := c.lookup (← get) atom r
  match hit? with
  | none => getRecording c r atom
  | some hit =>
    match ← readSlot (hit.proto.getD r) hit.offset with
    | some v => return (v, c)
    | none => getRecording c r atom

end HeapM

namespace AllocM

open HeapM

/-- Assigns to a property in the heap, and records where it is if it is plain and writable. -/
def setRecording (c : InlineCache) (r : Handle) (atom : Atom) (v : Value) :
    AllocM (Bool × InlineCache) := do
  if ← setProperty r atom v then
    let h ← get
    match h.findOwn? r atom with
    | some (offset, flags) =>
      if flags.isPlainWritable then return (true, (c.update h atom r offset none).2)
      else return (true, c)
    | none => return (true, c)
  else return (false, c)

/-- Assigns to a property through a cache that has been asked already. -/
def setAnswered (hit? : Option CacheHit) (c : InlineCache) (r : Handle) (atom : Atom) (v : Value) :
    AllocM (Bool × InlineCache) := do
  match hit? with
  | some ⟨offset, none, flags⟩ =>
    if flags.isPlainWritable then
      writeSlot r offset v
      return (true, c)
    else setRecording c r atom v
  | _ => setRecording c r atom v

/-- Assigns to a property through a cache.  The cache that was asked comes with the outcome, also if
memory runs out. -/
def setCached (c : InlineCache) (r : Handle) (atom : Atom) (v : Value) :
    HeapM (Except OutOfMemory Bool × InlineCache) := do
  let (hit?, c) := c.lookup (← get) atom r
  match ← (setAnswered hit? c r atom v).run with
  | .ok (done, c) => return (.ok done, c)
  | .error e => return (.error e, c)

end AllocM

end ObjectMemory
