import ObjectMemory.Heap.Objects
set_option autoImplicit false

/-!
# Functions and suspended calls

Compiled functions, the closures made of them, and the state of asynchronous calls that wait.
-/

namespace ObjectMemory

namespace HeapM

/-- Marks a suspended call as completed and gives up what it had saved; its outcome functions stay. -/
def finishSuspension (r : Handle) : HeapM Unit := do
  match (← get).suspension? r with
  | none => fault (.notSuspension r)
  | some s =>
    if s.active then
      modify (·.modifyBody r.index fun _ =>
        .suspension { s with active := false, receiver := .undefined, values := #[] })
      freeValue s.receiver
      freeValues s.values

end HeapM

namespace AllocM

open HeapM

/-- Makes a compiled function.  It takes over the constants; the realm remains the caller's as well. -/
def newBytecode (name : Option Atom) (realm : Option Handle) (pool : Array Value) : AllocM Handle := do
  let p ← reserveOr (Size.cellWithValues pool.size) (pool.toList.filterMap Value.ref?)
  retainOption realm
  install p (.bytecode ⟨pool, realm, name⟩) true

/-- Makes a closure.  It takes over the captured variables; the function and the home object remain
the caller's as well. -/
def newClosure (proto : Option Handle) (bytecode : Handle) (captured : Array Handle)
    (home : Option Handle) : AllocM Handle := do
  retain bytecode
  retainOption home
  let payload := Payload.closure bytecode captured home
  let shape ←
    try shapeForNewObject proto
    catch e =>
      releaseAll payload.refs
      throw e
  newObjectFromShape shape payload

/-- Makes a suspended call, which takes over all values. -/
def newSuspension (receiver : Value) (values : Array Value) (resolve reject : Value) :
    AllocM Handle := do
  let s : Suspension := ⟨true, receiver, values, resolve, reject⟩
  let p ← reserveOr (Size.cellWithValues values.size) s.refs
  install p (.suspension s) true

end AllocM

end ObjectMemory
