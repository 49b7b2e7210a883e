import ObjectMemory.Heap.Objects
set_option autoImplicit false

/-!
# Realms

A realm owns its global object, the intrinsic prototypes and the shape of a new array.  Making one
allocates all of them; if memory runs out on the way, what was made is given up, the latest first.
-/

namespace ObjectMemory.AllocM

open HeapM

/-- Runs an action; if memory runs out, gives up `owned`, the latest first. -/
def guarding {α : Type} (owned : List Handle) (act : AllocM α) : AllocM α := do
  try act
  catch e =>
    releaseAll owned.reverse
    throw e

/-- Flags of the length property of arrays. -/
def lengthFlags : Flags := Flags.writable.union Flags.length

/-- Makes a realm. -/
def newRealm : AllocM Handle := do
  let objectProto ← newObject none
  let functionProto ← guarding [objectProto] (newObject (some objectProto))
  let arrayProto ← guarding [objectProto, functionProto] (newObject (some objectProto))
  let globalObject ←
    guarding [objectProto, functionProto, arrayProto] (newObject (some objectProto))
  let made := [objectProto, functionProto, arrayProto, globalObject]
  let emptyShape ← guarding made (shapeForNewObject (some arrayProto))
  let (arrayShape, _) ←
    guarding (made ++ [emptyShape]) (addProperty emptyShape .length lengthFlags)
  let p ← guarding (made ++ [arrayShape]) (reserve Size.cell)
  install p (.realm ⟨globalObject, objectProto, functionProto, arrayProto, arrayShape⟩) true

end ObjectMemory.AllocM
