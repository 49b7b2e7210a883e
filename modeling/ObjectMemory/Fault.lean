import ObjectMemory.Atom
import ObjectMemory.Frame
import ObjectMemory.Object
set_option autoImplicit false

/-!
# Faults

A fault is a broken promise: a stale handle, a cell of the wrong kind, a count below zero, or state
that contradicts itself.  No operation recovers from one.  `Fault.message` is the one place where
their wording is given.
-/

namespace ObjectMemory

/-- Why an operation cannot go on. -/
inductive Fault where
  | staleRetain (r : Handle)
  | staleRelease (r : Handle)
  | staleRoot (r : Handle)
  /-- a release of a cell that nobody refers to -/
  | countUnderflow (r : Handle)
  | finalizedTwice (index : Nat)
  | notFinalizable (index : Nat)
  | notFreeable (r : Handle)
  | tooManySlots
  | slotOccupied (index : Nat)
  | slotVacant (index : Nat)
  | alreadyListed (index : Nat)
  /-- trial deletion found more references than the count tells -/
  | trialUnderflow (index : Nat)
  /-- garbage that nobody freed is left after a collection -/
  | survivor
  | notShape (r : Handle)
  | shapeRegisteredTwice (r : Handle)
  | shapeNotRegistered (r : Handle)
  | shapeMissing (r : Handle)
  | entryMissing (atom : Atom)
  | notObject (r : Handle)
  | notPlain (offset : Nat) (r : Handle)
  | notCaptured (stored : Property)
  | notArray (r : Handle)
  | notRealm (r : Handle)
  | notVariable (r : Handle)
  | notSuspension (r : Handle)
  | frameDead (id : FrameId)
  | framePoppedTwice (id : FrameId)
  | captureFromDead (id : FrameId)
  | captureOutside (slot : Nat) (id : FrameId)
  | openVariableStale (r : Handle) (id : FrameId)
  | openVariableDetached (r : Handle) (id : FrameId)
  | variableOfDeadFrame (r : Handle) (id : FrameId)
  /-- an index beyond the end of a sequence -/
  | outOfRange
  /-- a subtraction below zero -/
  | arithmetic
  /-- a broken condition that has no wording of its own -/
  | assertion
  deriving DecidableEq, Repr, Inhabited

namespace Fault

/-- The wording of a fault, for those that have one. -/
def message : Fault → Option String
  | staleRetain r => some ("retain of stale handle " ++ r.text)
  | staleRelease r => some ("release of stale handle " ++ r.text)
  | staleRoot r => some ("rooting stale handle " ++ r.text)
  | countUnderflow r => some ("refcount underflow on " ++ r.text)
  | finalizedTwice i => some ("cell " ++ toString i ++ " finalized twice")
  | notFinalizable i => some ("cell " ++ toString i ++ " is not an object or function bytecode")
  | notFreeable r => some ("cell " ++ r.text ++ " cannot be freed immediately")
  | tooManySlots => some "heap slot index overflow"
  | slotOccupied i => some ("reserved slot " ++ toString i ++ " is occupied")
  | slotVacant i => some ("slot " ++ toString i ++ " is vacant")
  | alreadyListed i => some ("cell " ++ toString i ++ " is already linked")
  | trialUnderflow i => some ("decref below zero on slot " ++ toString i)
  | survivor => some "only zombies may outlive cycle removal"
  | notShape r => some (r.text ++ " is not a live shape")
  | shapeRegisteredTwice r => some (r.text ++ " is already hashed")
  | shapeNotRegistered r => some (r.text ++ " is not hashed")
  | shapeMissing r => some ("hashed shape " ++ r.text ++ " missing from its bucket")
  | entryMissing a => some ("property " ++ a.text ++ " missing from its bucket")
  | notObject r => some (r.text ++ " is not a live object")
  | notPlain n r => some ("slot " ++ toString n ++ " of " ++ r.text ++ " is not a plain value")
  | notCaptured p => some ("var-ref property stored as " ++ p.describe)
  | notArray r => some (r.text ++ " is not an array")
  | notRealm r => some (r.text ++ " is not a live context")
  | notVariable r => some (r.text ++ " is not a live var ref")
  | notSuspension r => some (r.text ++ " is not a live async frame")
  | frameDead id => some (id.text ++ " is not live")
  | framePoppedTwice id => some (id.text ++ " popped twice")
  | captureFromDead id => some ("capture from " ++ id.text ++ " which is not live")
  | captureOutside n id => some ("capture of slot " ++ toString n ++ " outside " ++ id.text)
  | openVariableStale r id => some ("open var ref " ++ r.text ++ " of " ++ id.text ++ " is stale")
  | openVariableDetached r id =>
    some ("var ref " ++ r.text ++ " of " ++ id.text ++ " is already detached")
  | variableOfDeadFrame r id =>
    some ("var ref " ++ r.text ++ " is attached to dead " ++ id.text)
  | outOfRange | arithmetic | assertion => none

end Fault

end ObjectMemory
