import ObjectMemory.Heap.Arrays
import ObjectMemory.Heap.Frames
import ObjectMemory.Heap.Functions
import ObjectMemory.Heap.Realms
import ObjectMemory.Heap.Roots
import ObjectMemory.Proofs.Actions
set_option autoImplicit false

/-!
# Calls

Everything a client can ask of a heap, as data.  A run of the heap is a list of calls; `Call.perform`
is what a call does, and its `Reply` is all the client learns.  Questions that leave the heap as it is
are no calls: they can be asked at any moment.

One call is not the client's: `setRefused` is the allocator changing its mind about what it has room for.
It may come between any two others, so that a run is one with any allocator.
-/

namespace ObjectMemory

/-- One operation of a heap with its arguments. -/
inductive Call where
  | retain (r : Handle)
  | release (r : Handle)
  | dupValue (v : Value)
  | freeValue (v : Value)
  | root (r : Handle)
  | cloneRoot (x : Root)
  | dropRoot (x : Root)
  | flushRoots
  | collect
  | setMemoryLimit (limit : Option Nat)
  | setThreshold (n : Nat)
  | setRefused (requests : List Request)
  | shapeForNewObject (proto : Option Handle)
  | addProperty (shape : Handle) (atom : Atom) (flags : Flags)
  | prepareUpdate (shape : Handle)
  | newObject (proto : Option Handle)
  | newObjectFromShape (shape : Handle) (payload : Payload)
  | getProperty (r : Handle) (atom : Atom)
  | readSlot (r : Handle) (offset : Nat)
  | writeSlot (r : Handle) (offset : Nat) (v : Value)
  | defineProperty (r : Handle) (atom : Atom) (flags : Flags) (v : Value)
  | defineAccessor (r : Handle) (atom : Atom) (flags : Flags) (getter setter : Option Handle)
  | defineCaptured (r : Handle) (atom : Atom) (flags : Flags) (x : Handle)
  | setProperty (r : Handle) (atom : Atom) (v : Value)
  | deleteProperty (r : Handle) (atom : Atom)
  | compactProperties (r : Handle)
  | setPrototype (r : Handle) (proto : Option Handle)
  | preventExtensions (r : Handle)
  | newArray (ctx : Handle)
  | arrayPush (r : Handle) (v : Value)
  | newBytecode (name : Option Atom) (realm : Option Handle) (pool : Array Value)
  | newClosure (proto : Option Handle) (bytecode : Handle) (captured : Array Handle)
      (home : Option Handle)
  | newSuspension (receiver : Value) (values : Array Value) (resolve reject : Value)
  | finishSuspension (r : Handle)
  | newRealm
  | pushFrame (locals : Array Value)
  | getLocal (id : FrameId) (slot : Nat)
  | setLocal (id : FrameId) (slot : Nat) (v : Value)
  | captureVariable (id : FrameId) (slot : Nat)
  | popFrame (id : FrameId)
  | newVariable (v : Value)
  | getVariable (r : Handle)
  | setVariable (r : Handle) (v : Value)
  deriving DecidableEq, Repr, Inhabited

/-- What a call answers. -/
inductive Reply where
  | done
  | flag (b : Bool)
  | count (n : Nat)
  | handle (r : Handle)
  | value (v : Value)
  | optional (v : Option Value)
  | frame (id : FrameId)
  /-- the shape the caller owns from now on, and the index of the new property -/
  | extended (shape : Handle) (index : Nat)
  | exhausted (e : OutOfMemory)
  deriving DecidableEq, Repr, Inhabited

namespace Call

/-- An action and the reply its outcome makes. -/
def answer {α : Type} (act : HeapM α) (reply : α → Reply) : HeapM Reply := do
  return reply (← act)

/-- An action that may run out of memory and the reply its outcome makes. -/
def attempt {α : Type} (act : AllocM α) (reply : α → Reply) : HeapM Reply := do
  match ← act.run with
  | .ok a => return reply a
  | .error e => return .exhausted e

/-- What a call does to the heap, and what it answers. -/
def perform : Call → HeapM Reply
  | retain r => answer (HeapM.retain r) fun _ => .done
  | release r => answer (HeapM.release r) fun _ => .done
  | dupValue v => answer (HeapM.dupValue v) .value
  | freeValue v => answer (HeapM.freeValue v) fun _ => .done
  | root r => answer (HeapM.root r) fun _ => .done
  | cloneRoot x => answer (HeapM.cloneRoot x) fun _ => .done
  | dropRoot x => answer (HeapM.dropRoot x) fun _ => .done
  | flushRoots => answer HeapM.flushRoots fun _ => .done
  | collect => answer HeapM.collect .count
  | setMemoryLimit limit => answer (modify (·.setMemoryLimit limit)) fun _ => .done
  | setThreshold n => answer (modify (·.setThreshold n)) fun _ => .done
  | setRefused requests => answer (modify (·.setRefused requests)) fun _ => .done
  | shapeForNewObject proto => attempt (AllocM.shapeForNewObject proto) .handle
  | addProperty shape atom flags =>
    attempt (AllocM.addProperty shape atom flags) fun p => .extended p.1 p.2
  | prepareUpdate shape => attempt (AllocM.prepareUpdate shape) .handle
  | newObject proto => attempt (AllocM.newObject proto) .handle
  | newObjectFromShape shape payload => attempt (AllocM.newObjectFromShape shape payload) .handle
  | getProperty r atom => answer (HeapM.getProperty r atom) .value
  | readSlot r offset => answer (HeapM.readSlot r offset) .optional
  | writeSlot r offset v => answer (HeapM.writeSlot r offset v) fun _ => .done
  | defineProperty r atom flags v => attempt (AllocM.defineProperty r atom flags v) .flag
  | defineAccessor r atom flags getter setter =>
    attempt (AllocM.defineAccessor r atom flags getter setter) .flag
  | defineCaptured r atom flags x => attempt (AllocM.defineCaptured r atom flags x) .flag
  | setProperty r atom v => attempt (AllocM.setProperty r atom v) .flag
  | deleteProperty r atom => attempt (AllocM.deleteProperty r atom) .flag
  | compactProperties r => attempt (AllocM.compactProperties r) fun _ => .done
  | setPrototype r proto => attempt (AllocM.setPrototype r proto) .flag
  | preventExtensions r => answer (HeapM.preventExtensions r) fun _ => .done
  | newArray ctx => attempt (AllocM.newArray ctx) .handle
  | arrayPush r v => attempt (AllocM.arrayPush r v) fun _ => .done
  | newBytecode name realm pool => attempt (AllocM.newBytecode name realm pool) .handle
  | newClosure proto bytecode captured home =>
    attempt (AllocM.newClosure proto bytecode captured home) .handle
  | newSuspension receiver values resolve reject =>
    attempt (AllocM.newSuspension receiver values resolve reject) .handle
  | finishSuspension r => answer (HeapM.finishSuspension r) fun _ => .done
  | newRealm => attempt AllocM.newRealm .handle
  | pushFrame locals => attempt (AllocM.pushFrame locals) .frame
  | getLocal id slot => answer (HeapM.getLocal id slot) .optional
  | setLocal id slot v => answer (HeapM.setLocal id slot v) fun _ => .done
  | captureVariable id slot => attempt (AllocM.captureVariable id slot) .handle
  | popFrame id => answer (HeapM.popFrame id) fun _ => .done
  | newVariable v => attempt (AllocM.newVariable v) .handle
  | getVariable r => answer (HeapM.getVariable r) .value
  | setVariable r v => answer (HeapM.setVariable r v) fun _ => .done

variable {α : Type} {h h' : Heap} {reply : Reply}

theorem answer_eq_ok {act : HeapM α} {f : α → Reply} (e : answer act f h = .ok (reply, h')) :
    ∃ a, act h = .ok (a, h') ∧ reply = f a := by
  obtain ⟨a, h₁, ha, e⟩ := HeapM.bind_eq_ok e
  cases e
  exact ⟨a, ha, rfl⟩

theorem answer_eq_error {act : HeapM α} {f : α → Reply} {err : Fault} (e : answer act f h = .error err) :
    act h = .error err := by
  unfold answer at e
  rw [HeapM.bind_apply] at e
  split at e
  · cases e
  · rename_i ha
    cases e
    exact ha

theorem attempt_eq_ok {act : AllocM α} {f : α → Reply} (e : attempt act f h = .ok (reply, h')) :
    (∃ a, act.run h = .ok (.ok a, h') ∧ reply = f a) ∨
      ∃ err, act.run h = .ok (.error err, h') ∧ reply = .exhausted err := by
  obtain ⟨res, h₁, ha, e⟩ := HeapM.bind_eq_ok e
  cases res with
  | ok a =>
    cases e
    exact .inl ⟨a, ha, rfl⟩
  | error err =>
    cases e
    exact .inr ⟨err, ha, rfl⟩

/-- A call that may run out of memory is as sure to end well as its action. -/
theorem yields_attempt {bars : Fault → Bool} {R : Except OutOfMemory α × Heap → Prop} {act : AllocM α}
    {f : α → Reply} (hact : Yields bars R (act.run h)) : Yields bars (fun _ => True) (attempt act f h) := by
  refine HeapM.yields_bind hact fun res h₁ _ _ => ?_
  cases res with
  | ok a => trivial
  | error err => trivial

end Call

end ObjectMemory
