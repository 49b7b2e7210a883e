import ObjectMemory.Proofs.CacheAgreement
import ObjectMemory.Proofs.Capturing
import ObjectMemory.Proofs.Operation
set_option autoImplicit false

/-!
# Clients that keep their books

A client owns references.  Every operation moves some of them: what it is handed to keep it takes over,
also if it refuses or memory runs out, and what it makes or copies it hands over.  `Ledger` is what the
client owns, and `Operation.settle` is the ledger after an operation.

A client keeps its books if it gives away only what it owns and lets the heap refer only to cells of the
right kind (`Operation.Permitted`).  It need not own what it reads or changes, and the handles it asks
about may be stale: an operation that cannot go on ends in a fault.

For the heaps such a client comes to (`Client.Reached`), the main statement is that every count is the
number of references there are.
-/

namespace ObjectMemory

/-! ## What operations move -/

namespace InlineCache

/-- The slot that an assignment through the cache writes without a look into the heap. -/
def direct? (c : InlineCache) (h : Heap) (atom : Atom) (r : Handle) : Option Nat :=
  match (c.lookup h atom r).1 with
  | some ⟨i, none, flags⟩ => if flags.isPlainWritable then some i else none
  | _ => none

theorem lookup_of_direct? {c : InlineCache} {h : Heap} {atom : Atom} {r : Handle} {i : Nat}
    (hi : c.direct? h atom r = some i) : ∃ flags, (c.lookup h atom r).1 = some ⟨i, none, flags⟩ := by
  unfold direct? at hi
  split at hi
  · rename_i j flags hlookup
    split at hi
    · cases hi
      exact ⟨flags, hlookup⟩
    · cases hi
  · cases hi

end InlineCache

namespace Reply

/-- The counted references an answer hands over. -/
def refs : Reply → List Handle
  | handle r => [r]
  | value v => v.ref?.toList
  | optional v => (v.bind Value.ref?).toList
  | extended shape _ => [shape]
  | done | flag _ | count _ | frame _ | exhausted _ => []

end Reply

namespace Call

/-- The references a call takes over. -/
def consumed : Call → List Handle
  | release r => [r]
  | freeValue v => v.ref?.toList
  | dropRoot x => [x.handle]
  | addProperty shape _ _ => [shape]
  | prepareUpdate shape => [shape]
  | newObjectFromShape shape payload => shape :: payload.refs
  | writeSlot _ _ v => v.ref?.toList
  | defineProperty _ _ _ v => v.ref?.toList
  | defineCaptured _ _ _ x => [x]
  | setProperty _ _ v => v.ref?.toList
  | arrayPush _ v => v.ref?.toList
  | newBytecode _ _ pool => pool.toList.filterMap Value.ref?
  | newClosure _ _ captured _ => captured.toList
  | newSuspension receiver values resolve reject =>
    Suspension.refs ⟨true, receiver, values, resolve, reject⟩
  | pushFrame locals => locals.toList.filterMap Value.ref?
  | setLocal _ _ v => v.ref?.toList
  | newVariable v => v.ref?.toList
  | setVariable _ v => v.ref?.toList
  | _ => []

/-- The cells a call lets the heap refer to, and the kind each has to be of. -/
def named : Call → List (Handle × Kind)
  | shapeForNewObject proto => proto.toList.map (·, .object)
  | newObject proto => proto.toList.map (·, .object)
  | newObjectFromShape _ payload => payload.typedRefs
  | writeSlot _ _ v => v.typedRef?.toList
  | defineProperty _ _ _ v => v.typedRef?.toList
  | defineAccessor _ _ _ getter setter => (Property.accessor getter setter).typedRefs
  | defineCaptured _ _ _ x => [(x, .captured)]
  | setProperty _ _ v => v.typedRef?.toList
  | setPrototype _ proto => proto.toList.map (·, .object)
  | arrayPush _ v => v.typedRef?.toList
  | newBytecode _ realm pool =>
    pool.toList.filterMap Value.typedRef? ++ realm.toList.map (·, .realm)
  | newClosure proto bytecode captured home =>
    proto.toList.map (·, .object) ++ (Payload.closure bytecode captured home).typedRefs
  | newSuspension receiver values resolve reject =>
    Suspension.typedRefs ⟨true, receiver, values, resolve, reject⟩
  | pushFrame locals => locals.toList.filterMap Value.typedRef?
  | setLocal _ _ v => v.typedRef?.toList
  | newVariable v => v.typedRef?.toList
  | setVariable _ v => v.typedRef?.toList
  | _ => []

/-- The references a call hands over.  A shape that could not be changed for want of memory is handed
back. -/
def gained : Call → Reply → List Handle
  | retain r, _ => [r]
  | cloneRoot x, _ => [x.handle]
  | addProperty shape _ _, .exhausted _ => [shape]
  | prepareUpdate shape, .exhausted _ => [shape]
  | _, reply => reply.refs

/-- The call adds an element to an array. -/
def isPush : Call → Bool
  | arrayPush _ _ => true
  | _ => false

/-- The call makes no object and no realm and edits none, nor a shape in place: whatever it does cannot
be seen on an object that is there. -/
def isMute : Call → Bool
  | newObject _ | newClosure .. | newArray _ | newRealm | newObjectFromShape .. | prepareUpdate _
  | defineProperty .. | defineAccessor .. | defineCaptured .. | setProperty .. | writeSlot ..
  | arrayPush .. | deleteProperty .. | compactProperties _ | setPrototype .. | preventExtensions _ => false
  | _ => true

end Call

namespace Operation

/-- The references an operation takes over. -/
def consumed : Operation → List Handle
  | call c => c.consumed
  | get _ _ _ => []
  | set _ _ _ v => v.ref?.toList

/-- The cells an operation lets the heap refer to, and the kind each has to be of. -/
def named : Operation → List (Handle × Kind)
  | call c => c.named
  | get _ _ _ => []
  | set _ _ _ v => v.typedRef?.toList

/-- The references an operation hands over. -/
def gained : Operation → Reply → List Handle
  | call c, reply => c.gained reply
  | get _ _ _, reply => reply.refs
  | set _ _ _ _, reply => reply.refs

/-- The operation adds an element to an array. -/
def isPush : Operation → Bool
  | call c => c.isPush
  | _ => false

/-- The references that an operation writes over without giving them up: those that the length slot held
of an array that was pushed to. -/
def overwritten (h : Heap) : Operation → Reply → List Handle
  | call (.arrayPush r _), .done => h.lengthRefs r
  | _, _ => []

/-- Only an operation that adds an element to an array writes over references. -/
theorem overwritten_of_not_push {h : Heap} (op : Operation) (hpush : op.isPush = false) (reply : Reply) :
    op.overwritten h reply = [] := by
  unfold overwritten
  split
  · cases hpush
  · rfl

/-- A client that owns `x` may ask this of the heap: it owns what it gives away, and the cells it lets
the heap refer to are there and of the right kind. -/
structure Permitted (x : Ledger) (h : Heap) (op : Operation) : Prop where
  owned : ∀ r, op.consumed.count r ≤ x r
  named : h.Names op.named

/-- An operation that takes nothing over and names nothing is open to every client. -/
theorem Permitted.of_nothing {x : Ledger} {h : Heap} {op : Operation} (hconsumed : op.consumed = [])
    (hnamed : op.named = []) : op.Permitted x h :=
  ⟨fun r => by simp [hconsumed], fun p hp => by simp [hnamed] at hp⟩

/-- An operation that takes over one reference and names nothing is open to a client that owns it. -/
theorem Permitted.of_owned {x : Ledger} {h : Heap} {op : Operation} {r : Handle} (howned : 0 < x r)
    (hconsumed : op.consumed = [r]) (hnamed : op.named = []) : op.Permitted x h := by
  refine ⟨fun q => ?_, fun p hp => by simp [hnamed] at hp⟩
  rw [hconsumed, List.count_singleton]
  split
  · rename_i hq
    rw [← beq_iff_eq.mp hq]
    exact howned
  · exact Nat.zero_le _

/-- What a client that owned `x` owns after an operation. -/
def settle (x : Ledger) (op : Operation) (reply : Reply) : Ledger :=
  (x.minus op.consumed).plus (op.gained reply)

theorem settle_apply (x : Ledger) (op : Operation) (reply : Reply) (r : Handle) :
    op.settle x reply r = x r - op.consumed.count r + (op.gained reply).count r := rfl

/-- A client owns what it was handed. -/
theorem settle_pos {op : Operation} {reply : Reply} {r : Handle} (x : Ledger) (hgained : r ∈ op.gained reply) :
    0 < op.settle x reply r := by
  rw [settle_apply]
  exact Nat.lt_of_lt_of_le (List.count_pos_iff.mpr hgained) (Nat.le_add_left _ _)

end Operation

/-! ## One operation -/

namespace Heap

variable {x y : Ledger} {h h' : Heap} {reply : Reply}

theorem Valid.of_eq (hv : h.Valid x) (he : ∀ r, x r = y r) : h.Valid y :=
  ⟨hv.sound.of_eq he, hv.laid⟩

/-- The ledger is `y` afterwards.  The shapes of `x`, the part of the ledger that was kept back, are what
they were. -/
structure Passes (x y : Ledger) (h h' : Heap) : Prop where
  valid : h'.Valid y
  steady : Steady x h h'

/-- The ledger is `y` afterwards, and all is seen as it was. -/
structure PassesUnseen (x y : Ledger) (h h' : Heap) : Prop extends Passes x y h h' where
  apart : Apart [] h h'

theorem Rests.passes (e : Rests y h h') : PassesUnseen x y h h' := ⟨⟨e.valid, e.steady⟩, e.apart⟩

theorem GivesUp.passes (e : GivesUp x h h') : PassesUnseen x x h h' := ⟨⟨e.valid, e.steady⟩, e.apart⟩

theorem Hands.passes {s : Handle} {t : Shape} (e : Hands x s t h h') : PassesUnseen x (x.plus [s]) h h' :=
  ⟨⟨e.valid, e.steady⟩, e.apart⟩

/-- A shape that could not be changed is handed back. -/
theorem GivesUp.passes_back {s : Handle} (e : GivesUp (x.plus [s]) h h') :
    PassesUnseen x (x.plus [s]) h h' := ⟨⟨e.valid, e.steady.of_plus⟩, e.apart⟩

/-- However a call that may run out of memory ends, it hands over what it answers. -/
theorem Passes.of_attempt {α : Type} {act : AllocM α} {f : α → Reply}
    (hact : ∀ res h₁, act.run h = .ok (res, h₁) →
      (∃ a, res = .ok a ∧ Passes x (x.plus (f a).refs) h h₁) ∨ (∃ err, res = .error err) ∧ Passes x x h h₁)
    (e : Call.attempt act f h = .ok (reply, h')) : Passes x (x.plus reply.refs) h h' := by
  rcases Call.attempt_eq_ok e with ⟨a, hrun, rfl⟩ | ⟨err, hrun, rfl⟩
  · rcases hact _ _ hrun with ⟨_, hres, hv⟩ | ⟨⟨_, hres⟩, _⟩
    · cases hres
      exact hv
    · cases hres
  · rcases hact _ _ hrun with ⟨_, hres, _⟩ | ⟨_, hv⟩
    · cases hres
    · simpa [Reply.refs] using hv

/-- A call that makes a cell that is not seen. -/
theorem PassesUnseen.of_attempt {act : AllocM Handle}
    (hact : ∀ res h₁, act.run h = .ok (res, h₁) →
      (∃ r, res = .ok r ∧ PassesUnseen x (x.plus [r]) h h₁) ∨ (∃ err, res = .error err) ∧ GivesUp x h h₁)
    (e : Call.attempt act .handle h = .ok (reply, h')) : PassesUnseen x (x.plus reply.refs) h h' := by
  rcases Call.attempt_eq_ok e with ⟨r, hrun, rfl⟩ | ⟨err, hrun, rfl⟩
  · rcases hact _ _ hrun with ⟨_, hres, hl⟩ | ⟨⟨_, hres⟩, _⟩
    · cases hres
      exact hl
    · cases hres
  · rcases hact _ _ hrun with ⟨_, hres, _⟩ | ⟨_, hl⟩
    · cases hres
    · simpa [Reply.refs] using hl.passes

/-- A call that makes a cell without a layout. -/
theorem Rests.of_attempt {act : AllocM Handle}
    (hact : ∀ res h₁, act.run h = .ok (res, h₁) →
      (∃ r, res = .ok r ∧ Rests (x.plus [r]) h h₁) ∨ (∃ err, res = .error err) ∧ GivesUp x h h₁)
    (e : Call.attempt act .handle h = .ok (reply, h')) : PassesUnseen x (x.plus reply.refs) h h' :=
  PassesUnseen.of_attempt
    (fun res h₁ hrun => (hact res h₁ hrun).imp_left fun ⟨r, hres, hl⟩ => ⟨r, hres, hl.passes⟩) e

/-- A call that neither makes nor edits an object leaves what is seen of objects. -/
theorem Valid.passes_of_call (call : Call) (hmute : call.isMute = true)
    (hv : h.Valid (x.plus call.consumed)) (hn : h.Names call.named)
    (e : call.perform h = .ok (reply, h')) : PassesUnseen x (x.plus (call.gained reply)) h h' := by
  cases call with
  | retain r =>
    obtain ⟨_, e₁, rfl⟩ := Call.answer_eq_ok e
    obtain ⟨hs, hk, _⟩ := hv.sound.retain e₁
    exact (hv.rests ⟨hs, hk⟩).passes
  | release r =>
    obtain ⟨_, e₁, rfl⟩ := Call.answer_eq_ok e
    exact (hv.rests (hv.sound.of_release e₁)).passes
  | dupValue v =>
    obtain ⟨v', e₁, rfl⟩ := Call.answer_eq_ok e
    exact (hv.of_dupValue e₁).passes
  | freeValue v =>
    obtain ⟨_, e₁, rfl⟩ := Call.answer_eq_ok e
    exact (hv.rests (hv.sound.of_freeValue e₁)).passes
  | root r =>
    obtain ⟨a, e₁, rfl⟩ := Call.answer_eq_ok e
    exact (hv.of_root e₁).2.passes
  | cloneRoot a =>
    obtain ⟨b, e₁, rfl⟩ := Call.answer_eq_ok e
    exact (hv.of_cloneRoot e₁).2.passes
  | dropRoot a =>
    obtain ⟨_, e₁, rfl⟩ := Call.answer_eq_ok e
    exact (Valid.of_dropRoot hv e₁).passes
  | flushRoots =>
    obtain ⟨_, e₁, rfl⟩ := Call.answer_eq_ok e
    exact (hv.rests (hv.sound.of_flushRoots e₁)).passes
  | collect =>
    obtain ⟨k, e₁, rfl⟩ := Call.answer_eq_ok e
    exact (hv.rests (hv.sound.of_collect e₁)).passes
  | setMemoryLimit limit =>
    obtain ⟨_, e₁, rfl⟩ := Call.answer_eq_ok e
    cases HeapM.modify_eq_ok e₁
    exact Rests.passes (hv.rests ⟨hv.sound.of_same (.of_slots rfl) rfl rfl rfl rfl rfl rfl rfl, .of_slots rfl⟩)
  | setThreshold k =>
    obtain ⟨_, e₁, rfl⟩ := Call.answer_eq_ok e
    cases HeapM.modify_eq_ok e₁
    exact Rests.passes (hv.rests ⟨hv.sound.of_same (.of_slots rfl) rfl rfl rfl rfl rfl rfl rfl, .of_slots rfl⟩)
  | setRefused requests =>
    obtain ⟨_, e₁, rfl⟩ := Call.answer_eq_ok e
    cases HeapM.modify_eq_ok e₁
    exact Rests.passes (hv.rests ⟨hv.sound.of_same (.of_slots rfl) rfl rfl rfl rfl rfl rfl rfl, .of_slots rfl⟩)
  | shapeForNewObject proto =>
    refine PassesUnseen.of_attempt (fun res h₁ hrun => ?_) e
    have hv : h.Valid x := hv
    rcases hv.of_shapeForNewObject hn hrun with ⟨s, t, hres, hl, _⟩ | herr
    · exact .inl ⟨s, hres, hl.passes⟩
    · exact .inr herr
  | addProperty shape atom flags =>
    rcases Call.attempt_eq_ok e with ⟨p, hrun, rfl⟩ | ⟨err, hrun, rfl⟩
    · rcases Valid.of_addProperty hv hrun with ⟨new, index, _, _, hres, hl, _⟩ | ⟨⟨_, hres⟩, _⟩
      · cases hres
        exact hl.passes
      · cases hres
    · rcases Valid.of_addProperty hv hrun with ⟨_, _, _, _, hres, _⟩ | ⟨_, hl⟩
      · cases hres
      · exact hl.passes_back
  | getProperty r atom =>
    obtain ⟨v, e₁, rfl⟩ := Call.answer_eq_ok e
    exact (hv.of_getProperty e₁).passes
  | readSlot r offset =>
    obtain ⟨v, e₁, rfl⟩ := Call.answer_eq_ok e
    exact (hv.of_readSlot e₁).passes
  | newBytecode name realm pool =>
    obtain ⟨hpool, hrealm⟩ := Names.append_iff.mp hn
    exact Rests.of_attempt (fun _ _ => Valid.of_newBytecode hv hpool hrealm) e
  | newSuspension receiver values resolve reject =>
    exact Rests.of_attempt (fun _ _ => Valid.of_newSuspension hv hn) e
  | finishSuspension r =>
    obtain ⟨_, e₁, rfl⟩ := Call.answer_eq_ok e
    exact (hv.of_finishSuspension e₁).passes
  | pushFrame locals =>
    rcases Call.attempt_eq_ok e with ⟨_, hrun, rfl⟩ | ⟨_, hrun, rfl⟩
    · exact (Valid.of_pushFrame hv hn hrun).elim (·.2.passes) (·.2.passes)
    · exact (Valid.of_pushFrame hv hn hrun).elim (·.2.passes) (·.2.passes)
  | getLocal id slot =>
    obtain ⟨v, e₁, rfl⟩ := Call.answer_eq_ok e
    exact (hv.of_getLocal e₁).passes
  | setLocal id slot v =>
    obtain ⟨_, e₁, rfl⟩ := Call.answer_eq_ok e
    obtain ⟨hv', hk, _⟩ := Valid.of_setLocal hv hn e₁
    exact ⟨⟨hv', .of_keeps hk⟩, .of_keeps hk⟩
  | captureVariable id slot =>
    have hv : h.Valid x := hv
    exact Rests.of_attempt (fun _ _ => hv.of_captureVariable) e
  | popFrame id =>
    obtain ⟨_, e₁, rfl⟩ := Call.answer_eq_ok e
    exact (hv.of_popFrame e₁).passes
  | newVariable v =>
    exact Rests.of_attempt (fun _ _ => Valid.of_newVariable hv hn) e
  | getVariable r =>
    obtain ⟨v, e₁, rfl⟩ := Call.answer_eq_ok e
    exact (hv.of_getVariable e₁).passes
  | setVariable r v =>
    obtain ⟨_, e₁, rfl⟩ := Call.answer_eq_ok e
    exact (Valid.of_setVariable hv hn e₁).1.passes
  | _ => cases hmute

/-- An operation on an object hands over nothing. -/
theorem Performs.of_attempt {act : AllocM Bool} {r : Handle} {op : Record → Bool × Record}
    (hact : ∀ res h₁, act.run h = .ok (res, h₁) →
      (∃ done, res = .ok done ∧ Performs x r op done h h₁) ∨ (∃ err, res = .error err) ∧ GivesUp x h h₁)
    (e : Call.attempt act .flag h = .ok (reply, h')) :
    (∃ done, reply = .flag done ∧ Performs x r op done h h') ∨
      (∃ err, reply = .exhausted err) ∧ GivesUp x h h' := by
  rcases Call.attempt_eq_ok e with ⟨done, hrun, rfl⟩ | ⟨err, hrun, rfl⟩
  · rcases hact _ _ hrun with ⟨_, hres, hdone⟩ | ⟨⟨_, hres⟩, _⟩
    · cases hres
      exact .inl ⟨done, rfl, hdone⟩
    · cases hres
  · rcases hact _ _ hrun with ⟨_, hres, _⟩ | ⟨_, hl⟩
    · cases hres
    · exact .inr ⟨⟨err, rfl⟩, hl⟩

theorem Performs.passes_of_attempt {act : AllocM Bool} {r : Handle} {op : Record → Bool × Record}
    (hact : ∀ res h₁, act.run h = .ok (res, h₁) →
      (∃ done, res = .ok done ∧ Performs x r op done h h₁) ∨ (∃ err, res = .error err) ∧ GivesUp x h h₁)
    (e : Call.attempt act .flag h = .ok (reply, h')) : Passes x (x.plus reply.refs) h h' := by
  rcases Performs.of_attempt hact e with ⟨done, rfl, hp⟩ | ⟨⟨err, rfl⟩, hl⟩
  · exact ⟨hp.valid, hp.steady⟩
  · exact ⟨hl.valid, hl.steady⟩

theorem Valid.of_setProperty {r : Handle} {atom : Atom} {v : Value} {res : Except OutOfMemory Bool}
    (hv : h.Valid (x.plus v.ref?.toList)) (hnames : h.Names v.typedRef?.toList)
    (e : (AllocM.setProperty r atom v).run h = .ok (res, h')) :
    Passes x x h h' ∧ ∀ err, res = .error err → GivesUp x h h' := by
  rcases Valid.of_assign hv hnames e with ⟨_, hres, hp, _⟩ | ⟨_, hl⟩
  · exact ⟨⟨hp.valid, hp.steady⟩, fun err herr => by cases hres.symm.trans herr⟩
  · exact ⟨⟨hl.valid, hl.steady⟩, fun _ _ => hl⟩

/-- A call takes the references it consumes from the ledger and leaves there what it hands over. -/
theorem Valid.of_call (call : Call) (hpush : call.isPush = false) (hv : h.Valid (x.plus call.consumed))
    (hn : h.Names call.named) (e : call.perform h = .ok (reply, h')) :
    Passes x (x.plus (call.gained reply)) h h' := by
  by_cases hmute : call.isMute = true
  · exact (Valid.passes_of_call call hmute hv hn e).toPasses
  cases call with
  | prepareUpdate shape =>
    rcases Call.attempt_eq_ok e with ⟨p, hrun, rfl⟩ | ⟨err, hrun, rfl⟩
    · rcases Valid.of_prepareUpdate hv hrun with ⟨new, _, hres, hl⟩ | ⟨⟨_, hres⟩, _⟩
      · cases hres
        exact ⟨hl.valid, hl.steady⟩
      · cases hres
    · rcases Valid.of_prepareUpdate hv hrun with ⟨_, _, hres, _⟩ | ⟨_, hl⟩
      · cases hres
      · exact ⟨hl.valid, hl.steady.of_plus⟩
  | newObject proto =>
    refine Passes.of_attempt (fun res h₁ hrun => ?_) e
    have hv : h.Valid x := hv
    rcases hv.of_newObject hn hrun with ⟨r, hres, hi⟩ | ⟨herr, hl⟩
    · exact .inl ⟨r, hres, hi.valid, hi.steady⟩
    · exact .inr ⟨herr, hl.valid, hl.steady⟩
  | newObjectFromShape shape payload =>
    refine Passes.of_attempt (fun res h₁ hrun => ?_) e
    rcases Valid.of_newObjectFromShape payload hv hn hrun with ⟨r, _, _, hres, _, ha⟩ | ⟨herr, hl⟩
    · exact .inl ⟨r, hres, ha.valid, .of_others ha.body ha.others (by simp [Body.kind])⟩
    · exact .inr ⟨herr, hl.valid, hl.steady⟩
  | writeSlot r offset v =>
    obtain ⟨_, e₁, rfl⟩ := Call.answer_eq_ok e
    obtain ⟨hv', hsteady, _⟩ := Valid.of_writeSlot hv hn e₁
    exact ⟨hv', hsteady⟩
  | defineProperty r atom flags v =>
    exact Performs.passes_of_attempt (fun _ _ => Valid.of_defineOwn (p := .value v) hv hn) e
  | defineAccessor r atom flags getter setter =>
    have hv : h.Valid x := hv
    exact Performs.passes_of_attempt (fun _ _ => hv.of_defineAccessor hn) e
  | defineCaptured r atom flags a =>
    exact Performs.passes_of_attempt (fun _ _ => Valid.of_defineOwn (p := .captured a) hv hn) e
  | setProperty r atom v =>
    rcases Call.attempt_eq_ok e with ⟨_, hrun, rfl⟩ | ⟨_, hrun, rfl⟩
    · exact (Valid.of_setProperty hv hn hrun).1
    · exact (Valid.of_setProperty hv hn hrun).1
  | deleteProperty r atom =>
    have hv : h.Valid x := hv
    refine Passes.of_attempt (fun res h₁ hrun => ?_) e
    cases ho : h.object? r with
    | none =>
      obtain ⟨rfl, rfl⟩ := deleteProperty_of_absent (by simp [findOwn?, ho]) hrun
      exact .inl ⟨true, rfl, hv, .refl x _⟩
    | some o =>
      rcases hv.of_deleteProperty (object?_iff_body?.mp ho) hrun with ⟨done, hres, hp⟩ | ⟨herr, hl⟩
      · exact .inl ⟨done, hres, hp.valid, hp.steady⟩
      · exact .inr ⟨herr, hl.valid, hl.steady⟩
  | compactProperties r =>
    have hv : h.Valid x := hv
    refine Passes.of_attempt (fun res h₁ hrun => ?_) e
    rcases hv.of_compactProperties hrun with ⟨hres, hv', hsteady, _⟩ | ⟨herr, hl, hsteady⟩
    · exact .inl ⟨(), hres, hv', hsteady⟩
    · exact .inr ⟨herr, hl.valid, hsteady⟩
  | setPrototype r proto =>
    have hv : h.Valid x := hv
    exact Performs.passes_of_attempt (fun _ _ => hv.of_setPrototype hn) e
  | preventExtensions r =>
    obtain ⟨_, e₁, rfl⟩ := Call.answer_eq_ok e
    exact ⟨(hv.of_preventExtensions e₁).1, steady_of_modifyObject e₁⟩
  | newArray ctx =>
    have hv : h.Valid x := hv
    refine Passes.of_attempt (fun res h₁ hrun => ?_) e
    rcases hv.of_newArray hrun with ⟨r, _, _, _, _, hres, _, hi, _⟩ | ⟨herr, hl⟩
    · exact .inl ⟨r, hres, hi.valid, hi.steady⟩
    · exact .inr ⟨herr, hl.valid, hl.steady⟩
  | arrayPush r v => cases hpush
  | newClosure proto bytecode captured home =>
    obtain ⟨hproto, hnames⟩ := Names.append_iff.mp hn
    refine Passes.of_attempt (fun res h₁ hrun => ?_) e
    rcases Valid.of_newClosure hv hproto hnames hrun with ⟨r, hres, hi⟩ | ⟨herr, hl⟩
    · exact .inl ⟨r, hres, hi.valid, hi.steady⟩
    · exact .inr ⟨herr, hl.valid, hl.steady⟩
  | newRealm =>
    have hv : h.Valid x := hv
    refine Passes.of_attempt (fun res h₁ hrun => ?_) e
    rcases hv.of_newRealm hrun with ⟨r, _, hres, hf⟩ | ⟨herr, hl⟩
    · exact .inl ⟨r, hres, hf.valid, hf.steady⟩
    · exact .inr ⟨herr, hl.valid, hl.steady⟩
  | _ => exact absurd rfl hmute

/-- Reading through a cache hands over what was read, as reading does. -/
theorem Valid.of_getRecording {cache cache' : InlineCache} {r : Handle} {atom : Atom} {v : Value}
    (hv : h.Valid x) (e : HeapM.getRecording cache r atom h = .ok ((v, cache'), h')) :
    Rests (x.plus v.ref?.toList) h h' := by
  have hread := congrArg (Except.map fun p : (Value × InlineCache) × Heap => (p.1.1, p.2)) e
  rw [HeapM.getRecording_eq] at hread
  exact hv.of_getProperty hread

theorem Valid.of_getCached {cache cache' : InlineCache} {r : Handle} {atom : Atom} {v : Value}
    (hv : h.Valid x) (e : HeapM.getCached cache r atom h = .ok ((v, cache'), h')) :
    Rests (x.plus v.ref?.toList) h h' := by
  unfold HeapM.getCached at e
  rw [HeapM.get_bind] at e
  generalize cache.lookup h atom r = answer at e
  obtain ⟨hit?, cache₁⟩ := answer
  cases hit? with
  | none => exact hv.of_getRecording e
  | some hit =>
    obtain ⟨w, h₁, hread, e⟩ := HeapM.bind_eq_ok e
    have hl₁ := hv.of_readSlot hread
    cases w with
    | some w =>
      obtain ⟨he, rfl⟩ := HeapM.pure_eq_ok e
      cases he
      exact hl₁
    | none => exact hl₁.trans (Valid.of_getRecording hl₁.valid e)

/-- Assigning through a cache is writing the slot the cache knows, or assigning. -/
theorem setCached_cases {cache cache' : InlineCache} {r : Handle} {atom : Atom} {v : Value}
    {res : Except OutOfMemory Bool} (e : AllocM.setCached cache r atom v h = .ok ((res, cache'), h')) :
    (∃ i u, cache.direct? h atom r = some i ∧ HeapM.writeSlot r i v h = .ok (u, h') ∧ res = .ok true) ∨
      cache.direct? h atom r = none ∧ (AllocM.setProperty r atom v).run h = .ok (res, h') := by
  unfold AllocM.setCached at e
  rw [HeapM.get_bind] at e
  unfold InlineCache.direct?
  generalize cache.lookup h atom r = answer at e ⊢
  obtain ⟨hit?, cache₁⟩ := answer
  obtain ⟨out, h₁, hset, e⟩ := HeapM.bind_eq_ok e
  obtain ⟨rfl, rfl⟩ : res = out.map (·.1) ∧ h' = h₁ := by
    cases out with
    | ok p =>
      obtain ⟨he, rfl⟩ := HeapM.pure_eq_ok e
      cases he
      exact ⟨rfl, rfl⟩
    | error err =>
      obtain ⟨he, rfl⟩ := HeapM.pure_eq_ok e
      cases he
      exact ⟨rfl, rfl⟩
  have hrecord : ∀ cache, (AllocM.setRecording cache r atom v).run h = .ok (out, h') →
      (AllocM.setProperty r atom v).run h = .ok (out.map (·.1), h') := by
    intro cache e
    rw [← AllocM.setRecording_eq cache, e]
    rfl
  match hit? with
  | none => exact .inr ⟨rfl, hrecord _ hset⟩
  | some ⟨i, some p, flags⟩ => exact .inr ⟨rfl, hrecord _ hset⟩
  | some ⟨i, none, flags⟩ =>
    unfold AllocM.setAnswered at hset
    dsimp only at hset ⊢
    split at hset
    · rename_i hplain
      obtain ⟨u, h₂, hwrite, hset⟩ := AllocM.lift_bind_eq_ok hset
      obtain ⟨rfl, rfl⟩ := AllocM.pure_eq_ok hset
      exact .inl ⟨i, u, if_pos hplain, hwrite, rfl⟩
    · rename_i hplain
      exact .inr ⟨if_neg hplain, hrecord _ hset⟩

theorem setCached_eq_ok {cache cache' : InlineCache} {r : Handle} {atom : Atom} {v : Value}
    {res : Except OutOfMemory Bool} (e : AllocM.setCached cache r atom v h = .ok ((res, cache'), h')) :
    (AllocM.setProperty r atom v).run h = .ok (res, h') ∨
      ∃ i flags u, (cache.lookup h atom r).1 = some ⟨i, none, flags⟩ ∧
        HeapM.writeSlot r i v h = .ok (u, h') ∧ res = .ok true := by
  rcases setCached_cases e with ⟨i, u, hdirect, hwrite, hres⟩ | ⟨_, hset⟩
  · obtain ⟨flags, hlookup⟩ := InlineCache.lookup_of_direct? hdirect
    exact .inr ⟨i, flags, u, hlookup, hwrite, hres⟩
  · exact .inl hset

/-- Assigning through a cache consumes the value, as assigning does. -/
theorem Valid.of_setCached {cache cache' : InlineCache} {r : Handle} {atom : Atom} {v : Value}
    {res : Except OutOfMemory Bool} (hv : h.Valid (x.plus v.ref?.toList))
    (hnames : h.Names v.typedRef?.toList)
    (e : AllocM.setCached cache r atom v h = .ok ((res, cache'), h')) :
    Passes x x h h' ∧ ∀ err, res = .error err → GivesUp x h h' := by
  rcases setCached_cases e with ⟨i, u, _, hwrite, rfl⟩ | ⟨_, hset⟩
  · obtain ⟨hv', hsteady, _⟩ := Valid.of_writeSlot hv hnames hwrite
    exact ⟨⟨hv', hsteady⟩, nofun⟩
  · exact Valid.of_setProperty hv hnames hset

/-- An operation takes the references it consumes from the ledger and leaves there what it hands over, and
what it wrote over. -/
theorem Valid.of_operation (op : Operation) (hv : h.Valid (x.plus op.consumed)) (hn : h.Names op.named)
    (e : op.perform h = .ok (reply, h')) :
    Passes x ((x.plus (op.gained reply)).plus (op.overwritten h reply)) h h' := by
  cases op with
  | call c =>
    by_cases hpush : c.isPush = false
    · rw [Operation.overwritten_of_not_push (.call c) hpush, Ledger.plus_nil]
      exact Valid.of_call c hpush hv hn e
    · cases c with
      | arrayPush r v =>
        rcases Call.attempt_eq_ok e with ⟨_, hrun, rfl⟩ | ⟨_, hrun, rfl⟩
        · obtain ⟨_, _, hv', hsteady, _⟩ | ⟨⟨_, hres⟩, _⟩ := Valid.of_arrayPush hv hn hrun
          · exact ⟨hv', hsteady⟩
          · cases hres
        · obtain ⟨⟨_, hres⟩, _⟩ | ⟨_, hl⟩ := Valid.of_arrayPush hv hn hrun
          · cases hres
          · exact hl.passes.toPasses
      | _ => exact absurd rfl hpush
  | get cache r atom =>
    obtain ⟨v, cache', e₁, rfl⟩ := Operation.get_eq_ok e
    exact (Valid.of_getCached hv e₁).passes.toPasses
  | set cache r atom v =>
    obtain ⟨res, cache', e₁, hreply⟩ := Operation.set_eq_ok e
    have hpass := (Valid.of_setCached hv hn e₁).1
    rcases hreply with ⟨done, _, rfl⟩ | ⟨err, _, rfl⟩
    · exact hpass
    · exact hpass

/-- A new heap keeps its books: there is nothing in them. -/
theorem valid_new (config : Config) : (new config).Valid .empty := by
  have hcell : ∀ r, (new config).cell? r = none := fun r => by simp [cell?, new]
  have hbody : ∀ r, (new config).body? r = none := fun r => by simp [body?, hcell]
  have hframe : ∀ id, (new config).frames.get? id = none := fun id => by
    simp [new, FrameTable.get?, FrameTable.empty]
  have htotal : ∀ f, (new config).total f = 0 := fun f => by simp [total, slotTotal, new]
  refine ⟨⟨⟨⟨?_, ?_, ?_, ?_, ?_⟩, ⟨FrameTable.tidy_empty, ?_, ?_, ?_⟩, ⟨ShapeTable.tidy_empty, ?_, ?_⟩,
    ⟨?_, ?_⟩, ?_⟩, rfl, rfl, ?_⟩, ?_⟩
  · intro r c hc
    simp [hcell] at hc
  · intro r hr
    simp at hr
  · intro r c hc
    simp [hcell] at hc
  · intro id f hf
    simp [hframe] at hf
  · intro r hr
    simp [new] at hr
  · intro r id hr
    simp [frameOf?, hbody] at hr
  · intro id f hf
    simp [hframe] at hf
  · intro id f hf
    simp [hframe] at hf
  · simp [new, ShapeTable.empty, ShapeTable.toList]
  · intro hash r
    rw [hashOf?, hbody]
    simp [new, ShapeTable.empty, ShapeTable.toList]
  · rw [htotal]
    rfl
  · rw [htotal]
    rfl
  · intro r c hc
    simp [hcell] at hc
  · intro i c hc
    simp [tenant?, new] at hc
  · constructor
    · intro r o t ho
      simp [hbody] at ho
    · intro s t ht
      simp [hbody] at ht

end Heap

/-! ## Runs -/

namespace Client

variable {allowed : Operation → Prop} {config : Config} {h : Heap} {x : Ledger}

/-- The heaps that a client that keeps its books comes to with operations of the kind `allowed`, and
what it owns then. -/
inductive Reached (allowed : Operation → Prop) (config : Config) : Heap → Ledger → Prop where
  | start : Reached allowed config (.new config) .empty
  | next {h h' : Heap} {x : Ledger} {reply : Reply} (hr : Reached allowed config h x) (op : Operation)
      (ha : allowed op) (hp : op.Permitted x h) (e : op.perform h = .ok (reply, h')) :
      Reached allowed config h' (op.settle x reply)

theorem Reached.mono {allowed' : Operation → Prop} (hall : ∀ op, allowed op → allowed' op)
    (hr : Reached allowed config h x) : Reached allowed' config h x := by
  induction hr with
  | start => exact .start
  | next _ op ha hp e ih => exact ih.next op (hall op ha) hp e

/-- The heap keeps the books of the client, with what array lengths were written over besides. -/
theorem Reached.valid (hr : Reached allowed config h x) :
    ∃ lost, ((∀ op, allowed op → op.isPush = false) → lost = []) ∧ h.Valid (x.plus lost) := by
  induction hr with
  | start => exact ⟨[], fun _ => rfl, Heap.valid_new config⟩
  | @next h h' x reply _ op ha hp e ih =>
    obtain ⟨lost, hlost, hv⟩ := ih
    rw [← Ledger.minus_plus hp.owned, Ledger.plus_comm] at hv
    have hv' := (Heap.Valid.of_operation op hv hp.named e).valid
    refine ⟨lost ++ op.overwritten h reply, fun hall => ?_, ?_⟩
    · rw [hlost hall, Operation.overwritten_of_not_push op (hall op ha), List.append_nil]
    · rw [Ledger.plus_append]
      rw [Ledger.plus_comm _ lost] at hv'
      exact hv'

/-- Without pushes the heap keeps the books of the client and nothing else. -/
theorem Reached.valid_of_no_push (hr : Reached (·.isPush = false) config h x) : h.Valid x := by
  obtain ⟨lost, hlost, hv⟩ := hr.valid
  rw [hlost fun _ ha => ha, Ledger.plus_nil] at hv
  exact hv

/-- The heaps that a client that keeps its books comes to with operations it `asks` for, what it owns
then, and what was noted on the way: `first` at the start, and after every operation `note` of it. -/
inductive Noted {γ : Type} (asks : Heap → Operation → Prop)
    (note : Heap → Operation → Reply → Heap → γ → γ) (first : γ) (config : Config) :
    Heap → Ledger → γ → Prop where
  | start : Noted asks note first config (.new config) .empty first
  | next {h h' : Heap} {x : Ledger} {g : γ} {reply : Reply} (hr : Noted asks note first config h x g)
      (op : Operation) (ha : asks h op) (hp : op.Permitted x h) (e : op.perform h = .ok (reply, h')) :
      Noted asks note first config h' (op.settle x reply) (note h op reply h' g)

section

variable {γ : Type} {asks : Heap → Operation → Prop} {note : Heap → Operation → Reply → Heap → γ → γ}
  {first g : γ}

theorem Noted.reached (hr : Noted asks note first config h x g) : Reached (fun _ => True) config h x := by
  induction hr with
  | start => exact .start
  | next _ op _ hp e ih => exact ih.next op trivial hp e

/-- What holds at the start, and after every operation on a valid heap where it held, holds throughout. -/
theorem Noted.invariant {P : Heap → γ → Prop} (hstart : P (.new config) first)
    (hstep : ∀ {h h' : Heap} {y : Ledger} {g : γ} {reply : Reply} (op : Operation),
      h.Valid (y.plus op.consumed) → h.Names op.named → asks h op → op.perform h = .ok (reply, h') →
      P h g → P h' (note h op reply h' g))
    (hr : Noted asks note first config h x g) : P h g := by
  induction hr with
  | start => exact hstart
  | next hr op ha hp e ih =>
    obtain ⟨lost, _, hv⟩ := hr.reached.valid
    rw [← Ledger.minus_plus hp.owned, Ledger.plus_comm] at hv
    exact hstep op hv hp.named ha e ih

end

/-- Every count is the number of references: those of the client, and those from bodies of cells, from
locals of frames and from dropped roots.  Every reference is for a cell that is there and of the right
kind, so that no cell is gone that the client owns or can reach. -/
theorem reference_counts_exact (hr : Reached (·.isPush = false) config h x) :
    (∀ r c, h.cell? r = some c →
      c.refCount = x r + h.heldByCells r + h.heldByFrames r + h.dropped.toList.count r) ∧
    (∀ r c, h.cell? r = some c → h.Names c.body.typedRefs) ∧
    (∀ id f, h.frames.get? id = some f → h.Names f.typedRefs) ∧
    (∀ r ∈ h.dropped.toList, h.contains r = true) ∧
    ∀ r, h.Held x r → h.contains r = true := by
  have hx := hr.valid_of_no_push.sound.coherent.counted
  refine ⟨fun r c hc => ?_, hx.bodies, hx.locals, hx.roots, fun r hr => ?_⟩
  · rw [hx.counts r c hc, Heap.held]
    omega
  · exact hx.contains_of_reachable (fun _ => hx.contains_of_outside) hr

/-- The client makes an object and gives its one reference away, to a property of the object itself. -/
theorem reference_counts_exact_self : ∃ h x, Reached (·.isPush = false) .default h x ∧ x ⟨1, 0⟩ = 0 ∧
    h.heldByCells ⟨1, 0⟩ = 1 ∧ ∃ c, h.cell? ⟨1, 0⟩ = some c ∧
      c.refCount = x ⟨1, 0⟩ + h.heldByCells ⟨1, 0⟩ + h.heldByFrames ⟨1, 0⟩ +
        h.dropped.toList.count ⟨1, 0⟩ := by
  obtain ⟨⟨reply₁, h₁⟩, e₁, hrest⟩ := ok_of_test (x := (Call.newObject none).perform (.new .default))
    (t := fun p => decide (p.1 = .handle ⟨1, 0⟩ ∧ p.2.kind? ⟨1, 0⟩ = some .object) &&
      passes ((Call.setProperty ⟨1, 0⟩ ⟨300⟩ (.object ⟨1, 0⟩)).perform p.2) fun p =>
        decide (p.1 = .flag true ∧ p.2.contains ⟨1, 0⟩ ∧ p.2.heldByCells ⟨1, 0⟩ = 1))
    (by decide +kernel)
  obtain ⟨hmade, hrest⟩ := Bool.and_eq_true_iff.mp hrest
  obtain ⟨rfl, hkind⟩ := of_decide_eq_true hmade
  obtain ⟨⟨reply₂, h₂⟩, e₂, hfacts⟩ := ok_of_test hrest
  obtain ⟨rfl, hlive, hheld⟩ := of_decide_eq_true hfacts
  have hstart : Reached (·.isPush = false) .default (.new .default) .empty := .start
  have hr₁ := hstart.next (.call (.newObject none)) rfl
    ⟨fun r => by simp [Operation.consumed, Call.consumed], nofun⟩ e₁
  have hr₂ := hr₁.next (.call (.setProperty ⟨1, 0⟩ ⟨300⟩ (.object ⟨1, 0⟩))) rfl ⟨?_, ?_⟩ e₂
  · obtain ⟨c, hc⟩ := Heap.contains_iff.mp hlive
    exact ⟨h₂, _, hr₂, by decide, hheld, c, hc, (reference_counts_exact hr₂).1 _ _ hc⟩
  · intro r
    simp [Operation.settle, Operation.consumed, Operation.gained, Call.consumed, Call.gained, Reply.refs,
      Value.ref?, Ledger.minus]
  · intro a ha
    cases List.mem_singleton.mp ha
    exact hkind

end Client

end ObjectMemory
