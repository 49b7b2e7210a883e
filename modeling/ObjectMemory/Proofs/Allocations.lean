import ObjectMemory.Proofs.Creations
set_option autoImplicit false

/-!
# Calls that allocate

Wherever a call sets a slot apart, the dropped roots are released and the collector may run, whatever the
threshold.  In between the call has handles that it has yet to read, to change or to hand over: what it was
handed to keep, what it was pointed to, and what it has made on the way.

The main statement is that none of them goes stale (`Client.allocation_keeps_handles`).  The client owns
what it gives away; of what the call only reads or changes (`Call.reads`) it is enough that references of the
client, or locals of frames, lead there.  Then the call ends, with every count exact, or breaks off for a
reason that has nothing to do with what was collected (`Call.Breaks`).
-/

namespace ObjectMemory

namespace Call

/-- The call may set a slot apart. -/
def allocates : Call → Bool
  | shapeForNewObject _ | addProperty .. | prepareUpdate _ | newObject _ | newObjectFromShape ..
  | defineProperty .. | defineAccessor .. | defineCaptured .. | setProperty .. | deleteProperty ..
  | compactProperties _ | setPrototype .. | newArray _ | newBytecode .. | newClosure .. | newSuspension ..
  | newVariable _ | captureVariable .. | newRealm => true
  | _ => false

/-- The cells that a call which allocates is pointed to, each with its kind; those in values and payloads it
takes over are left out. -/
def reads : Call → List (Handle × Kind)
  | shapeForNewObject proto | newObject proto => proto.toList.map (·, .object)
  | addProperty shape _ _ | prepareUpdate shape | newObjectFromShape shape _ => [(shape, .shape)]
  | defineProperty r _ _ _ | defineCaptured r _ _ _ | setProperty r _ _ | deleteProperty r _
  | compactProperties r => [(r, .object)]
  | defineAccessor r _ _ getter setter => (r, .object) :: (Property.accessor getter setter).typedRefs
  | setPrototype r proto => (r, .object) :: proto.toList.map (·, .object)
  | newArray ctx => [(ctx, .realm)]
  | newBytecode _ realm _ => realm.toList.map (·, .realm)
  | newClosure proto bytecode _ home =>
    proto.toList.map (·, .object) ++ (Payload.closure bytecode #[] home).typedRefs
  | _ => []

/-- Why a call that allocates may break off: there are as many slots as can be named; a property is stored
in another way than its flags say, or something is stored opposite a hole; or the local to capture is not
there. -/
inductive Breaks (h : Heap) : Call → Fault → Prop where
  | full (call : Call) : Breaks h call .tooManySlots
  | plain {r : Handle} {atom : Atom} (v : Value) (i : Nat) (hm : h.Misstored r atom) :
      Breaks h (setProperty r atom v) (.notPlain i r)
  | captured {r : Handle} {atom : Atom} (v : Value) (p : Property) (hm : h.Misstored r atom) :
      Breaks h (setProperty r atom v) (.notCaptured p)
  | delete (r : Handle) (atom : Atom) (hh : ¬ h.Vacant) : Breaks h (deleteProperty r atom) .assertion
  | compact (r : Handle) (hh : ¬ h.Vacant) : Breaks h (compactProperties r) .assertion
  | dead {id : FrameId} (slot : Nat) (hf : h.frames.get? id = none) :
      Breaks h (captureVariable id slot) (.captureFromDead id)
  | outside {id : FrameId} {slot : Nat} {f : Frame} (hf : h.frames.get? id = some f)
      (hslot : f.locals.size ≤ slot) : Breaks h (captureVariable id slot) (.captureOutside slot id)

end Call

namespace Heap

variable {x : Ledger} {h : Heap} {bars : Fault → Bool}

/-- A call that allocates ends if what it is pointed to is retained, unless it breaks off for a reason of its
own. -/
theorem Valid.yields_call (call : Call) (halloc : call.allocates = true) (hv : h.Valid (x.plus call.consumed))
    (hr : h.Roomy) (hseat : h.Seated) (hnamed : h.Names call.named) (hreads : h.Names call.reads)
    (hkept : ∀ p ∈ call.reads, h.Retained (x.plus call.consumed) p.1) (hcount : bars .arithmetic = false)
    (hbars : ∀ err, call.Breaks h err → bars err = false) :
    Yields bars (fun _ => True) (call.perform h) := by
  have hfull := hbars _ (.full call)
  have hproto : ∀ {proto : Option Handle}, (∀ p ∈ proto.toList.map (·, Kind.object), p ∈ call.reads) →
      ∀ q ∈ proto, h.Retained (x.plus call.consumed) q := fun hsub q hq =>
    hkept (q, .object) (hsub _ (List.mem_map_of_mem (Option.mem_toList.mpr hq)))
  have hobject : ∀ {r}, (r, Kind.object) ∈ call.reads → ∃ o, h.body? r = some (.object o) := fun hmem =>
    hv.sound.object_of_kind (hreads _ hmem)
  have hshape : ∀ {s}, (s, Kind.shape) ∈ call.reads → ∃ t, h.body? s = some (.shape t) := fun hmem =>
    hv.sound.shape_of_kind (hreads _ hmem)
  cases call with
  | shapeForNewObject proto =>
    exact Call.yields_attempt (hv.sound.yields_shapeForNewObject hfull hr (hproto fun _ hp => hp))
  | addProperty shape atom flags =>
    obtain ⟨t, ht⟩ := hshape (List.mem_singleton_self _)
    exact Call.yields_attempt (hv.sound.yields_addProperty atom flags hfull hcount hr ht
      (hkept _ (List.mem_singleton_self _)))
  | prepareUpdate shape =>
    obtain ⟨t, ht⟩ := hshape (List.mem_singleton_self _)
    exact Call.yields_attempt (hv.sound.yields_prepareUpdate hfull hcount hr ht
      (hkept _ (List.mem_singleton_self _)))
  | newObject proto =>
    exact Call.yields_attempt (hv.yields_newObject hfull hr hnamed (hproto fun _ hp => hp))
  | newObjectFromShape shape payload =>
    obtain ⟨t, ht⟩ := hshape (List.mem_singleton_self _)
    exact Call.yields_attempt (hv.sound.yields_newObjectFromShape payload hfull hr ht)
  | defineProperty r atom flags v =>
    obtain ⟨o, ho⟩ := hobject (List.mem_singleton_self _)
    exact Call.yields_attempt (Valid.yields_defineOwn (p := .value v) hfull hcount hv hr hnamed ho
      (hkept _ (List.mem_singleton_self _)))
  | defineAccessor r atom flags getter setter =>
    have hv : h.Valid x := hv
    obtain ⟨o, ho⟩ := hobject List.mem_cons_self
    refine Call.yields_attempt (hv.yields_defineAccessor hfull hcount hr hnamed ho
      (hkept _ List.mem_cons_self) fun q hq => ?_)
    obtain ⟨p, hp, rfl⟩ := List.mem_map.mp ((Property.accessor getter setter).map_typedRefs ▸ hq)
    exact hkept p (List.mem_cons_of_mem _ hp)
  | defineCaptured r atom flags y =>
    obtain ⟨o, ho⟩ := hobject (List.mem_singleton_self _)
    exact Call.yields_attempt (Valid.yields_defineOwn (p := .captured y) hfull hcount hv hr hnamed ho
      (hkept _ (List.mem_singleton_self _)))
  | setProperty r atom v =>
    obtain ⟨o, ho⟩ := hobject (List.mem_singleton_self _)
    exact Call.yields_attempt (hv.yields_setProperty hfull hcount
      (fun hm i p => ⟨hbars _ (.plain v i hm), hbars _ (.captured v p hm)⟩) hr hseat hnamed ho
      (hkept _ (List.mem_singleton_self _)))
  | deleteProperty r atom =>
    obtain ⟨o, ho⟩ := hobject (List.mem_singleton_self _)
    exact Call.yields_attempt (hv.yields_deleteProperty hfull hcount
      (fun hh => hbars _ (.delete r atom hh)) hr ho (hkept _ (List.mem_singleton_self _)))
  | compactProperties r =>
    obtain ⟨o, ho⟩ := hobject (List.mem_singleton_self _)
    exact Call.yields_attempt (hv.yields_compactProperties hfull hcount
      (fun hh => hbars _ (.compact r hh)) hr ho (hkept _ (List.mem_singleton_self _)))
  | setPrototype r proto =>
    obtain ⟨o, ho⟩ := hobject List.mem_cons_self
    exact Call.yields_attempt (hv.yields_setPrototype hfull hcount hr hnamed ho (hkept _ List.mem_cons_self)
      (hproto fun _ hp => List.mem_cons_of_mem _ hp))
  | newArray ctx =>
    exact Call.yields_attempt (hv.yields_newArray hfull hr (hreads _ (List.mem_singleton_self _)))
  | newBytecode name realm pool =>
    exact Call.yields_attempt (hv.yields_newBytecode hfull hr fun q hq =>
      hkept (q, .realm) (List.mem_map_of_mem (Option.mem_toList.mpr hq)))
  | newClosure proto bytecode captured home =>
    refine Call.yields_attempt (hv.yields_newClosure hfull hr (Names.append_iff.mp hnamed).1
      (hproto fun _ hp => List.mem_append_left _ hp) (hkept (bytecode, .bytecode) ?_) fun q hq =>
        hkept (q, .object) ?_)
    · simp [Call.reads, Payload.typedRefs]
    · simp [Call.reads, Payload.typedRefs, Option.mem_def.mp hq]
  | newSuspension receiver values resolve reject =>
    exact Call.yields_attempt (hv.sound.yields_make hfull hr _)
  | newVariable v => exact Call.yields_attempt (hv.sound.yields_make hfull hr _)
  | captureVariable id slot =>
    exact Call.yields_attempt (hv.yields_captureVariable hfull (fun hf => hbars _ (.dead slot hf))
      (fun f hf hslot => hbars _ (.outside hf hslot)) hr)
  | newRealm => exact Call.yields_attempt (hv.yields_newRealm hfull hcount hr)
  | _ => cases halloc

end Heap

namespace Client

open Heap

variable {config : Config} {h : Heap} {x : Ledger}

/-- A call that allocates keeps what it uses.  The counts are exact before; the client owns what it gives
away, and references of the client or locals of frames lead to what the call is pointed to, which dropped
roots need not.  Then the call ends.  The counts are exact afterwards, with the references the client has
then, and every reference of the client, of a cell, of a frame or of a dropped root is to a cell that is
there.  Otherwise it breaks off for one of the reasons of `Call.Breaks`, none of which is a handle that has
gone stale. -/
theorem allocation_keeps_handles (hr : Reached (fun _ => True) config h x)
    (hexact : ∀ r c, h.cell? r = some c →
      c.refCount = x r + h.heldByCells r + h.heldByFrames r + h.dropped.toList.count r)
    (call : Call) (halloc : call.allocates = true) (hp : (Operation.call call).Permitted x h)
    (hreads : h.Names call.reads) (hkept : ∀ p ∈ call.reads, h.Retained x p.1) :
    (∃ reply h', call.perform h = .ok (reply, h') ∧
      (∀ r c, h'.cell? r = some c → c.refCount = Operation.settle x (.call call) reply r +
        h'.heldByCells r + h'.heldByFrames r + h'.dropped.toList.count r) ∧
      (∀ r c, h'.cell? r = some c → h'.Names c.body.typedRefs) ∧
      ∀ r, h'.Held (Operation.settle x (.call call) reply) r → h'.contains r = true) ∨
    ∃ err, call.perform h = .error err ∧ call.Breaks h err := by
  classical
  have hv := hr.valid_of_exact hexact
  have hsplit : ∀ r, x r = ((x.minus call.consumed).plus call.consumed) r := fun r =>
    (congrFun (Ledger.minus_plus hp.owned) r).symm
  have hv₀ : h.Valid ((x.minus call.consumed).plus call.consumed) := hv.of_eq hsplit
  have hends : Yields (fun err => decide (¬ (call.Breaks h err ∨ err = .arithmetic))) (fun _ => True)
      (call.perform h) :=
    hv₀.yields_call call halloc hr.kept.1 hr.kept.2 hp.named hreads
      (fun p hp => (hkept p hp).mono fun r => (hsplit r).le) (by simp) fun err herr => by simp [herr]
  cases hres : call.perform h with
  | ok q =>
    obtain ⟨reply, h'⟩ := q
    have hpush : call.isPush = false := by
      cases call with
      | arrayPush r v => cases halloc
      | _ => rfl
    have hx := (Valid.of_call call hpush hv₀ hp.named hres).valid.sound.coherent.counted
    refine .inl ⟨reply, h', rfl, fun r c hc => ?_, hx.bodies, fun r hheld => ?_⟩
    · rw [Operation.settle, Operation.consumed, Operation.gained, hx.counts r c hc, Heap.held]
      omega
    · exact hx.contains_of_reachable (fun _ => hx.contains_of_outside) hheld
  | error err =>
    refine .inr ⟨err, rfl, ?_⟩
    rcases not_not.mp (of_decide_eq_false (hends.of_error hres)) with hbreak | rfl
    · exact hbreak
    · exact absurd hres (call.settles hr.pays hv False.elim).ne_arithmetic

/-- The prototype of a new object is not the client's, but a property of an object that is.  The client has
dropped a root for a third object, which goes while the new one is made; the prototype stays. -/
theorem allocation_keeps_handles_proto : ∃ h x, Reached (fun _ => True) .default h x ∧ x ⟨2, 0⟩ = 0 ∧
    h.Retained x ⟨2, 0⟩ ∧ h.dropped.toList = [⟨4, 0⟩] ∧
    ∃ reply h', (Call.newObject (some ⟨2, 0⟩)).perform h = .ok (reply, h') ∧
      h'.contains ⟨4, 0⟩ = false ∧ h'.contains ⟨2, 0⟩ = true ∧
      ∀ r c, h'.cell? r = some c → c.refCount =
        Operation.settle x (.call (.newObject (some ⟨2, 0⟩))) reply r + h'.heldByCells r +
          h'.heldByFrames r + h'.dropped.toList.count r := by
  obtain ⟨h₁, e₁, hrest⟩ := ok_of_answers (x := (Call.newObject none).perform (.new .default))
    (a := .handle ⟨1, 0⟩)
    (t := fun h => answers ((Call.newObject none).perform h) (.handle ⟨2, 0⟩) fun h =>
      decide (h.kind? ⟨2, 0⟩ = some .object) &&
      answers ((Call.setProperty ⟨1, 0⟩ ⟨300⟩ (.object ⟨2, 0⟩)).perform h) (.flag true) fun h =>
      answers ((Call.newObject none).perform h) (.handle ⟨4, 0⟩) fun h =>
      answers ((Call.dropRoot ⟨⟨4, 0⟩⟩).perform h) .done fun h =>
      decide (h.dropped.toList = [⟨4, 0⟩] ∧ h.kind? ⟨2, 0⟩ = some .object ∧
        ∃ o ∈ h.object? ⟨1, 0⟩, ⟨2, 0⟩ ∈ o.refs) &&
      answers ((Call.newObject (some ⟨2, 0⟩)).perform h) (.handle ⟨5, 0⟩) fun h =>
      decide (h.contains ⟨4, 0⟩ = false ∧ h.contains ⟨2, 0⟩ = true))
    (by decide +kernel)
  obtain ⟨h₂, e₂, hrest⟩ := ok_of_answers hrest
  obtain ⟨hkind₂, hrest⟩ := Bool.and_eq_true_iff.mp hrest
  obtain ⟨h₃, e₃, hrest⟩ := ok_of_answers hrest
  obtain ⟨h₄, e₄, hrest⟩ := ok_of_answers hrest
  obtain ⟨h₅, e₅, hrest⟩ := ok_of_answers hrest
  obtain ⟨hfacts, hrest⟩ := Bool.and_eq_true_iff.mp hrest
  obtain ⟨h₆, e₆, hlast⟩ := ok_of_answers hrest
  obtain ⟨hdropped, hkind₅, o, ho, hmem⟩ := of_decide_eq_true hfacts
  obtain ⟨hgone, hstays⟩ := of_decide_eq_true hlast
  have hstart : Reached (·.isPush = false) .default (.new .default) .empty := .start
  have hr₁ := hstart.next (.call (.newObject none)) rfl ⟨fun r => Nat.zero_le _, nofun⟩ e₁
  have hr₂ := hr₁.next (.call (.newObject none)) rfl ⟨fun r => Nat.zero_le _, nofun⟩ e₂
  have hr₃ := hr₂.next (.call (.setProperty ⟨1, 0⟩ ⟨300⟩ (.object ⟨2, 0⟩))) rfl ⟨fun r => ?_, ?_⟩ e₃
  have hr₄ := hr₃.next (.call (.newObject none)) rfl ⟨fun r => Nat.zero_le _, nofun⟩ e₄
  have hr₅ := hr₄.next (.call (.dropRoot ⟨⟨4, 0⟩⟩)) rfl ⟨fun r => ?_, nofun⟩ e₅
  · have hexact := hr₅.valid_of_no_push.sound.coherent.counted.counts
    have hkept : ∀ {y : Ledger}, 0 < y ⟨1, 0⟩ → h₅.Retained y ⟨2, 0⟩ := fun hpos =>
      (retained_of_owned hpos).ref (object?_iff_body?.mp ho) hmem
    have hnames : h₅.Names [(⟨2, 0⟩, .object)] := fun a ha => by
      rw [List.mem_singleton.mp ha]
      exact hkind₅
    have hcall := allocation_keeps_handles (hr₅.mono fun _ _ => trivial) (fun r c hc => by
      rw [hexact r c hc, Heap.held]
      omega) (.newObject (some ⟨2, 0⟩)) rfl ⟨fun r => Nat.zero_le _, hnames⟩ hnames fun a ha => by
        rw [List.mem_singleton.mp ha]
        exact hkept (by decide)
    refine ⟨h₅, _, hr₅.mono fun _ _ => trivial, by decide, hkept (by decide), hdropped, ?_⟩
    obtain ⟨reply, h', e, hcounts, _⟩ | ⟨_, e, _⟩ := hcall
    · cases e₆.symm.trans e
      exact ⟨_, _, e₆, hgone, hstays, hcounts⟩
    · cases e₆.symm.trans e
  · simp only [Operation.settle_apply, Operation.consumed, Operation.gained, Call.consumed, Call.gained,
      Reply.refs, Ledger.empty_apply, List.count_cons, List.count_nil, beq_iff_eq]
    grind
  · simp only [Operation.settle_apply, Operation.consumed, Operation.gained, Call.consumed, Call.gained,
      Reply.refs, Value.ref?, Ledger.empty_apply, Option.toList_some, List.count_cons, List.count_nil,
      beq_iff_eq]
    grind
  · intro a ha
    cases List.mem_singleton.mp ha
    exact of_decide_eq_true hkind₂

end Client

end ObjectMemory
