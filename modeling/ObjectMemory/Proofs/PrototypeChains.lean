import ObjectMemory.Proofs.Columns
import ObjectMemory.Proofs.Variables
set_option autoImplicit false

/-!
# Chains stay finite

No object of a heap that a client comes to is among its own prototypes (`Client.Reached.acyclic`).  Most
operations leave the prototypes of all objects as they were.  One that makes an object gives it a prototype
that is there already, be it asked for or come with a shape; and `setPrototype` looks through the chain of
the new prototype first.

So the loops that follow prototypes end, and what they answer can be said of the chain: a lookup finds the
first object on it that has the property (`Heap.Finds`), and a prototype is refused just if the object is on
its chain (`Client.prototype_chains_finite`).
-/

namespace ObjectMemory

namespace Heap

variable {x : Ledger} {h h' : Heap} {r s : Handle} {call : Call} {reply : Reply} {t : Shape}
  {rs : List Handle} {n depth : Nat} {atom : Atom}

/-! ## Looking up -/

/-- What a lookup along `rs` should answer, where the first is at `depth`: the first object that has the
property, with its place there, or that none has it. -/
inductive Finds (h : Heap) (atom : Atom) (depth : Nat) (rs : List Handle) : Option Location → Prop where
  | found {before after : List Handle} {l : Location} (hrs : rs = before ++ l.holder :: after)
      (hbefore : ∀ q ∈ before, h.findOwn? q atom = none)
      (hown : h.findOwn? l.holder atom = some (l.offset, l.flags)) (hdepth : l.depth = depth + before.length) :
      Finds h atom depth rs (some l)
  | absent (hall : ∀ q ∈ rs, h.findOwn? q atom = none) : Finds h atom depth rs none

/-- An object that does not have the property is passed. -/
theorem Finds.cons {found : Option Location} (e : h.Finds atom (depth + 1) rs found)
    (hown : h.findOwn? r atom = none) : h.Finds atom depth (r :: rs) found := by
  cases e with
  | @found before after l hrs hbefore hfound hdepth =>
    have hrs : r :: rs = (r :: before) ++ l.holder :: after := by rw [hrs, List.cons_append]
    refine .found hrs (List.forall_mem_cons.mpr ⟨hown, hbefore⟩) hfound ?_
    rw [hdepth, List.length_cons]
    omega
  | absent hall => exact .absent (List.forall_mem_cons.mpr ⟨hown, hall⟩)

theorem lookupFrom_of_missed (hown : h.findOwn? r atom = none) :
    h.lookupFrom atom (n + 1) depth r = (h.proto? r).bind (h.lookupFrom atom n (depth + 1)) := by
  cases hshape : h.shapeOf? r with
  | none => simp only [lookupFrom, proto?, hshape, Option.bind_none]
  | some t =>
    have hfind := (findOwn?_of_shapeOf? hshape).symm.trans hown
    simp only [lookupFrom, proto?, hshape, hfind, Option.bind_some]
    cases t.proto <;> rfl

/-- A lookup that is given as many steps as the chain is long answers what it should. -/
theorem Chain.finds (hc : h.Chain (some r) rs) (hn : rs.length ≤ n) :
    h.Finds atom depth rs (h.lookupFrom atom n depth r) := by
  induction rs generalizing r n depth with
  | nil => cases hc
  | cons r rs ih =>
    cases hc with
    | cons hrest =>
      cases n with
      | zero => cases hn
      | succ n =>
        cases hown : h.findOwn? r atom with
        | some place =>
          rw [lookupFrom_of_findOwn? hown]
          have hrs : r :: rs = [] ++ r :: rs := rfl
          exact .found hrs (fun q hq => by cases hq) hown rfl
        | none =>
          rw [lookupFrom_of_missed hown]
          cases hp : h.proto? r with
          | none =>
            rw [hp] at hrest
            cases hrest
            exact .absent fun q hq => List.mem_singleton.mp hq ▸ hown
          | some p =>
            rw [hp] at hrest
            exact (ih hrest (Nat.le_of_succ_le_succ hn)).cons hown

/-! ## One operation -/

theorem acyclic_new (config : Config) : (new config).Acyclic := by
  intro r p hp
  obtain ⟨d, hd, _⟩ := proto?_eq_some_iff.mp hp
  cases (drawing?_new config r).symm.trans (record?_eq_some_iff.mp hd)

/-- The prototype of a shape is there. -/
theorem Valid.contains_of_proto (hv : h.Valid x) (ht : h.body? s = some (.shape t)) :
    ∀ p ∈ t.proto, h.contains p = true := by
  intro p hp
  have hp := Option.mem_def.mp hp
  exact (hv.sound.names ht).contains (p := (p, .object)) (by simp [Body.typedRefs, hp])

theorem Names.contains_of_mem {proto : Option Handle} (hn : h.Names (proto.toList.map (·, .object))) :
    ∀ p ∈ proto, h.contains p = true := by
  intro p hp
  exact hn.contains (List.mem_map_of_mem (Option.mem_toList.mpr hp))

namespace Acyclic

/-- A call that may run out of memory, given what its action leaves. -/
theorem of_attempt {α : Type} {act : AllocM α} {f : α → Reply}
    (hact : ∀ res h₁, act.run h = .ok (res, h₁) → h₁.Acyclic)
    (e : Call.attempt act f h = .ok (reply, h')) : h'.Acyclic := by
  rcases Call.attempt_eq_ok e with ⟨_, hrun, _⟩ | ⟨_, hrun, _⟩
  · exact hact _ _ hrun
  · exact hact _ _ hrun

/-- A call that edits a record, given how its action ends. -/
theorem of_edit {act : AllocM Bool} {op : Record → Bool × Record} (ha : h.Acyclic)
    (hact : ∀ res h₁, act.run h = .ok (res, h₁) →
      (∃ done, res = .ok done ∧ Performs x r op done h h₁) ∨ (∃ err, res = .error err) ∧ GivesUp x h h₁)
    (hop : ∀ d, (op d).2.proto = d.proto ∨ ∀ p ∈ (op d).2.proto, ¬ h.Inherits p r)
    (e : Call.attempt act .flag h = .ok (reply, h')) : h'.Acyclic := by
  refine of_attempt (fun res h₁ hrun => ?_) e
  rcases hact _ _ hrun with ⟨_, _, hdone⟩ | ⟨_, hl⟩
  · exact ha.of_performs hdone hop
  · exact ha.of_apart hl.apart

end Acyclic

theorem Valid.acyclic_of_setProperty {v : Value} {res : Except OutOfMemory Bool}
    (hv : h.Valid (x.plus v.ref?.toList)) (hnames : h.Names v.typedRef?.toList) (ha : h.Acyclic)
    (e : (AllocM.setProperty r atom v).run h = .ok (res, h')) : h'.Acyclic := by
  rcases Valid.of_assign hv hnames e with ⟨_, _, hdone, _⟩ | ⟨_, hl⟩
  · exact ha.of_performs hdone fun d => .inl (d.proto_assign _ _ _)
  · exact ha.of_apart hl.apart

theorem Valid.acyclic_of_writeSlot {i : Nat} {v : Value} {u : Unit} (hv : h.Valid (x.plus v.ref?.toList))
    (hnames : h.Names v.typedRef?.toList) (ha : h.Acyclic) (e : HeapM.writeSlot r i v h = .ok (u, h')) :
    h'.Acyclic :=
  ha.of_alters (Valid.of_writeSlot hv hnames e).2.2 fun _ _ => .inl rfl

/-- A new array has the prototype of the arrays of its realm. -/
theorem Valid.acyclic_of_newArray {ctx : Handle} {res : Except OutOfMemory Handle} (hv : h.Valid x)
    (hu : h.Uniform) (ha : h.Acyclic) (e : (AllocM.newArray ctx).run h = .ok (res, h')) : h'.Acyclic := by
  rcases hv.of_newArray e with ⟨r, c, proto, entries, d, _, hctx, hi, hd⟩ | ⟨_, hl⟩
  · obtain ⟨b, s, t, _, _, ht, hdraw⟩ := drawing?_eq_some_iff.mp hctx
    have hproto : t.proto = proto := by
      cases b with
      | realm c =>
        cases hdraw
        rfl
      | _ => cases hdraw
    refine ha.of_introduces hv hi ?_
    rw [hd (hu ctx c proto entries hctx), ← hproto]
    exact hv.contains_of_proto ht
  · exact ha.of_apart hl.apart

/-- No call closes a cycle of prototypes. -/
theorem Valid.acyclic_of_call (call : Call) (hv : h.Valid (x.plus call.consumed)) (hu : h.Uniform)
    (hn : h.Names call.named) (ha : h.Acyclic) (e : call.perform h = .ok (reply, h')) : h'.Acyclic := by
  by_cases hmute : call.isMute = true
  · exact ha.of_apart (Valid.passes_of_call call hmute hv hn e).apart
  cases call with
  | prepareUpdate shape =>
    refine Acyclic.of_attempt (fun res h₁ hrun => ?_) e
    rcases Valid.of_prepareUpdate hv hrun with ⟨_, _, _, hl⟩ | ⟨_, hl⟩
    · exact ha.of_apart hl.apart
    · exact ha.of_apart hl.apart
  | newObject proto =>
    have hv : h.Valid x := hv
    refine Acyclic.of_attempt (fun res h₁ hrun => ?_) e
    rcases hv.of_newObject hn hrun with ⟨_, _, hi⟩ | ⟨_, hl⟩
    · exact ha.of_introduces hv hi (Names.contains_of_mem hn)
    · exact ha.of_apart hl.apart
  | newClosure proto bytecode captured home =>
    obtain ⟨hproto, hnames⟩ := Names.append_iff.mp hn
    refine Acyclic.of_attempt (fun res h₁ hrun => ?_) e
    rcases Valid.of_newClosure hv hproto hnames hrun with ⟨_, _, hi⟩ | ⟨_, hl⟩
    · exact ha.of_introduces hv hi (Names.contains_of_mem hproto)
    · exact ha.of_apart hl.apart
  | newObjectFromShape shape payload =>
    refine Acyclic.of_attempt (fun res h₁ hrun => ?_) e
    rcases Valid.of_newObjectFromShape payload hv hn hrun with ⟨_, t, _, _, ht, hadds⟩ | ⟨_, hl⟩
    · have hi := hadds.introduces (.refl [] h) (.refl _ h) (.refl h)
        (AllocM.tracks_newObjectFromShape _ _ _ _ _ hrun) (by omega) ht
      exact ha.of_introduces hv hi (hv.contains_of_proto ht)
    · exact ha.of_apart hl.apart
  | newArray ctx =>
    have hv : h.Valid x := hv
    exact Acyclic.of_attempt (fun _ _ => hv.acyclic_of_newArray hu ha) e
  | newRealm =>
    have hv : h.Valid x := hv
    refine Acyclic.of_attempt (fun res h₁ hrun => ?_) e
    rcases hv.of_newRealm hrun with ⟨_, _, _, hf⟩ | ⟨_, hl⟩
    · exact hf.acyclic ha
    · exact hl.acyclic ha
  | writeSlot r offset v =>
    obtain ⟨_, e₁, _⟩ := Call.answer_eq_ok e
    exact Valid.acyclic_of_writeSlot hv hn ha e₁
  | defineProperty r atom flags v =>
    exact ha.of_edit (fun _ _ => Valid.of_defineOwn (p := .value v) hv hn)
      (fun d => .inl (d.proto_define _ _ _ _)) e
  | defineAccessor r atom flags getter setter =>
    have hv : h.Valid x := hv
    exact ha.of_edit (fun _ _ => hv.of_defineAccessor hn) (fun d => .inl (d.proto_define _ _ _ _)) e
  | defineCaptured r atom flags a =>
    exact ha.of_edit (fun _ _ => Valid.of_defineOwn (p := .captured a) hv hn)
      (fun d => .inl (d.proto_define _ _ _ _)) e
  | setProperty r atom v =>
    exact Acyclic.of_attempt (fun _ _ => Valid.acyclic_of_setProperty hv hn ha) e
  | deleteProperty r atom =>
    have hv : h.Valid x := hv
    cases ho : h.object? r with
    | none =>
      refine Acyclic.of_attempt (fun res h₁ hrun => ?_) e
      obtain ⟨_, rfl⟩ := deleteProperty_of_absent (by simp [findOwn?, ho]) hrun
      exact ha
    | some o =>
      exact ha.of_edit (fun _ _ => hv.of_deleteProperty (object?_iff_body?.mp ho))
        (fun d => .inl (d.proto_delete _)) e
  | compactProperties r =>
    have hv : h.Valid x := hv
    refine Acyclic.of_attempt (fun res h₁ hrun => ?_) e
    rcases hv.of_compactProperties hrun with ⟨_, _, _, _, halters⟩ | ⟨_, hl, _⟩
    · exact ha.of_alters halters fun _ _ => .inl rfl
    · exact ha.of_apart hl.apart
  | setPrototype r proto =>
    have hv : h.Valid x := hv
    refine ha.of_edit (fun _ _ => hv.of_setPrototype hn) (fun d => ?_) e
    by_cases hcycle : r ∈ h.protoChain proto
    · exact .inl (by simp [Record.reparent, hcycle])
    · refine .inr fun p hp hi => hcycle ?_
      have hp : proto = some p := by simpa [Record.reparent, hcycle] using hp
      rw [hp]
      exact mem_protoChain_iff.mpr hi
  | preventExtensions r =>
    have hv : h.Valid x := hv
    obtain ⟨_, e₁, _⟩ := Call.answer_eq_ok e
    exact ha.of_alters (hv.of_preventExtensions e₁).2 fun _ _ => .inl rfl
  | arrayPush r v =>
    refine Acyclic.of_attempt (fun res h₁ hrun => ?_) e
    rcases Valid.of_arrayPush hv hn hrun with ⟨_, k, _, _, halters⟩ | ⟨_, hl⟩
    · refine ha.of_alters halters fun d _ => .inl ?_
      unfold writeLength
      cases h.findOwn? r .length <;> rfl
    · exact ha.of_apart hl.apart
  | _ => exact absurd rfl hmute

theorem Valid.acyclic_of_operation (op : Operation) (hv : h.Valid (x.plus op.consumed)) (hu : h.Uniform)
    (hn : h.Names op.named) (ha : h.Acyclic) (e : op.perform h = .ok (reply, h')) : h'.Acyclic := by
  cases op with
  | call c => exact Valid.acyclic_of_call c hv hu hn ha e
  | get cache r atom =>
    have hv : h.Valid x := hv
    obtain ⟨_, _, e₁, _⟩ := Operation.get_eq_ok e
    exact ha.of_apart (hv.of_getCached e₁).apart
  | set cache r atom v =>
    obtain ⟨_, _, e₁, _⟩ := Operation.set_eq_ok e
    rcases setCached_eq_ok e₁ with hset | ⟨_, _, _, _, hwrite, _⟩
    · exact Valid.acyclic_of_setProperty hv hn ha hset
    · exact Valid.acyclic_of_writeSlot hv hn ha hwrite

/-- A prototype that would close a cycle is refused before anything is done. -/
theorem setPrototype_of_mem {proto : Option Handle} (hr : r ∈ h.protoChain proto) :
    (Call.setPrototype r proto).perform h = .ok (.flag false, h) := by
  have hrun : (AllocM.setPrototype r proto).run h = .ok (.ok false, h) := by
    unfold AllocM.setPrototype
    rw [AllocM.get_bind, if_pos hr]
    rfl
  rw [Call.perform, Call.attempt, HeapM.bind_apply, hrun]
  rfl

/-- A prototype is refused only if it would close a cycle. -/
theorem Valid.mem_of_refused {proto : Option Handle} (hv : h.Valid x)
    (hn : h.Names (proto.toList.map (·, .object)))
    (e : (Call.setPrototype r proto).perform h = .ok (.flag false, h')) : r ∈ h.protoChain proto := by
  rcases Performs.of_attempt (fun _ _ => hv.of_setPrototype hn) e with ⟨_, he, hdone⟩ | ⟨⟨_, he⟩, _⟩
  · cases he
    obtain ⟨d, _, hanswer⟩ := hdone.answer
    by_contra hfree
    simp [Record.reparent, hfree] at hanswer
  · cases he

end Heap

/-! ## Runs -/

namespace Client

variable {allowed : Operation → Prop} {config : Config} {h : Heap} {x : Ledger}

/-- No object of a heap a client comes to is among its own prototypes. -/
theorem Reached.acyclic (hr : Reached allowed config h x) : h.Acyclic := by
  have hboth : h.Uniform ∧ h.Acyclic := by
    induction hr with
    | start => exact ⟨Heap.uniform_new config, Heap.acyclic_new config⟩
    | next hr op _ hp e ih =>
      obtain ⟨_, _, hv⟩ := hr.valid
      rw [← Ledger.minus_plus hp.owned, Ledger.plus_comm] at hv
      exact ⟨(Heap.Valid.fills_of_operation op hv ih.1 hp.named e).uniform ih.1,
        Heap.Valid.acyclic_of_operation op hv ih.1 hp.named ih.2 e⟩
  exact hboth.2

/-- Prototype chains are finite.  From every object on, the prototypes come to an end and pass no object
twice, and all of them are there; so a lookup answers where on the chain the property is found first, or
that it is nowhere, and every property can be read.  A prototype is refused, with nothing changed, just if
the object is on the chain that starts with it. -/
theorem prototype_chains_finite (hr : Reached (fun _ => True) config h x) :
    (∀ r o, h.object? r = some o → ∃ rs, h.Chain (some r) rs ∧ rs.Nodup ∧
      (∀ q ∈ rs, ∃ o, h.object? q = some o) ∧
      ∀ atom, h.Finds atom 0 rs (h.lookup? r atom) ∧
        ∃ v h', (Call.getProperty r atom).perform h = .ok (.value v, h')) ∧
    ∀ r proto h', (Operation.call (.setPrototype r proto)).Permitted x h →
      ((Call.setPrototype r proto).perform h = .ok (.flag false, h') ↔
        h' = h ∧ ∃ rs, h.Chain proto rs ∧ r ∈ rs) := by
  obtain ⟨_, _, hv⟩ := hr.valid
  have ha := hr.acyclic
  refine ⟨fun r o ho => ?_, fun r proto h' hp => ⟨fun e => ?_, ?_⟩⟩
  · have hc := ha.chain (some r)
    refine ⟨_, hc, hc.nodup ha, fun q hq => ?_, fun atom => ⟨hc.finds (h.length_protoChainFrom_le _ _),
      hv.performs_getProperty hr.kept.2 r atom⟩⟩
    have hnames : h.Names ((some r).toList.map (·, .object)) := Heap.names_of_proto fun q hq => by
      rw [← Option.some.inj hq, Heap.kind?_eq_map, Heap.object?_iff_body?.mp ho]
      rfl
    obtain ⟨o', ho'⟩ := hv.sound.object_of_kind (hv.sound.kind?_of_mem_protoChain hnames hq)
    exact ⟨o', Heap.object?_iff_body?.mpr ho'⟩
  · have hmem := hv.mem_of_refused hp.named e
    cases (Heap.setPrototype_of_mem hmem).symm.trans e
    exact ⟨rfl, _, ha.chain proto, hmem⟩
  · rintro ⟨rfl, rs, hc, hmem⟩
    exact Heap.setPrototype_of_mem (hc.unique (ha.chain proto) ▸ hmem)

/-- An object inherits a property: it is found one step away, and the object that has it cannot have the
other for its prototype. -/
theorem prototype_chains_finite_inherited : ∃ h x, Reached (fun _ => True) .default h x ∧
    h.Chain (some ⟨3, 0⟩) [⟨3, 0⟩, ⟨1, 0⟩] ∧
    h.Finds ⟨300⟩ 0 [⟨3, 0⟩, ⟨1, 0⟩] (some ⟨⟨1, 0⟩, 0, .ordinary, 1⟩) ∧
    (Call.setPrototype ⟨1, 0⟩ (some ⟨3, 0⟩)).perform h = .ok (.flag false, h) := by
  obtain ⟨h₁, e₁, hrest⟩ := ok_of_answers (x := (Call.newObject none).perform (.new .default))
    (a := .handle ⟨1, 0⟩) (t := fun h => decide (h.kind? ⟨1, 0⟩ = some .object) &&
      answers ((Call.newObject (some ⟨1, 0⟩)).perform h) (.handle ⟨3, 0⟩) fun h =>
        answers ((Call.defineProperty ⟨1, 0⟩ ⟨300⟩ .ordinary (.smi 7)).perform h) (.flag true) fun h =>
          decide (h.kind? ⟨3, 0⟩ = some .object ∧ h.protoChain (some ⟨3, 0⟩) = [⟨3, 0⟩, ⟨1, 0⟩] ∧
            h.lookup? ⟨3, 0⟩ ⟨300⟩ = some ⟨⟨1, 0⟩, 0, .ordinary, 1⟩))
    (by decide +kernel)
  obtain ⟨hkind₁, hrest⟩ := Bool.and_eq_true_iff.mp hrest
  obtain ⟨h₂, e₂, hrest⟩ := ok_of_answers hrest
  obtain ⟨h₃, e₃, hfacts⟩ := ok_of_answers hrest
  obtain ⟨hkind₃, hchain, hlookup⟩ := of_decide_eq_true hfacts
  have hstart : Reached (fun _ => True) .default (.new .default) .empty := .start
  have hr₁ := hstart.next (.call (.newObject none)) trivial (.of_nothing rfl rfl) e₁
  have hr₂ := hr₁.next (.call (.newObject (some ⟨1, 0⟩))) trivial
    ⟨fun r => Nat.zero_le _, Heap.names_of_proto fun q hq =>
      Option.some.inj hq ▸ of_decide_eq_true hkind₁⟩ e₂
  have hr₃ := hr₂.next (.call (.defineProperty ⟨1, 0⟩ ⟨300⟩ .ordinary (.smi 7))) trivial
    (.of_nothing rfl rfl) e₃
  obtain ⟨hchains, hset⟩ := prototype_chains_finite hr₃
  have hc := hchain ▸ hr₃.acyclic.chain (some ⟨3, 0⟩)
  obtain ⟨_, _, hv⟩ := hr₃.valid
  obtain ⟨o, ho⟩ := hv.sound.object_of_kind hkind₃
  obtain ⟨rs, hc', _, _, hall⟩ := hchains _ o (Heap.object?_iff_body?.mpr ho)
  obtain rfl := hc.unique hc'
  have hfinds := (hall ⟨300⟩).1
  rw [hlookup] at hfinds
  exact ⟨h₃, _, hr₃, hc, hfinds, (hset ⟨1, 0⟩ (some ⟨3, 0⟩) h₃ ⟨fun r => Nat.zero_le _,
    Heap.names_of_proto fun q hq => Option.some.inj hq ▸ hkind₃⟩).mpr ⟨rfl, _, hc, by simp⟩⟩

end Client

end ObjectMemory
