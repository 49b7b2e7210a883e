import ObjectMemory.Proofs.Clients
set_option autoImplicit false

/-!
# Objects as property maps

To a client an object is its prototype, whether it takes new properties, and its properties in order
(`Heap.propertyMap?`).  Shapes, holes, capacities and who shares what are not seen.  Each call on objects
is one operation on the map of one object (`Call.edit?`) or makes objects with known maps
(`Call.introduced`), and every other map stays as it is: `Heap.Refines`.

Calls that work on shapes or on slots by number are raw.  They can give an object two properties of one
name, and what a lookup finds then depends on the layout.  Without them names stay distinct, which is
the invariant (`Heap.Proper`) the proof rests on; `Heap.Outcome` says what one call does to records.
-/

namespace ObjectMemory

/-! ## What a call is on maps -/

namespace Call

/-- The call works on shapes, or on slots by their number. -/
def isRaw : Call → Bool
  | shapeForNewObject _ | addProperty .. | prepareUpdate _ | newObjectFromShape .. | writeSlot ..
  | arrayPush .. => true
  | _ => false

/-- The property the call is about, if there is one, has a name. -/
def isNamed : Call → Bool
  | defineProperty _ atom _ _ | defineAccessor _ atom _ _ _ | defineCaptured _ atom _ _
  | setProperty _ atom _ | deleteProperty _ atom => !atom.isNull
  | _ => true

/-- An operation on maps that answers whether it was done. -/
def flagged (op : PropertyMap → Bool × PropertyMap) (m : PropertyMap) : Reply × PropertyMap :=
  (.flag (op m).1, (op m).2)

/-- The object a call edits, and what it answers and makes of the map of that object.  Compaction makes
nothing of it. -/
def edit? (h : Heap) : Call → Option (Handle × (PropertyMap → Reply × PropertyMap))
  | defineProperty r atom flags v => some (r, flagged (·.define atom (flags.withKind .plain) (.value v)))
  | defineAccessor r atom flags getter setter =>
    some (r, flagged (·.define atom (flags.withKind .accessor) (.accessor getter setter)))
  | defineCaptured r atom flags x =>
    some (r, flagged (·.define atom (flags.withKind .captured) (.captured x)))
  | setProperty r atom v => some (r, flagged (·.assign atom v))
  | deleteProperty r atom => some (r, flagged (·.delete atom))
  | compactProperties r => some (r, fun m => (.done, m))
  | setPrototype r proto => some (r, flagged (·.reparent (decide (r ∈ h.protoChain proto)) proto))
  | preventExtensions r => some (r, fun m => (.done, { m with extensible := false }))
  | _ => none

/-- The map of a new array: it has a length and no other property. -/
def arrayMap (c : Realm) : PropertyMap :=
  ⟨some c.arrayProto, true, [⟨.length, AllocM.lengthFlags, .value (.smi 0)⟩]⟩

/-- The objects a call makes, with their maps. -/
def introduced (h h' : Heap) : Call → Reply → List (Handle × PropertyMap)
  | newObject proto, .handle r => [(r, .empty proto)]
  | newClosure proto _ _ _, .handle r => [(r, .empty proto)]
  | newArray ctx, .handle r => (h.realm? ctx).toList.map fun c => (r, arrayMap c)
  | newRealm, .handle r =>
    ((h'.realm? r).toList.flatMap Realm.intrinsics).map fun p => (p.1, .empty p.2)
  | _, _ => []

variable {call : Call} {h h' : Heap} {reply : Reply}

theorem edit?_of_isMute (hmute : call.isMute = true) : call.edit? h = none := by
  cases call <;> simp_all [isMute, edit?]

theorem introduced_of_isMute (hmute : call.isMute = true) : call.introduced h h' reply = [] := by
  cases call <;> simp_all [isMute, introduced]

theorem introduced_of_edit? {p : Handle × (PropertyMap → Reply × PropertyMap)}
    (hedit : call.edit? h = some p) : call.introduced h h' reply = [] := by
  cases call <;> simp_all [edit?, introduced]

end Call

namespace Heap

variable {x y : Ledger} {h h₁ h' : Heap} {q r s : Handle} {call : Call} {reply : Reply} {m : PropertyMap}
  {d : Record} {o : Object} {n : Nat}

/-! ## What one call does to records -/

/-- The properties of every object have distinct names, and every realm makes arrays that have a length
and no other property. -/
def Proper (h : Heap) : Prop := ∀ r v, h.drawing? r = some v → v.Proper

theorem Grows.proper (e : Grows h h') (hp : h.Proper) : h'.Proper := by
  intro r v hv
  rcases e r v hv with hbefore | hnew
  · exact hp r v hbefore
  · exact hnew.proper

theorem Proper.distinct (hp : h.Proper) (hd : h.record? r = some d) : d.toMap.Distinct :=
  hp r (.object d) (record?_eq_some_iff.mp hd)

/-- How a call on objects can end. -/
inductive Outcome (x : Ledger) (h : Heap) (call : Call) : Reply → Heap → Prop where
  | exhausted {err : OutOfMemory} {h' : Heap} (hgrows : Grows h h') : Outcome x h call (.exhausted err) h'
  /-- no object was asked for -/
  | unseen {reply : Reply} {h' : Heap} (hmute : call.isMute = true) (hleft : Apart [] h h') :
      Outcome x h call reply h'
  /-- the object is not there -/
  | absent {r : Handle} {op : PropertyMap → Reply × PropertyMap} {reply : Reply} {h' : Heap}
      (hedit : call.edit? h = some (r, op)) (hnone : h.record? r = none) (hleft : Apart [] h h') :
      Outcome x h call reply h'
  /-- one object has another record -/
  | edited {r : Handle} {op : PropertyMap → Reply × PropertyMap} {reply : Reply} {h' : Heap} {d : Record}
      {f : Record → Record} (hedit : call.edit? h = some (r, op)) (hd : h.record? r = some d)
      (halters : Alters r f h h') (hdistinct : (f d).toMap.Distinct)
      (hmap : call.isNamed = true → op d.toMap = (reply, (f d).toMap)) : Outcome x h call reply h'
  /-- there is one more object -/
  | made {r : Handle} {h' : Heap} {d : Record} (hedit : call.edit? h = none)
      (hmade : call.introduced h h' (.handle r) = [(r, d.toMap)]) (hdistinct : d.toMap.Distinct)
      (hnew : Introduces x r d h h') : Outcome x h call (.handle r) h'
  /-- there is one more realm with its objects -/
  | founded {r : Handle} {c : Realm} {h' : Heap} (hcall : call = .newRealm) (hnew : Founds x r c h h') :
      Outcome x h call (.handle r) h'

theorem Outcome.proper (e : Outcome x h call reply h') (hp : h.Proper) : h'.Proper := by
  cases e with
  | exhausted hgrows => exact hgrows.proper hp
  | unseen _ hleft => exact hleft.grows.proper hp
  | absent _ _ hleft => exact hleft.grows.proper hp
  | @edited r _ _ _ d f _ hd halters hdistinct _ =>
    intro q v hv
    by_cases hq : q = r
    · rw [hq] at hv
      obtain ⟨d', hd', rfl⟩ := halters.here v hv
      cases hd.symm.trans (record?_eq_some_iff.mpr hd')
      exact hdistinct
    · exact hp q v (halters.others q v (by simpa using hq) hv)
  | @made r _ d _ _ hdistinct hnew =>
    intro q v hv
    by_cases hq : q = r
    · rw [hq, record?_eq_some_iff.mp hnew.seen] at hv
      cases hv
      exact hdistinct
    · exact hp q v (hnew.apart q v (by simpa using hq) hv)
  | @founded r c _ _ hnew =>
    intro q v hv
    by_cases hq : q = r
    · rw [hq, hnew.layout] at hv
      cases hv
      exact ⟨rfl, rfl⟩
    · by_cases hmem : q ∈ c.intrinsics.map (·.1)
      · obtain ⟨p, hp', rfl⟩ := List.mem_map.mp hmem
        rw [record?_eq_some_iff.mp (hnew.seen p hp')] at hv
        cases hv
        exact PropertyMap.distinct_empty p.2
      · exact hp q v (hnew.apart q v (by simp [hq, hmem]) hv)

/-- A call that alters the record of an object, if there is one. -/
theorem Alters.outcome {op : PropertyMap → Reply × PropertyMap} {f : Record → Record} (e : Alters r f h h')
    (hp : h.Proper) (hedit : call.edit? h = some (r, op))
    (hdistinct : ∀ d, d.toMap.Distinct → (f d).toMap.Distinct)
    (hmap : ∀ d, op d.toMap = (reply, (f d).toMap)) : Outcome x h call reply h' := by
  cases hd : h.record? r with
  | some d => exact .edited hedit hd e (hdistinct d (hp.distinct hd)) fun _ => hmap d
  | none =>
    refine .absent hedit hd fun q v _ hv => ?_
    by_cases hq : q = r
    · rw [hq] at hv
      obtain ⟨d, hd', _⟩ := e.here v hv
      cases hd.symm.trans (record?_eq_some_iff.mpr hd')
    · exact e.others q v (by simpa using hq) hv

/-- A call that may run out of memory, given how what it attempts ends. -/
theorem Outcome.of_attempt {α : Type} {act : AllocM α} {f : α → Reply}
    (hact : ∀ res h₁, act.run h = .ok (res, h₁) →
      (∃ a, res = .ok a ∧ Outcome x h call (f a) h₁) ∨ (∃ err, res = .error err) ∧ Grows h h₁)
    (e : Call.attempt act f h = .ok (reply, h')) : Outcome x h call reply h' := by
  rcases Call.attempt_eq_ok e with ⟨a, hrun, rfl⟩ | ⟨err, hrun, rfl⟩
  · rcases hact _ _ hrun with ⟨_, hres, hout⟩ | ⟨⟨_, hres⟩, _⟩
    · cases hres
      exact hout
    · cases hres
  · rcases hact _ _ hrun with ⟨_, hres, _⟩ | ⟨_, hgrows⟩
    · cases hres
    · exact .exhausted hgrows

/-- An operation on the record of an object is one on its map: the same if the property has a name, and
none otherwise. -/
theorem Performs.outcome {op : Record → Bool × Record} {mapOp : PropertyMap → Bool × PropertyMap}
    {done : Bool} (e : Performs x r op done h h') (hp : h.Proper)
    (hedit : call.edit? h = some (r, Call.flagged mapOp))
    (hmap : ∀ d, h.record? r = some d → d.toMap.Distinct → call.isNamed = true →
      mapOp d.toMap = ((op d).1, (op d).2.toMap) ∧ (mapOp d.toMap).2.Distinct)
    (hnull : ∀ d, call.isNamed = false → (op d).2.toMap = d.toMap) : Outcome x h call (.flag done) h' := by
  obtain ⟨d, hd, hdone⟩ := e.answer
  obtain ⟨f, halters, heffect⟩ := e.seen
  have hdistinct := hp.distinct hd
  refine .edited hedit hd halters ?_ fun hnamed => ?_
  · rw [heffect d hd]
    cases hnamed : call.isNamed with
    | false => exact hnull d hnamed ▸ hdistinct
    | true =>
      obtain ⟨he, hd'⟩ := hmap d hd hdistinct hnamed
      rw [he] at hd'
      exact hd'
  · unfold Call.flagged
    rw [(hmap d hd hdistinct hnamed).1, heffect d hd, hdone]

theorem findOwn?_of_null {atom : Atom} (hnull : atom.isNull = true) : h.findOwn? r atom = none := by
  unfold findOwn? findProperty?
  cases h.object? r with
  | none => rfl
  | some o => simp [Shape.find?, hnull]

/-- The three ways to define a property. -/
theorem Performs.outcome_define {atom : Atom} {flags : Flags} {p : Property} {done : Bool}
    (e : Performs x r (·.define (h.findOwn? r atom) atom flags p) done h h') (hv : h.Valid y)
    (hp : h.Proper) (hedit : call.edit? h = some (r, Call.flagged (·.define atom flags p)))
    (hname : call.isNamed = !atom.isNull) : Outcome x h call (.flag done) h' := by
  refine e.outcome hp hedit (fun d hd hdistinct hnamed => ⟨?_, hdistinct.define atom flags p⟩)
    fun d hnull => ?_
  · have hnull : atom.isNull = false := by simpa [hname] using hnamed
    exact Record.toMap_define hnull hdistinct (hv.locates hd hnull)
  · have hnull : atom.isNull = true := by simpa [hname] using hnull
    rw [findOwn?_of_null hnull]
    exact Record.toMap_define_null hnull

theorem realm?_of_drawing? {c : Realm} {proto : Option Handle} {entries : Array Entry}
    (hv : h.drawing? r = some (.realm c proto entries)) : h.realm? r = some c := by
  obtain ⟨b, _, t, hb, _, _, hdraw⟩ := drawing?_eq_some_iff.mp hv
  cases b with
  | realm c' =>
    cases hdraw
    simp [realm?, hb]
  | _ => cases hdraw

/-- What a call that is not raw does to records. -/
theorem Valid.outcome (call : Call) (hraw : call.isRaw = false) (hv : h.Valid (x.plus call.consumed))
    (hp : h.Proper) (hn : h.Names call.named) (e : call.perform h = .ok (reply, h')) :
    Outcome x h call reply h' := by
  by_cases hmute : call.isMute = true
  · exact .unseen hmute (Valid.passes_of_call call hmute hv hn e).apart
  cases call with
  | newObject proto =>
    have hv : h.Valid x := hv
    refine Outcome.of_attempt (fun res h₁ hrun => ?_) e
    rcases hv.of_newObject hn hrun with ⟨r, rfl, hnew⟩ | ⟨herr, hl⟩
    · exact .inl ⟨r, rfl, .made (d := ⟨proto, true, []⟩) rfl rfl
        (PropertyMap.distinct_empty proto) hnew⟩
    · exact .inr ⟨herr, hl.apart.grows⟩
  | newClosure proto bytecode captured home =>
    obtain ⟨hproto, hnames⟩ := Names.append_iff.mp hn
    refine Outcome.of_attempt (fun res h₁ hrun => ?_) e
    rcases Valid.of_newClosure hv hproto hnames hrun with ⟨r, rfl, hnew⟩ | ⟨herr, hl⟩
    · exact .inl ⟨r, rfl, .made (d := ⟨proto, true, []⟩) rfl rfl
        (PropertyMap.distinct_empty proto) hnew⟩
    · exact .inr ⟨herr, hl.apart.grows⟩
  | newArray ctx =>
    have hv : h.Valid x := hv
    refine Outcome.of_attempt (fun res h₁ hrun => ?_) e
    rcases hv.of_newArray hrun with ⟨r, c, proto, entries, d, rfl, hctx, hnew, hd⟩ | ⟨herr, hl⟩
    · obtain ⟨rfl, rfl⟩ : Drawing.Proper (.realm c proto entries) := hp ctx _ hctx
      cases hd rfl
      refine .inl ⟨r, rfl, .made rfl ?_ ?_ hnew⟩
      · rw [Call.introduced, realm?_of_drawing? hctx]
        rfl
      · exact List.nodup_singleton _
    · exact .inr ⟨herr, hl.apart.grows⟩
  | newRealm =>
    have hv : h.Valid x := hv
    refine Outcome.of_attempt (fun res h₁ hrun => ?_) e
    rcases hv.of_newRealm hrun with ⟨r, c, rfl, hnew⟩ | ⟨herr, hgave⟩
    · exact .inl ⟨r, rfl, .founded rfl hnew⟩
    · exact .inr ⟨herr, hgave.grows⟩
  | defineProperty r atom flags v =>
    rcases Performs.of_attempt (fun _ _ => Valid.of_defineOwn (p := .value v) hv hn) e with
      ⟨done, rfl, hdone⟩ | ⟨⟨err, rfl⟩, hl⟩
    · exact hdone.outcome_define hv hp rfl rfl
    · exact .exhausted hl.apart.grows
  | defineAccessor r atom flags getter setter =>
    have hv : h.Valid x := hv
    rcases Performs.of_attempt (fun _ _ => hv.of_defineAccessor hn) e with
      ⟨done, rfl, hdone⟩ | ⟨⟨err, rfl⟩, hl⟩
    · exact hdone.outcome_define hv hp rfl rfl
    · exact .exhausted hl.apart.grows
  | defineCaptured r atom flags a =>
    rcases Performs.of_attempt (fun _ _ => Valid.of_defineOwn (p := .captured a) hv hn) e with
      ⟨done, rfl, hdone⟩ | ⟨⟨err, rfl⟩, hl⟩
    · exact hdone.outcome_define hv hp rfl rfl
    · exact .exhausted hl.apart.grows
  | setProperty r atom v =>
    refine Outcome.of_attempt (fun res h₁ hrun => ?_) e
    rcases Valid.of_assign hv hn hrun with ⟨done, rfl, hdone, _⟩ | ⟨herr, hl⟩
    · refine .inl ⟨done, rfl, hdone.outcome hp rfl (fun d hd hdistinct hnamed =>
        ⟨?_, hdistinct.assign atom v⟩) fun d hnull => ?_⟩
      · have hnull : atom.isNull = false := by simpa [Call.isNamed] using hnamed
        exact Record.toMap_assign hnull hdistinct (hv.locates hd hnull)
      · have hnull : atom.isNull = true := by simpa [Call.isNamed] using hnull
        rw [findOwn?_of_null hnull]
        exact Record.toMap_define_null hnull
    · exact .inr ⟨herr, hl.apart.grows⟩
  | deleteProperty r atom =>
    have hv : h.Valid x := hv
    refine Outcome.of_attempt (fun res h₁ hrun => ?_) e
    cases ho : h.object? r with
    | none =>
      obtain ⟨rfl, rfl⟩ := deleteProperty_of_absent (by simp [findOwn?, ho]) hrun
      exact .inl ⟨true, rfl, .absent rfl (by simp [record?, ho]) (.refl [] _)⟩
    | some o =>
      rcases hv.of_deleteProperty (object?_iff_body?.mp ho) hrun with ⟨done, rfl, hdone⟩ | ⟨herr, hl⟩
      · refine .inl ⟨done, rfl, hdone.outcome hp rfl (fun d hd hdistinct hnamed =>
          ⟨?_, hdistinct.delete atom⟩) fun d hnull => ?_⟩
        · have hnull : atom.isNull = false := by simpa [Call.isNamed] using hnamed
          exact Record.toMap_delete hnull hdistinct (hv.locates hd hnull)
        · have hnull : atom.isNull = true := by simpa [Call.isNamed] using hnull
          rw [findOwn?_of_null hnull]
          rfl
      · exact .inr ⟨herr, hl.apart.grows⟩
  | compactProperties r =>
    have hv : h.Valid x := hv
    refine Outcome.of_attempt (fun res h₁ hrun => ?_) e
    rcases hv.of_compactProperties hrun with ⟨rfl, _, _, _, halters⟩ | ⟨herr, hl, _⟩
    · exact .inl ⟨(), rfl, halters.outcome hp rfl (fun d hd => by rwa [Record.toMap_squeeze])
        fun d => by rw [Record.toMap_squeeze]⟩
    · exact .inr ⟨herr, hl.apart.grows⟩
  | setPrototype r proto =>
    have hv : h.Valid x := hv
    rcases Performs.of_attempt (fun _ _ => hv.of_setPrototype hn) e with
      ⟨done, rfl, hdone⟩ | ⟨⟨err, rfl⟩, hl⟩
    · exact hdone.outcome hp rfl
        (fun d _ hdistinct _ => ⟨Record.toMap_reparent _ _, hdistinct.reparent _ proto⟩)
        fun _ h => by cases h
    · exact .exhausted hl.apart.grows
  | preventExtensions r =>
    have hv : h.Valid x := hv
    obtain ⟨_, e₁, rfl⟩ := Call.answer_eq_ok e
    exact (hv.of_preventExtensions e₁).2.outcome hp rfl (fun _ hd => hd) fun _ => rfl
  | shapeForNewObject | addProperty | prepareUpdate | newObjectFromShape | writeSlot | arrayPush => cases hraw
  | _ => exact absurd rfl hmute

/-! ## What is seen of it -/

/-- A writable property that stands for a captured variable holds the handle of the variable, and an
assignment to the property is one to the variable. -/
def WritesThrough (h : Heap) (call : Call) (h' : Heap) : Prop :=
  ∀ r atom v m e, call = .setProperty r atom v → h.propertyMap? r = some m → m.find? atom = some e →
    e.flags.contains .writable = true → e.flags.kind = .captured →
      ∃ y, e.property = .captured y ∧ (h'.contains y = true → h'.variableValue y = .ok v)

/-- A call does to property maps what it should.  Objects that the call frees are not there to be seen
after it. -/
structure Refines (h : Heap) (call : Call) (reply : Reply) (h' : Heap) : Prop where
  here : ∀ r op m, call.edit? h = some (r, op) → h.propertyMap? r = some m →
    reply = (op m).1 ∧ (h'.contains r = true → h'.propertyMap? r = some (op m).2)
  others : ∀ q m, (∀ r op, call.edit? h = some (r, op) → q ≠ r) → h.propertyMap? q = some m →
    h'.contains q = true → h'.propertyMap? q = some m
  made : ∀ p ∈ call.introduced h h' reply, h.contains p.1 = false ∧ h'.propertyMap? p.1 = some p.2
  only : ∀ q m, h'.propertyMap? q = some m → h.contains q = false → (q, m) ∈ call.introduced h h' reply
  through : WritesThrough h call h'

theorem propertyMap?_eq_some_iff :
    h.propertyMap? r = some m ↔ ∃ d, h.record? r = some d ∧ d.toMap = m := Option.map_eq_some_iff

theorem object_of_record? (hd : h.record? r = some d) : ∃ o, h.body? r = some (.object o) := by
  obtain ⟨o, ho, _⟩ := Option.bind_eq_some_iff.mp hd
  exact ⟨o, object?_iff_body?.mp ho⟩

theorem contains_of_propertyMap? (hm : h.propertyMap? r = some m) : h.contains r = true := by
  obtain ⟨d, hd, _⟩ := propertyMap?_eq_some_iff.mp hm
  obtain ⟨o, ho⟩ := object_of_record? hd
  exact contains_of_body? ho

/-- An object that is still there still is an object. -/
theorem Evolves.record_later (ev : Evolves n h h') (hn : n < 4294967295) (hv : h'.Valid x)
    (hd : h.record? r = some d) (hlive : h'.contains r = true) : ∃ d', h'.record? r = some d' := by
  obtain ⟨o, ho⟩ := object_of_record? hd
  obtain ⟨c, hc, hcb⟩ := body?_eq_some_iff.mp ho
  obtain ⟨c', hc'⟩ := contains_iff.mp hlive
  have hkind : h'.kind? r = some .object := by
    refine kind?_eq_some_iff.mpr ⟨c', hc', ?_⟩
    have hfollows := (ev.follows_of_live hc hc' hn).kind
    rw [hcb] at hfollows
    exact hfollows
  obtain ⟨o', ho'⟩ := hv.sound.object_of_kind hkind
  obtain ⟨t, _, hd'⟩ := hv.sound.exists_record ho'
  exact ⟨_, hd'⟩

/-- What was left alone and is still there has the map it had. -/
theorem Apart.map_later {rs : List Handle} (e : Apart rs h h') (ev : Evolves n h h') (hn : n < 4294967295)
    (hv : h'.Valid x) (hq : q ∉ rs) (hm : h.propertyMap? q = some m) (hlive : h'.contains q = true) :
    h'.propertyMap? q = some m := by
  obtain ⟨d, hd, rfl⟩ := propertyMap?_eq_some_iff.mp hm
  obtain ⟨d', hd'⟩ := ev.record_later hn hv hd hlive
  have hsame := record?_eq_some_iff.mpr (e q _ hq (record?_eq_some_iff.mp hd'))
  cases hd.symm.trans hsame
  exact propertyMap?_eq_some_iff.mpr ⟨d, hd', rfl⟩

/-- What was left alone and is an object was there before. -/
theorem Apart.contains_before {rs : List Handle} (e : Apart rs h h') (hq : q ∉ rs)
    (hm : h'.propertyMap? q = some m) : h.contains q = true := by
  obtain ⟨d, hd, _⟩ := propertyMap?_eq_some_iff.mp hm
  have hsame := record?_eq_some_iff.mpr (e q _ hq (record?_eq_some_iff.mp hd))
  obtain ⟨o, ho⟩ := object_of_record? hsame
  exact contains_of_body? ho

/-- A call that edits no object, given the cells it makes and what is seen of them. -/
theorem Refines.of_new {rs : List Handle} (hedit : call.edit? h = none) (e : Apart rs h h')
    (hv : h'.Valid y) (ev : Evolves 11 h h') (hfresh : ∀ q ∈ rs, h.contains q = false)
    (hmade : ∀ p ∈ call.introduced h h' reply, p.1 ∈ rs ∧ h'.propertyMap? p.1 = some p.2)
    (honly : ∀ q m, q ∈ rs → h'.propertyMap? q = some m → (q, m) ∈ call.introduced h h' reply)
    (hthrough : WritesThrough h call h') : Refines h call reply h' := by
  refine ⟨fun r op m hedit' => ?_, fun q m _ hm hlive => ?_, fun p hp => ?_, fun q m hm hnew => ?_, hthrough⟩
  · cases hedit.symm.trans hedit'
  · refine e.map_later ev (by decide) hv (fun hq => ?_) hm hlive
    cases (hfresh q hq).symm.trans (contains_of_propertyMap? hm)
  · exact ⟨hfresh p.1 (hmade p hp).1, (hmade p hp).2⟩
  · by_cases hq : q ∈ rs
    · exact honly q m hq hm
    · cases hnew.symm.trans (e.contains_before hq hm)

theorem Founds.introduced {c : Realm} (e : Founds x r c h h') :
    Call.introduced h h' .newRealm (.handle r) = c.intrinsics.map fun p => (p.1, .empty p.2) := by
  rw [Call.introduced, realm?_of_drawing? e.layout]
  simp

theorem Founds.propertyMap? {c : Realm} (e : Founds x r c h h') {p : Handle × Option Handle}
    (hp : p ∈ c.intrinsics) : h'.propertyMap? p.1 = some (.empty p.2) :=
  propertyMap?_eq_some_iff.mpr ⟨_, e.seen p hp, rfl⟩

/-- What a call does to records is what it should do to maps. -/
theorem Outcome.refines (e : Outcome x h call reply h') (hv : h'.Valid y) (ev : Evolves 11 h h')
    (hnamed : call.isNamed = true) (hroom : ∀ err, reply ≠ .exhausted err)
    (hthrough : WritesThrough h call h') : Refines h call reply h' := by
  cases e with
  | @exhausted err => exact absurd rfl (hroom err)
  | unseen hmute hleft =>
    refine .of_new (Call.edit?_of_isMute hmute) hleft hv ev nofun (fun p hp => ?_) nofun hthrough
    rw [Call.introduced_of_isMute hmute] at hp
    cases hp
  | absent hedit hnone hleft =>
    refine ⟨fun r op m hedit' hm => ?_, fun q m _ => hleft.map_later ev (by decide) hv List.not_mem_nil,
      fun p hp => ?_, fun q m hm hnew => ?_, hthrough⟩
    · cases hedit.symm.trans hedit'
      rw [propertyMap?, hnone] at hm
      cases hm
    · rw [Call.introduced_of_edit? hedit] at hp
      cases hp
    · cases hnew.symm.trans (hleft.contains_before List.not_mem_nil hm)
  | @edited r op _ _ d f hedit hd halters _ hmap =>
    refine ⟨fun r' op' m hedit' hm => ?_, fun q m hq => ?_, fun p hp => ?_, fun q m hm hnew => ?_, hthrough⟩
    · cases hedit.symm.trans hedit'
      obtain ⟨d', hd', rfl⟩ := propertyMap?_eq_some_iff.mp hm
      cases hd.symm.trans hd'
      rw [hmap hnamed]
      refine ⟨rfl, fun hlive => ?_⟩
      obtain ⟨d', hd'⟩ := ev.record_later (by decide) hv hd hlive
      obtain ⟨d₀, hd₀, rfl⟩ := halters.record hd'
      cases hd.symm.trans hd₀
      exact propertyMap?_eq_some_iff.mpr ⟨_, hd', rfl⟩
    · exact halters.others.map_later ev (by decide) hv (by simpa using hq r op hedit)
    · rw [Call.introduced_of_edit? hedit] at hp
      cases hp
    · by_cases hq : q = r
      · obtain ⟨o, ho⟩ := object_of_record? hd
        rw [hq, contains_of_body? ho] at hnew
        cases hnew
      · cases hnew.symm.trans (halters.others.contains_before (by simpa using hq) hm)
  | @made r _ d hedit hmade _ hnew =>
    have hseen : h'.propertyMap? r = some d.toMap := propertyMap?_eq_some_iff.mpr ⟨d, hnew.seen, rfl⟩
    refine .of_new hedit hnew.apart hv ev (fun q hq => ?_) (fun p hp => ?_) (fun q m hq hm => ?_) hthrough
    · cases List.mem_singleton.mp hq
      exact hnew.fresh
    · rw [hmade] at hp
      cases List.mem_singleton.mp hp
      exact ⟨List.mem_singleton.mpr rfl, hseen⟩
    · cases List.mem_singleton.mp hq
      cases hseen.symm.trans hm
      rw [hmade]
      exact List.mem_singleton.mpr rfl
  | @founded r c _ hcall hnew =>
    subst hcall
    refine .of_new rfl hnew.apart hv ev hnew.fresh (fun p hp => ?_) (fun q m hq hm => ?_) hthrough
    · rw [hnew.introduced] at hp
      obtain ⟨q, hq, rfl⟩ := List.mem_map.mp hp
      exact ⟨List.mem_cons_of_mem _ (List.mem_map_of_mem hq), hnew.propertyMap? hq⟩
    · rw [hnew.introduced]
      rcases List.mem_cons.mp hq with rfl | hq
      · -- the realm itself is no object
        obtain ⟨d, hd, _⟩ := propertyMap?_eq_some_iff.mp hm
        cases hnew.layout.symm.trans (record?_eq_some_iff.mp hd)
      · obtain ⟨p, hp, rfl⟩ := List.mem_map.mp hq
        cases (hnew.propertyMap? hp).symm.trans hm
        exact List.mem_map.mpr ⟨p, hp, rfl⟩

/-- An assignment that was not given up writes through. -/
theorem Valid.writesThrough (hv : h.Valid (x.plus call.consumed)) (hp : h.Proper) (hn : h.Names call.named)
    (hnamed : call.isNamed = true) (hroom : ∀ err, reply ≠ .exhausted err)
    (e : call.perform h = .ok (reply, h')) : WritesThrough h call h' := by
  rintro r atom v m e' rfl hm hfind hwritable hkind
  obtain ⟨d, hd, rfl⟩ := propertyMap?_eq_some_iff.mp hm
  have hnull : atom.isNull = false := by simpa [Call.isNamed] using hnamed
  have hloc := hv.locates hd hnull
  rcases Call.attempt_eq_ok e with ⟨done, hrun, rfl⟩ | ⟨err, _, rfl⟩
  · rcases Valid.of_assign hv hn hrun with ⟨_, hres, hdone, hwritten⟩ | ⟨⟨_, hres⟩, _⟩
    · cases hres
      cases hplace : h.findOwn? r atom with
      | none =>
        rw [hplace] at hloc
        rw [Record.find?_toMap_of_none hloc] at hfind
        cases hfind
      | some place =>
        obtain ⟨i, flags⟩ := place
        rw [hplace] at hloc
        obtain ⟨p, hi⟩ := hloc
        rw [Record.find?_toMap hnull (hp.distinct hd) hi] at hfind
        cases hfind
        obtain ⟨d', hd', hanswer⟩ := hdone.answer
        cases hd.symm.trans hd'
        have hkinds : Flags.captured ≠ Flags.accessor := by decide
        have htrue : done = true := by
          rw [← hanswer, hplace]
          simp [Record.assign, hwritable, hkind, hkinds]
        obtain ⟨y, hy, hvalue⟩ := hwritten i flags d hplace htrue hkind hd
        rw [hi] at hy
        cases hy
        exact ⟨y, rfl, hvalue⟩
    · cases hres
  · exact absurd rfl (hroom err)

end Heap

namespace Operation

/-- The operation is a call that is not raw. -/
def isOnObjects : Operation → Bool
  | call c => !c.isRaw
  | _ => false

theorem isPush_of_isOnObjects {op : Operation} (hop : op.isOnObjects = true) : op.isPush = false := by
  cases op with
  | call c => cases c <;> simp_all [isOnObjects, Call.isRaw, isPush, Call.isPush]
  | _ => rfl

end Operation

namespace Client

variable {config : Config} {h h' : Heap} {x : Ledger} {reply : Reply}

theorem proper_new (config : Config) : (Heap.new config).Proper := by
  intro r v hv
  cases (Heap.drawing?_new config r).symm.trans hv

theorem Reached.valid_of_objects (hr : Reached (·.isOnObjects = true) config h x) : h.Valid x :=
  (hr.mono fun _ => Operation.isPush_of_isOnObjects).valid_of_no_push

/-- Names stay distinct along every run without raw calls, those that run out of memory and those with
the null atom included. -/
theorem Reached.proper (hr : Reached (·.isOnObjects = true) config h x) : h.Proper := by
  induction hr with
  | start => exact proper_new config
  | @next h h' x reply hr op ha hp e ih =>
    cases op with
    | call c =>
      have hv := hr.valid_of_objects
      rw [← Ledger.minus_plus hp.owned] at hv
      exact (hv.outcome c (by simpa [Operation.isOnObjects] using ha) ih hp.named e).proper ih
    | get => cases ha
    | set => cases ha

/-- Objects are property maps.  After any run without raw calls every object has a map with distinct
names; a call on an object answers and does what the operation on its map does, a call that makes objects
makes new ones with the maps they should have, and every other object that is still there has the map it
had. -/
theorem objects_refine_maps (hr : Reached (·.isOnObjects = true) config h x) (call : Call)
    (hraw : call.isRaw = false) (hnamed : call.isNamed = true)
    (hp : (Operation.call call).Permitted x h) (e : call.perform h = .ok (reply, h'))
    (hroom : ∀ err, reply ≠ .exhausted err) :
    (∀ r, h.kind? r = some .object → ∃ m, h.propertyMap? r = some m ∧ m.Distinct) ∧
    (∀ p r, r ∈ h.protoChain (some p) ↔ h.Inherits p r) ∧
    h.Refines call reply h' ∧
    ∀ r, h'.Held ((Operation.call call).settle x reply) r → h'.contains r = true := by
  have hproper := hr.proper
  have hv := hr.valid_of_objects
  have hv' := (hr.next (.call call) (by simpa [Operation.isOnObjects] using hraw) hp e).valid_of_objects
  refine ⟨fun r hkind => ?_, fun p r => Heap.mem_protoChain_iff, ?_, fun r hheld => ?_⟩
  · obtain ⟨o, ho⟩ := hv.sound.object_of_kind hkind
    obtain ⟨t, _, hd⟩ := hv.sound.exists_record ho
    exact ⟨_, Heap.propertyMap?_eq_some_iff.mpr ⟨_, hd, rfl⟩, hproper.distinct hd⟩
  · rw [← Ledger.minus_plus hp.owned] at hv
    have hthrough := hv.writesThrough hproper hp.named hnamed hroom e
    exact (hv.outcome call hraw hproper hp.named e).refines hv' (call.evolves e) hnamed hroom hthrough
  · have hcounted := hv'.sound.coherent.counted
    exact hcounted.contains_of_reachable (fun _ => hcounted.contains_of_outside) hheld

/-- Two objects come to share a layout; a property is deleted from the first, and the second keeps its
own. -/
theorem objects_refine_maps_shared : ∃ h h' x, Reached (·.isOnObjects = true) .default h x ∧
    (Call.deleteProperty ⟨1, 0⟩ ⟨300⟩).perform h = .ok (.flag true, h') ∧
    h.objectStamp? ⟨1, 0⟩ = h.objectStamp? ⟨2, 0⟩ ∧
    h.propertyMap? ⟨1, 0⟩ = some ⟨none, true, [⟨⟨300⟩, .ordinary, .value (.smi 7)⟩]⟩ ∧
    h'.propertyMap? ⟨1, 0⟩ = some (.empty none) ∧
    h'.propertyMap? ⟨2, 0⟩ = some ⟨none, true, [⟨⟨300⟩, .ordinary, .value (.smi 8)⟩]⟩ := by
  obtain ⟨⟨reply₁, h₁⟩, e₁, hrest⟩ := ok_of_test (x := (Call.newObject none).perform (.new .default))
    (t := fun p => passes ((Call.newObject none).perform p.2) fun p =>
      passes ((Call.setProperty ⟨1, 0⟩ ⟨300⟩ (.smi 7)).perform p.2) fun p =>
      passes ((Call.setProperty ⟨2, 0⟩ ⟨300⟩ (.smi 8)).perform p.2) fun p =>
        decide (p.2.objectStamp? ⟨1, 0⟩ = p.2.objectStamp? ⟨2, 0⟩ ∧
          p.2.propertyMap? ⟨1, 0⟩ = some ⟨none, true, [⟨⟨300⟩, .ordinary, .value (.smi 7)⟩]⟩ ∧
          p.2.propertyMap? ⟨2, 0⟩ = some ⟨none, true, [⟨⟨300⟩, .ordinary, .value (.smi 8)⟩]⟩) &&
      passes ((Call.deleteProperty ⟨1, 0⟩ ⟨300⟩).perform p.2) fun p =>
        decide (p.1 = .flag true ∧ p.2.contains ⟨1, 0⟩ ∧ p.2.contains ⟨2, 0⟩))
    (by decide +kernel)
  obtain ⟨⟨reply₂, h₂⟩, e₂, hrest⟩ := ok_of_test hrest
  obtain ⟨⟨reply₃, h₃⟩, e₃, hrest⟩ := ok_of_test hrest
  obtain ⟨⟨reply₄, h₄⟩, e₄, hrest⟩ := ok_of_test hrest
  obtain ⟨hbefore, hrest⟩ := Bool.and_eq_true_iff.mp hrest
  obtain ⟨hstamp, hmap₁, hmap₂⟩ := of_decide_eq_true hbefore
  obtain ⟨⟨reply₅, h₅⟩, e₅, hafter⟩ := ok_of_test hrest
  obtain ⟨rfl, hlive₁, hlive₂⟩ := of_decide_eq_true hafter
  have hstart : Reached (·.isOnObjects = true) .default (.new .default) .empty := .start
  have hr₁ := hstart.next (.call (.newObject none)) rfl (.of_nothing rfl rfl) e₁
  have hr₂ := hr₁.next (.call (.newObject none)) rfl (.of_nothing rfl rfl) e₂
  have hr₃ := hr₂.next (.call (.setProperty ⟨1, 0⟩ ⟨300⟩ (.smi 7))) rfl (.of_nothing rfl rfl) e₃
  have hr₄ := hr₃.next (.call (.setProperty ⟨2, 0⟩ ⟨300⟩ (.smi 8))) rfl (.of_nothing rfl rfl) e₄
  obtain ⟨_, _, hrefines, _⟩ := objects_refine_maps hr₄ (.deleteProperty ⟨1, 0⟩ ⟨300⟩) rfl rfl
    (.of_nothing rfl rfl) e₅ fun err h => by cases h
  refine ⟨h₄, h₅, _, hr₄, e₅, hstamp, hmap₁, (hrefines.here _ _ _ rfl hmap₁).2 hlive₁,
    hrefines.others _ _ (fun r op hedit => ?_) hmap₂ hlive₂⟩
  cases hedit
  decide

end Client

end ObjectMemory
