import ObjectMemory.Proofs.Compacting
set_option autoImplicit false

/-!
# Making cells

What the operations that make a cell do to a valid heap.  The references a new cell owns come from the
ledger, which owns the cell then; if memory runs out, they are given up.
-/

namespace ObjectMemory

/-- A suspended call that has completed. -/
def Suspension.finished (t : Suspension) : Suspension :=
  { t with active := false, receiver := .undefined, values := #[] }

/-- What a call had saved are the references it loses when it completes. -/
theorem Suspension.count_refs_finished (t : Suspension) (r : Handle) : t.refs.count r =
    t.finished.refs.count r + (t.values.toList.filterMap Value.ref?).count r +
      t.receiver.ref?.toList.count r := by
  simp only [refs, finished, contents, filterMap_ref?, List.flatMap_cons, List.flatMap_append,
    List.count_append, List.flatMap_nil]
  simp only [Value.ref?, Option.toList_none, List.count_nil]
  omega

namespace Heap

variable {x y : Ledger} {n : Nat} {h h₁ h₂ h' : Heap} {r s old : Handle} {o : Object} {t : Shape} {u : Unit}
  {atom : Atom} {flags : Flags} {body : Body} {p : Reservation}

/-! ## Shapes that the ledger owns -/

/-- The ledger has the shape `t` under `s` besides; the shapes it had are what they were. -/
structure Hands (x : Ledger) (s : Handle) (t : Shape) (h h' : Heap) : Prop extends
    Leaves (x.plus [s]) h h' where
  shape : h'.body? s = some (.shape t)
  steady : Steady x h h'

/-- The shape was there before, or nobody else has it. -/
theorem Valid.hands (hv : h'.Valid (x.plus [s])) (ht : h'.body? s = some (.shape t))
    (hothers : ∀ q b, q ≠ s → h'.body? q = some b → h.body? q = some b)
    (hsole : h.body? s = some (.shape t) ∨ h'.refCount? s = some 1) : Hands x s t h h' :=
  ⟨⟨hv, .of_shape hv.sound ht hothers hsole⟩, ht, .of_shape hv.sound ht hothers hsole⟩

theorem Provides.hands (e : Provides x 0 s t h h') (hl : h.Laid) : Hands x s t h h' :=
  Valid.hands ⟨e.sound, e.laid hl⟩ e.shape (fun q b hq => e.spares.bodies q b (by simpa using hq)) e.sole

theorem Valid.of_shapeForNewObject {proto : Option Handle} {res : Except OutOfMemory Handle}
    (hv : h.Valid x) (hproto : h.Names (proto.toList.map (·, .object)))
    (e : (AllocM.shapeForNewObject proto).run h = .ok (res, h')) :
    (∃ s t, res = .ok s ∧ Hands x s t h h' ∧ t.proto = proto ∧ t.entries = #[] ∧ t.isHashed = true) ∨
      (∃ err, res = .error err) ∧ GivesUp x h h' := by
  rcases hv.sound.of_shapeForNewObject hproto e with ⟨s, t, hres, hp, hempty, hreg, hnew⟩ | ⟨herr, hs', hk⟩
  · exact .inl ⟨s, t, hres, hnew.hands hv.laid, hp, hempty, hreg⟩
  · exact .inr ⟨herr, hv.givesUp ⟨hs', hk⟩ fun hq => hq.agree_of_shapeForNewObject hv.sound hproto e⟩

/-- The new shape takes the place of the old one in the ledger. -/
theorem Replaces.provides {new : Handle} {t₀ t' : Shape} (hrep : Replaces (x.plus [old]) n old new t₀ t' h h')
    (hsole : h.body? new = some (.shape t') ∨ h'.refCount? new = some 1) : Provides x n new t' h h' := by
  obtain ⟨y, hxy, hnew⟩ := hrep.owned (by simp) hsole
  obtain rfl : x = y := by
    funext r
    have := congrFun hxy r
    simp only [Ledger.plus_apply] at this
    omega
  exact hnew

/-- A shape that only the ledger has may be edited at will. -/
theorem Laid.of_unheld {t t' : Shape} (hl : h.Laid) (hs : h.Sound (x.plus [s]) n)
    (hone : h.refCount? s = some 1) (hok : h.Admits s t') (hre : Reshapes s t t' h h') : h'.Laid :=
  hl.of_shape (.of_rewrites hre rfl x) hre.after hok fun _ o ho _ hos =>
    absurd (hos ▸ Object.shape_mem_refs o) (hs.coherent.counted.unheld hone ho)

/-- Whichever way a property is added, the ledger has the extended layout for the one handed in, and other
bodies are as they were or gone. -/
theorem Valid.provides_of_addProperty {new : Handle} {index : Nat} (hv : h.Valid (x.plus [old]))
    (e : (AllocM.addProperty old atom flags).run h = .ok (.ok (new, index), h')) :
    ∃ t t', h.body? old = some (.shape t) ∧ index = t.entries.size ∧ Extended atom flags t t' ∧
      Provides x 0 new t' h h' := by
  rcases hv.sound.of_addProperty e with
    ⟨new, t, t', hres, hext, hsole, hrep⟩ | ⟨t, t', hres, hext, hone, hs', hre, hok⟩ | ⟨⟨_, hres⟩, _⟩
  · cases hres
    exact ⟨t, t', hrep.before, rfl, hext, hrep.provides hsole⟩
  · cases hres
    exact ⟨t, t', hre.before, rfl, hext, hs', hre.after, .of_rewrites hre rfl x,
      fun hl => hl.of_unheld hv.sound hone (hok hl) hre, .inr ((hre.count _).trans hone)⟩
  · cases hres

/-- Adding a property gives the caller a shape for the one handed in, or that one back. -/
theorem Valid.of_addProperty {res : Except OutOfMemory (Handle × Nat)} (hv : h.Valid (x.plus [old]))
    (e : (AllocM.addProperty old atom flags).run h = .ok (res, h')) :
    (∃ new index t t', res = .ok (new, index) ∧ Hands x new t' h h' ∧ h.body? old = some (.shape t) ∧
        Extended atom flags t t') ∨
      (∃ err, res = .error err) ∧ GivesUp (x.plus [old]) h h' := by
  cases res with
  | ok p =>
    obtain ⟨t, t', hold, _, hext, hnew⟩ := hv.provides_of_addProperty e
    exact .inl ⟨p.1, p.2, t, t', rfl, hnew.hands hv.laid, hold, hext⟩
  | error err =>
    obtain ⟨_, _, _, hres, _⟩ | ⟨_, _, hres, _⟩ | ⟨_, hs', hk⟩ := hv.sound.of_addProperty e
    · cases hres
    · cases hres
    · exact .inr ⟨⟨err, rfl⟩, hv.givesUp ⟨hs', hk⟩ fun hq => hq.agree_of_addProperty_error hv.sound e⟩

theorem Valid.of_prepareUpdate {res : Except OutOfMemory Handle} (hv : h.Valid (x.plus [old]))
    (e : (AllocM.prepareUpdate old).run h = .ok (res, h')) :
    (∃ new t, res = .ok new ∧ Hands x new t h h') ∨
      (∃ err, res = .error err) ∧ GivesUp (x.plus [old]) h h' := by
  rcases hv.sound.of_prepareUpdate e with
    ⟨new, t₀, t', hres, _, hone, hrep⟩ | ⟨t₀, t', hres, hun, hone, hs', hre⟩ | ⟨herr, hs', hk⟩
  · exact .inl ⟨new, t', hres, (hrep.provides (.inr hone)).hands hv.laid⟩
  · have hv' : h'.Valid (x.plus [old]) := ⟨hs', hv.laid.of_unheld hv.sound
      ((hre.count old).symm.trans hone) (hun.admits hv.laid hre.before) hre⟩
    exact .inl ⟨old, t', hres, hv'.hands hre.after (fun q b hq hb => by rw [← hre.others q hq, hb])
      (.inr hone)⟩
  · obtain ⟨err, rfl⟩ := herr
    exact .inr ⟨⟨err, rfl⟩, hv.givesUp ⟨hs', hk⟩ fun hq => hq.agree_of_prepareUpdate hv.sound e⟩

/-! ## Cells -/

theorem Makes.body_other {b b' : Body} (hm : Makes r b h h') (hs : s ≠ r) (hb' : h'.body? s = some b') :
    h.body? s = some b' := by
  obtain ⟨d, hd, rfl⟩ := body?_eq_some_iff.mp hb'
  obtain ⟨d₀, hd₀, he⟩ := hm.others s d hs hd
  exact body?_eq_some_iff.mpr ⟨d₀, hd₀, he.symm⟩

/-- Cell `r` is new, and the ledger alone has it; all else is as before or gone. -/
structure Adds (x : Ledger) (r : Handle) (b : Body) (h h' : Heap) : Prop where
  valid : h'.Valid (x.plus [r])
  fresh : h.contains r = false
  body : h'.body? r = some b
  others : ∀ q b', q ≠ r → h'.body? q = some b' → h.body? q = some b'
  agree : h.Quiet → Agree x h h'

/-- The new cell was not there before steps that make few cells. -/
theorem Evolves.fresh {k m : Nat} (ev₁ : Evolves k h h₁) (ev₂ : Evolves m h₁ h') (hkm : k + m < 4294967295)
    (hnone : h₁.contains r = false) (hlive : h'.contains r = true) : h.contains r = false := by
  cases hc : h.contains r with
  | false => rfl
  | true =>
    obtain ⟨c, hc⟩ := ev₁.tenant_of_live ev₂ hc hlive hkm
    simp [Heap.contains, hc] at hnone

theorem Adds.rests {b : Body} (e : Adds x r b h h') (hkind : b.kind.isLaid = false) :
    Rests (x.plus [r]) h h' := ⟨e.valid, .of_others e.body e.others hkind⟩

variable (body) in
/-- A cell is made of references of the ledger; an object has to fit its shape. -/
theorem Valid.install (hl : h.Laid) (hs : h.Sound (x.plus body.refs) p.size)
    (hnames : h.Names body.typedRefs) (hrest : body.Rested) (hz : body.isZombie = false)
    (hframe : body.frame? = none) (hkind : body.kind ≠ .shape)
    (hfit : ∀ o t, body = .object o → h.body? o.shape = some (.shape t) →
      t.entries.size = o.properties.size)
    (e : HeapM.install p body true h = .ok (r, h')) : Adds x r body h h' := by
  obtain ⟨hs', hm⟩ := Sound.install (z := x) (n := 0) body (by rw [Nat.zero_add]; exact hs) hnames hrest hz
    hframe (Body.hash?_eq_none_of_kind hkind) e
  have hsp := Spares.of_makes hm x
  have hshapes : ∀ s t, h'.body? s = some (.shape t) → h.body? s = some (.shape t) := by
    intro s t ht
    have hsr : s ≠ r := by
      rintro rfl
      rw [hm.body] at ht
      cases ht
      exact hkind rfl
    exact hsp.bodies _ _ (by simpa using hsr) ht
  refine ⟨⟨hs', fun q o t ho ht => ?_, fun s t ht => (hl.shapes s t (hshapes s t ht)).mono fun q t' _ =>
    hshapes q t'⟩, by simp [Heap.contains, hm.fresh], hm.body, fun _ _ => hm.body_other,
    fun _ => hs'.agree_of_install hm.count e⟩
  by_cases hq : q = r
  · subst hq
    rw [hm.body] at ho
    cases ho
    exact hfit o t rfl (hshapes _ t ht)
  · exact hl.fits q o t (hsp.bodies q _ (by simpa using hq) ho) (hshapes _ t ht)

/-- Owned references keep their kinds as long as cells keep their bodies. -/
theorem Keeps.names_owned {rs : List Handle} {ps : List (Handle × Kind)} (hk : Keeps h h')
    (hs : h'.Sound (x.plus rs) n) (hn : h.Names ps) (hrs : ∀ q ∈ ps, q.1 ∈ rs) : h'.Names ps := by
  intro q hq
  have hpos := List.count_pos_iff.mpr (hrs q hq)
  exact hk.kind_of_contains
    (hs.coherent.counted.owned q.1 (by simp only [Ledger.plus_apply]; omega)) (hn q hq)

theorem Valid.of_reserveOr {size : Nat} {owned : List Handle} {arrays : Nat → List Request}
    {res : Except OutOfMemory Reservation} (hv : h.Valid (x.plus owned))
    (e : (AllocM.reserveOr size owned arrays).run h = .ok (res, h')) :
    Keeps h h' ∧ ((∃ p, res = .ok p ∧ h'.Sound (x.plus owned) p.size) ∨
      (∃ err, res = .error err) ∧ GivesUp x h h') := by
  obtain ⟨hk, ⟨p, hres, hsize, hs'⟩ | ⟨herr, hs'⟩⟩ := hv.sound.of_reserveOr e
  · refine ⟨hk, .inl ⟨p, hres, ?_⟩⟩
    rw [hsize]
    rwa [Nat.zero_add] at hs'
  · exact ⟨hk, .inr ⟨herr, hv.givesUp ⟨hs', hk⟩ fun hq => hq.agree_of_reserveOr hv.sound e⟩⟩

/-- A cell made after steps that leave all bodies and make no cell. -/
theorem Adds.after_keeps {b : Body} (hk : Keeps h h₁) (hagree : h.Quiet → Agree x h h₁)
    (ev₁ : Evolves 0 h h₁) (ev₂ : Evolves 1 h₁ h') (e : Adds x r b h₁ h') : Adds x r b h h' :=
  ⟨e.valid, ev₁.fresh ev₂ (by omega) e.fresh (contains_of_body? e.body), e.body,
    fun q b' hq hb' => hk.body? (e.others q b' hq hb'),
    fun hq => (hagree hq).trans (e.agree ((hagree hq).calm.quiet hq))⟩

variable (body) in
/-- A cell whose references were all owned before is made. -/
theorem Valid.of_make {size : Nat} {owned : List Handle} {arrays : Nat → List Request}
    {res : Except OutOfMemory Handle} (hv : h.Valid (x.plus owned)) (hperm : owned.Perm body.refs)
    (hnames : h.Names body.typedRefs) (hrest : body.Rested) (hz : body.isZombie = false)
    (hframe : body.frame? = none) (hkind : body.kind ≠ .shape)
    (hfit : ∀ o t, body = .object o → h.body? o.shape = some (.shape t) →
      t.entries.size = o.properties.size)
    (e : ((AllocM.reserveOr size owned arrays) >>= fun p =>
      (liftM (HeapM.install p body true) : AllocM Handle)).run h = .ok (res, h')) :
    (∃ r, res = .ok r ∧ Adds x r body h h') ∨ (∃ err, res = .error err) ∧ GivesUp x h h' := by
  rcases AllocM.bind_eq_ok e with ⟨p, h₁, e₁, e⟩ | ⟨err, e₁, rfl⟩
  · obtain ⟨hk, ⟨q, hres, hs₁⟩ | ⟨⟨_, he⟩, _⟩⟩ := hv.of_reserveOr e₁
    · cases hres
      obtain ⟨r, e₂, rfl⟩ := AllocM.lift_eq_ok e
      rw [Ledger.plus_perm _ hperm] at hs₁
      have hnames₁ := hk.names_owned hs₁ hnames fun q hq => Body.mem_refs_of_typed hq
      have hnew := Valid.install body (hv.laid.of_keeps hk) hs₁ hnames₁ hrest hz hframe hkind
        (fun o t hbody ht => hfit o t hbody (hk.body? ht)) e₂
      exact .inl ⟨r, rfl, hnew.after_keeps hk (fun hq => hq.agree_of_reserveOr hv.sound e₁)
        (AllocM.Tracks.reserveOr _ _ _ _ _ e₁) (HeapM.Tracks.install _ _ _ _ _ _ e₂)⟩
    · cases he
  · obtain ⟨_, ⟨_, hres, _⟩ | ⟨_, hl⟩⟩ := hv.of_reserveOr e₁
    · cases hres
    · exact .inr ⟨⟨err, rfl⟩, hl⟩

/-! ## Objects -/

/-- An object takes over the reference to its shape and those in its payload. -/
theorem Valid.of_newObjectFromShape (payload : Payload) {res : Except OutOfMemory Handle}
    (hv : h.Valid (x.plus (s :: payload.refs))) (hnames : h.Names payload.typedRefs)
    (e : (AllocM.newObjectFromShape s payload).run h = .ok (res, h')) :
    (∃ r t capacity, res = .ok r ∧ h.body? s = some (.shape t) ∧ Adds x r (.object
        ⟨s, Array.replicate t.entries.size .undefined, capacity, true, payload⟩) h h') ∨
      (∃ err, res = .error err) ∧ GivesUp x h h' := by
  obtain ⟨t, _, e₁, e⟩ := AllocM.lift_bind_eq_ok e
  obtain ⟨ht, rfl⟩ := shape_eq_ok e₁
  dsimp only at e
  have hundefined : ∀ k, (Array.replicate k Property.undefined).toList.flatMap Property.typedRefs = [] := by
    intro k
    simp [List.flatMap_eq_nil_iff, Property.undefined, Property.typedRefs, Value.typedRef?]
  have hnone : ∀ k, (Array.replicate k Property.undefined).toList.flatMap Property.refs = [] := by
    intro k
    simp [List.flatMap_eq_nil_iff, Property.undefined, Property.refs, Value.ref?]
  have hmake := hv.of_make (.object ⟨s, Array.replicate t.entries.size .undefined,
    max t.capacity Shape.initialCapacity, true, payload⟩) ?_ ?_ (Body.rested_of_kind (by simp [Body.kind]))
    rfl rfl (by simp [Body.kind]) ?_ e
  · rcases hmake with ⟨r, hres, hnew⟩ | herr
    · exact .inl ⟨r, t, _, hres, ht, hnew⟩
    · exact .inr herr
  · simp only [Body.refs, Object.refs, hnone, List.nil_append]
    exact (List.perm_append_singleton s payload.refs).symm
  · intro a ha
    simp only [Body.typedRefs, Object.typedRefs, hundefined, List.nil_append, List.mem_append,
      List.mem_singleton] at ha
    rcases ha with ha | rfl
    · exact hnames a ha
    · rw [kind?_eq_map, ht]
      rfl
  · intro o t' ho ht'
    cases ho
    rw [ht] at ht'
    cases ht'
    simp

/-- Object `r` is new, and seen as `d`; all else is seen as before. -/
structure Introduces (x : Ledger) (r : Handle) (d : Record) (h h' : Heap) : Prop where
  valid : h'.Valid (x.plus [r])
  fresh : h.contains r = false
  seen : h'.record? r = some d
  apart : Apart [r] h h'
  steady : Steady x h h'

/-- An object made of a shape that was looked up before is seen as the layout of that, all undefined. -/
theorem Adds.introduces {k : Nat} {o : Object} (hleft : Apart [] h h₁) (hsteady : Steady x h h₁)
    (ev₁ : Evolves k h h₁) (ev₂ : Evolves 1 h₁ h') (hk : k + 1 < 4294967295)
    (e : Adds x r (.object o) h₁ h') (ht : h₁.body? o.shape = some (.shape t)) :
    Introduces x r (o.record t) h h' := by
  obtain ⟨t', ht', hd⟩ := e.valid.sound.exists_record e.body
  have hne : o.shape ≠ r := by
    intro hr
    rw [hr, e.body] at ht'
    cases ht'
  have hback := e.others _ _ hne ht'
  rw [ht] at hback
  cases hback
  exact ⟨e.valid, ev₁.fresh ev₂ hk e.fresh (contains_of_body? e.body), hd,
    (hleft.weaken _).trans (.of_others e.body e.others (by simp [Body.kind])),
    hsteady.trans (.of_others e.body e.others (by simp [Body.kind]))⟩

/-- A new object and its shape are nobody else's. -/
theorem Quiet.agree_of_newObject {proto : Option Handle} {res : Except OutOfMemory Handle} (hq : h.Quiet)
    (hv : h.Valid x) (hproto : h.Names (proto.toList.map (·, .object)))
    (e : (AllocM.newObject proto).run h = .ok (res, h')) : Agree x h h' := by
  rcases AllocM.bind_eq_ok e with ⟨s, h₁, e₁, e⟩ | ⟨err, e₁, rfl⟩
  · have hagree := hq.agree_of_shapeForNewObject hv.sound hproto e₁
    rcases hv.of_shapeForNewObject hproto e₁ with ⟨_, t, hres, hl₁, _⟩ | ⟨⟨_, he⟩, _⟩
    · cases hres
      rcases hl₁.valid.of_newObjectFromShape .ordinary (fun a ha => by cases ha) e with
        ⟨_, _, _, _, _, hnew⟩ | ⟨_, hgave⟩
      · exact hagree.trans (hnew.agree (hagree.calm.quiet hq))
      · exact hagree.trans (hgave.agree (hagree.calm.quiet hq))
    · cases he
  · exact hq.agree_of_shapeForNewObject hv.sound hproto e₁

theorem Valid.of_newObject {proto : Option Handle} {res : Except OutOfMemory Handle} (hv : h.Valid x)
    (hproto : h.Names (proto.toList.map (·, .object)))
    (e : (AllocM.newObject proto).run h = .ok (res, h')) :
    (∃ r, res = .ok r ∧ Introduces x r ⟨proto, true, []⟩ h h') ∨
      (∃ err, res = .error err) ∧ GivesUp x h h' := by
  have hagree := fun hq : h.Quiet => hq.agree_of_newObject hv hproto e
  rcases AllocM.bind_eq_ok e with ⟨s, h₁, e₁, e⟩ | ⟨err, e₁, rfl⟩
  · rcases hv.of_shapeForNewObject hproto e₁ with ⟨s', t, hres, hl₁, hp, hempty, _⟩ | ⟨⟨_, he⟩, _⟩
    · cases hres
      rcases hl₁.valid.of_newObjectFromShape .ordinary (fun a ha => by cases ha) e with
        ⟨r, t', capacity, hres, ht', hnew⟩ | ⟨herr, hl⟩
      · rw [hl₁.shape] at ht'
        cases ht'
        have hint := hnew.introduces hl₁.apart hl₁.steady (AllocM.Tracks.shapeForNewObject _ _ _ _ e₁)
          (AllocM.tracks_newObjectFromShape _ _ _ _ _ e) (by omega) hl₁.shape
        rw [Object.record, hp, hempty] at hint
        exact .inl ⟨r, hres, hint⟩
      · exact .inr ⟨herr, hl₁.trans hl.toLeaves, hagree, hl₁.steady.trans hl.steady⟩
    · cases he
  · rcases hv.of_shapeForNewObject hproto e₁ with ⟨_, _, hres, _⟩ | ⟨_, hl⟩
    · cases hres
    · exact .inr ⟨⟨err, rfl⟩, hl⟩

/-! ## Variables and suspended calls -/

theorem Valid.of_newVariable {v : Value} {res : Except OutOfMemory Handle}
    (hv : h.Valid (x.plus v.ref?.toList)) (hnames : h.Names v.typedRef?.toList)
    (e : (AllocM.newVariable v).run h = .ok (res, h')) :
    (∃ r, res = .ok r ∧ Rests (x.plus [r]) h h') ∨ (∃ err, res = .error err) ∧ GivesUp x h h' := by
  rcases hv.of_make (.captured (.detached v)) (.refl _) hnames
    (Body.rested_of_kind (by simp [Body.kind])) rfl rfl (by simp [Body.kind]) (fun _ _ hb => by cases hb) e
    with ⟨r, hres, hnew⟩ | herr
  · exact .inl ⟨r, hres, hnew.rests rfl⟩
  · exact .inr herr

theorem Valid.of_newSuspension {receiver resolve reject : Value} {values : Array Value}
    {res : Except OutOfMemory Handle}
    (hv : h.Valid (x.plus (Suspension.refs ⟨true, receiver, values, resolve, reject⟩)))
    (hnames : h.Names (Suspension.typedRefs ⟨true, receiver, values, resolve, reject⟩))
    (e : (AllocM.newSuspension receiver values resolve reject).run h = .ok (res, h')) :
    (∃ r, res = .ok r ∧ Rests (x.plus [r]) h h') ∨ (∃ err, res = .error err) ∧ GivesUp x h h' := by
  rcases hv.of_make (.suspension ⟨true, receiver, values, resolve, reject⟩) (.refl _) hnames
    (fun s hs => by cases hs; exact nofun) rfl rfl (by simp [Body.kind]) (fun _ _ hb => by cases hb) e
    with ⟨r, hres, hnew⟩ | herr
  · exact .inl ⟨r, hres, hnew.rests rfl⟩
  · exact .inr herr

/-- A call that completes gives up what it had saved. -/
theorem Valid.of_finishSuspension (hv : h.Valid x) (e : HeapM.finishSuspension r h = .ok (u, h')) :
    Rests x h h' := by
  unfold HeapM.finishSuspension at e
  rw [HeapM.get_bind] at e
  cases hsus : h.suspension? r with
  | none =>
    rw [hsus] at e
    cases e
  | some t =>
    rw [hsus] at e
    dsimp only at e
    split at e
    · obtain ⟨_, h₁, e₁, e⟩ := HeapM.bind_eq_ok e
      obtain ⟨_, h₂, e₂, e₃⟩ := HeapM.bind_eq_ok e
      cases HeapM.modify_eq_ok e₁
      obtain ⟨c, hc, hb⟩ := suspension?_eq_some_iff.mp hsus
      have hu : Updates r (some { c with body := .suspension t.finished }) h
          (h.modifyBody r.index fun _ => .suspension t.finished) :=
        .modifyCell hc fun c => { c with body := .suspension t.finished }
      have hre := Rewrites.of_updates hu hc hb (.modifyCell _ _ _)
      have hnames := hv.sound.names (body?_eq_some_iff.mpr ⟨c, hc, hb⟩)
      have hs₁ : (h.modifyBody r.index fun _ => .suspension t.finished).Sound
          ((x.plus (t.values.toList.filterMap Value.ref?)).plus t.receiver.ref?.toList) 0 := by
        refine hv.sound.rebody hc (by rw [hb]; rfl) rfl (by rw [hb]; rfl) (by rw [hb]; rfl) ?_ ?_ fun q => ?_
        · intro a ha
          refine hnames a ?_
          obtain ⟨v, hmem, ha⟩ := mem_filterMap_typedRef?.mp ha
          refine mem_filterMap_typedRef?.mpr ⟨v, ?_, ha⟩
          simp only [Suspension.finished, Suspension.contents, List.mem_cons, List.nil_append,
            List.mem_append] at hmem ⊢
          rcases hmem with rfl | hmem
          · cases ha
          · exact .inr (.inr hmem)
        · intro s hs
          cases hs
          exact fun _ => rfl
        · have hfinished := t.count_refs_finished q
          rw [hb]
          simp only [Body.refs, Ledger.plus_apply]
          omega
      have hl₁ := hv.rests_of_unedited hs₁ (.of_others hre.after
        (fun q b' hq hb' => by rw [← hre.others q hq, hb']) rfl)
      have hl₂ := hl₁.keeps (hs₁.of_freeValue e₂)
      exact hl₂.keeps (hl₂.valid.sound.of_freeValues e₃)
    · obtain ⟨_, rfl⟩ := HeapM.pure_eq_ok e
      exact hv.rests_refl

/-! ## Functions -/

theorem Valid.of_newBytecode {name : Option Atom} {realm : Option Handle} {pool : Array Value}
    {res : Except OutOfMemory Handle} (hv : h.Valid (x.plus (pool.toList.filterMap Value.ref?)))
    (hpool : h.Names (pool.toList.filterMap Value.typedRef?))
    (hrealm : h.Names (realm.toList.map (·, .realm)))
    (e : (AllocM.newBytecode name realm pool).run h = .ok (res, h')) :
    (∃ r, res = .ok r ∧ Rests (x.plus [r]) h h') ∨ (∃ err, res = .error err) ∧ GivesUp x h h' := by
  rcases AllocM.bind_eq_ok e with ⟨p, h₁, e₁, e⟩ | ⟨err, e₁, rfl⟩
  · obtain ⟨hk₁, ⟨q, hres, hs₁⟩ | ⟨⟨_, he⟩, _⟩⟩ := hv.of_reserveOr e₁
    · cases hres
      obtain ⟨_, h₂, e₂, e⟩ := AllocM.lift_bind_eq_ok e
      obtain ⟨r, e₃, rfl⟩ := AllocM.lift_eq_ok e
      obtain ⟨hs₂, hk₂, _⟩ := hs₁.retainOption e₂
      rw [← Ledger.plus_append] at hs₂
      have hk := hk₁.trans hk₂
      have hnames : h₂.Names (Body.bytecode ⟨pool, realm, name⟩).typedRefs := by
        refine hk.names_owned hs₂ (Names.append_iff.mpr ⟨hpool, hrealm⟩) fun q hq => ?_
        exact Body.mem_refs_of_typed (b := .bytecode ⟨pool, realm, name⟩) hq
      have hnew := Valid.install (.bytecode ⟨pool, realm, name⟩) (hv.laid.of_keeps hk) hs₂
        hnames (Body.rested_of_kind (by simp [Body.kind])) rfl rfl (by simp [Body.kind])
        (fun _ _ hb => by cases hb) e₃
      have hl := hnew.rests rfl
      exact .inl ⟨r, rfl, hl.valid, Unedited.trans (.of_keeps hk) hl.unedited⟩
    · cases he
  · obtain ⟨_, ⟨_, hres, _⟩ | ⟨_, hl⟩⟩ := hv.of_reserveOr e₁
    · cases hres
    · exact .inr ⟨⟨err, rfl⟩, hl⟩

/-- Taking a reference keeps every reference one to a cell of its kind. -/
theorem names_retainOption {o : Option Handle} {ps : List (Handle × Kind)} (hk : Keeps h h')
    (e : HeapM.retainOption o h = .ok (u, h')) (hn : h.Names ps) : h'.Names ps := by
  intro q hq
  refine hk.kind_of_contains ?_ (hn q hq)
  rw [contains_retainOption e]
  exact hn.contains hq

theorem Valid.of_newClosure {proto home : Option Handle} {bytecode : Handle} {captured : Array Handle}
    {res : Except OutOfMemory Handle} (hv : h.Valid (x.plus captured.toList))
    (hproto : h.Names (proto.toList.map (·, .object)))
    (hnames : h.Names (Payload.closure bytecode captured home).typedRefs)
    (e : (AllocM.newClosure proto bytecode captured home).run h = .ok (res, h')) :
    (∃ r, res = .ok r ∧ Introduces x r ⟨proto, true, []⟩ h h') ∨
      (∃ err, res = .error err) ∧ GivesUp x h h' := by
  obtain ⟨_, h₁, e₁, e⟩ := AllocM.lift_bind_eq_ok e
  obtain ⟨_, h₂, e₂, e⟩ := AllocM.lift_bind_eq_ok e
  dsimp only at e
  obtain ⟨hs₁, hk₁, _⟩ := hv.sound.retain e₁
  obtain ⟨hs₂, hk₂, _⟩ := hs₁.retainOption e₂
  have e₁ : HeapM.retainOption (some bytecode) h = .ok ((), h₁) := e₁
  have hproto₂ := names_retainOption hk₂ e₂ (names_retainOption hk₁ e₁ hproto)
  have hnames₂ := names_retainOption hk₂ e₂ (names_retainOption hk₁ e₁ hnames)
  have hsame₂ := (unchanged_of_retainOption e₁).trans (unchanged_of_retainOption e₂)
  have hl₂ : Rests (x.plus (Payload.closure bytecode captured home).refs) h h₂ := by
    refine hv.rests ⟨hs₂.of_eq fun q => ?_, hk₁.trans hk₂⟩
    simp only [Payload.refs, Ledger.plus_apply, List.count_cons, List.count_append, List.count_nil]
    omega
  rcases AllocM.bind_eq_ok e with ⟨s, h₃, e₃, e⟩ | ⟨err, e₃, rfl⟩
  · rcases AllocM.tryCatch_eq_ok e₃ with ⟨_, e₃, hres⟩ | ⟨_, _, _, e₃⟩
    · cases hres
      rcases hl₂.valid.of_shapeForNewObject hproto₂ e₃ with
        ⟨s', t, hres, hhands, hp, hempty, _⟩ | ⟨⟨_, he⟩, _⟩
      · cases hres
        have hv₃ := hhands.valid
        have hnames₃ := (AllocM.Tracks.shapeForNewObject proto _ _ _ e₃).names (by omega)
          (hv₃.sound.of_eq fun q => by rw [Ledger.plus_comm]) hnames₂ (Payload.map_typedRefs _)
        rw [Ledger.plus_comm, ← Ledger.plus_append] at hv₃
        have hapart := hl₂.apart.trans hhands.apart
        have hsteady := hl₂.steady.trans hhands.steady.of_plus
        rcases hv₃.of_newObjectFromShape _ hnames₃ e with ⟨r, t', capacity, hres, ht', hnew⟩ | ⟨herr, hl⟩
        · rw [hhands.shape] at ht'
          cases ht'
          have ev₂ := ((HeapM.Shifting.retainOption _ _ _ _ e₁).trans
            (HeapM.Shifting.retainOption _ _ _ _ e₂)).evolves
          have hint := hnew.introduces hapart hsteady
            (ev₂.trans (AllocM.Tracks.shapeForNewObject _ _ _ _ e₃))
            (AllocM.tracks_newObjectFromShape _ _ _ _ _ e) (by omega) hhands.shape
          rw [Object.record, hp, hempty] at hint
          exact .inl ⟨r, hres, hint⟩
        · refine .inr ⟨herr, hl.after hapart (fun hq => (hsame₂.agree x).trans ?_) hsteady⟩
          exact ((hsame₂.calm.quiet hq).agree_of_shapeForNewObject hl₂.valid.sound hproto₂ e₃).of_plus
      · cases he
    · obtain ⟨_, _, _, e₃⟩ := AllocM.lift_bind_eq_ok e₃
      cases e₃
  · rcases AllocM.tryCatch_eq_ok e₃ with ⟨_, _, hres⟩ | ⟨_, h₃, e₄, e₅⟩
    · cases hres
    · obtain ⟨_, h₄, e₅, e₆⟩ := AllocM.lift_bind_eq_ok e₅
      obtain ⟨_, rfl⟩ := AllocM.throw_eq_ok e₆
      rcases hl₂.valid.of_shapeForNewObject hproto₂ e₄ with ⟨_, _, hres, _⟩ | ⟨_, hl₃⟩
      · cases hres
      · exact .inr ⟨⟨err, rfl⟩, (hl₃.after hl₂.apart (fun _ => hsame₂.agree _)
          hl₂.steady).releaseAll e₅⟩

end Heap

end ObjectMemory
