import ObjectMemory.Proofs.Progress
set_option autoImplicit false

/-!
# Making cells of what is retained

A new cell is made of references that the ledger owns, and of references to cells that the caller keeps and
the new cell takes one of its own to.  Both are there when the slot has been set apart, because they are
retained until then.

While a realm is made, the ledger owns what was made before (`Heap.Made`), so every step finds the parts of
the steps before it.
-/

namespace ObjectMemory

namespace Heap

variable {x : Ledger} {n k : Nat} {h h₀ h₁ h' : Heap} {r s : Handle} {t : Shape} {proto : Option Handle}
  {owned : List Handle} {ds : List (Handle × Option Handle)} {ps : List (Handle × Kind)}
  {bars : Fault → Bool}

/-! ## Cells and objects -/

/-- A cell whose references are all owned before is made, or memory runs out. -/
theorem Sound.yields_make {size : Nat} {arrays : Nat → List Request} (hfull : bars .tooManySlots = false)
    (hs : h.Sound (x.plus owned) n) (hr : h.Roomy) (body : Body) :
    Yields bars (fun _ => True) ((AllocM.reserveOr size owned arrays >>= fun p =>
      (liftM (HeapM.install p body true) : AllocM Handle)).run h) := by
  refine AllocM.yields_bind (hs.yields_reserveOr hfull hr) (fun p h₁ _ hp => ?_) fun _ _ _ _ => trivial
  obtain ⟨r, h₂, e₂⟩ := ((hp p rfl).offers p rfl).exists_install body true
  rw [AllocM.lift_of_ok e₂]
  trivial

theorem Sound.yields_newObjectFromShape (payload : Payload) (hfull : bars .tooManySlots = false)
    (hs : h.Sound (x.plus (s :: payload.refs)) n) (hr : h.Roomy) (ht : h.body? s = some (.shape t)) :
    Yields bars (fun _ => True) ((AllocM.newObjectFromShape s payload).run h) := by
  unfold AllocM.newObjectFromShape
  rw [AllocM.lift_bind_of_ok (shape_of_body ht)]
  exact hs.yields_make hfull hr _

theorem Valid.yields_newObject (hfull : bars .tooManySlots = false) (hv : h.Valid x) (hr : h.Roomy)
    (hnames : h.Names (proto.toList.map (·, .object))) (hproto : ∀ q ∈ proto, h.Retained x q) :
    Yields bars (fun _ => True) ((AllocM.newObject proto).run h) := by
  refine AllocM.yields_bind (hv.sound.yields_shapeForNewObject hfull hr hproto) (fun s h₁ e₁ _ => ?_)
    fun _ _ _ _ => trivial
  obtain ⟨_, t, hres, hhands, _⟩ | ⟨⟨_, hres⟩, _⟩ := hv.of_shapeForNewObject hnames e₁
  · cases hres
    have hd₁ : h.Drifts (fun _ => False) h₁ := (drifts_of_shapeForNewObject e₁).1
    exact hhands.valid.sound.yields_newObjectFromShape .ordinary hfull (hd₁.roomy hr) hhands.shape
  · cases hres

/-! ## Arrays -/

theorem Sound.realm_of_kind (hs : h.Sound x n) (hk : h.kind? r = some .realm) :
    ∃ c, h.body? r = some (.realm c) := by
  obtain ⟨c, hc, hk⟩ := kind?_eq_some_iff.mp hk
  have hz := (hs.settled _ _ (tenant?_of_cell? hc)).body
  cases hb : c.body with
  | realm d => exact ⟨d, body?_eq_some_iff.mpr ⟨c, hc, hb⟩⟩
  | zombie k => simp [hb, Body.isZombie] at hz
  | _ => simp [Cell.kind, hb, Body.kind] at hk

/-- The length of an object that is there can be written. -/
theorem Valid.exists_setLength {o : Object} (hv : h.Valid x) (ho : h.body? r = some (.object o))
    (count : Nat) : ∃ h', HeapM.setLength r count h = .ok ((), h') := by
  unfold HeapM.setLength
  rw [HeapM.bind_of_ok (objectShape_of_body ho), HeapM.get_bind, ← findOwn?_of_object ho]
  cases hfind : h.findOwn? r .length with
  | none => exact ⟨h, rfl⟩
  | some place =>
    obtain ⟨i, flags⟩ := place
    obtain ⟨q, hq⟩ := hv.exists_property ho hfind
    dsimp only
    rw [HeapM.bind_of_ok (object_of_body ho), if_pos (Array.getElem?_eq_some_iff.mp hq).1]
    obtain ⟨h', e, _⟩ := exists_modifyObject ho fun o =>
      { o with properties := o.properties.setIfInBounds i (.value (.smi (Int32.ofNat count))) }
    exact ⟨h', e⟩

/-- An array of a realm that is retained can be made. -/
theorem Valid.yields_newArray {ctx : Handle} (hfull : bars .tooManySlots = false) (hv : h.Valid x)
    (hr : h.Roomy) (hctx : h.kind? ctx = some .realm) :
    Yields bars (fun _ => True) ((AllocM.newArray ctx).run h) := by
  obtain ⟨c, hc⟩ := hv.sound.realm_of_kind hctx
  obtain ⟨t, ht⟩ := hv.sound.shape_of_kind
    (hv.sound.names hc (c.arrayShape, .shape) (by simp [Body.typedRefs]))
  obtain ⟨h₁, e₁⟩ := exists_retain (contains_of_body? ht)
  have hv₁ := (hv.rests ((hv.sound.retain e₁).imp id fun hk => hk.1)).valid
  have hretain : h.Shifts h₁ := HeapM.Shifting.retain c.arrayShape _ _ _ e₁
  have hrealm : HeapM.realm ctx h = .ok (c, h) := by
    refine HeapM.read_apply ?_
    obtain ⟨d, hd, hb⟩ := body?_eq_some_iff.mp hc
    rw [realm?_eq_some_iff.mpr ⟨d, hd, hb⟩]
  unfold AllocM.newArray
  rw [AllocM.lift_bind_of_ok hrealm, AllocM.lift_bind_of_ok e₁]
  refine AllocM.yields_bind (hv₁.sound.yields_newObjectFromShape (.array #[] 0) hfull
    (hretain.roomy hr) ((body?_retainOption (o := some c.arrayShape) e₁ _).trans ht)) (fun r h₂ e₂ _ => ?_)
    fun _ _ _ _ => trivial
  obtain ⟨_, _, _, hres, _, hnew⟩ | ⟨⟨_, hres⟩, _⟩ :=
    Valid.of_newObjectFromShape (.array #[] 0) hv₁ (fun _ ha => by cases ha) e₂
  · cases hres
    obtain ⟨h₃, e₃⟩ := hnew.valid.exists_setLength hnew.body 0
    rw [AllocM.lift_bind_of_ok e₃]
    trivial
  · cases hres

/-! ## Functions -/

/-- A compiled function in a realm that is retained can be made. -/
theorem Valid.yields_newBytecode {name : Option Atom} {realm : Option Handle} {pool : Array Value}
    (hfull : bars .tooManySlots = false) (hv : h.Valid (x.plus (pool.toList.filterMap Value.ref?)))
    (hr : h.Roomy) (hrealm : ∀ q ∈ realm, h.Retained (x.plus (pool.toList.filterMap Value.ref?)) q) :
    Yields bars (fun _ => True) ((AllocM.newBytecode name realm pool).run h) := by
  refine AllocM.yields_bind (hv.sound.yields_reserveOr hfull hr) (fun p h₁ _ hp => ?_)
    fun _ _ _ _ => trivial
  obtain ⟨h₂, e₂⟩ := exists_retainOption fun q hq => (hp p rfl).contains (hrealm q hq)
  obtain ⟨r, h₃, e₃⟩ := (((hp p rfl).offers p rfl).retainOption e₂).exists_install
    (.bytecode ⟨pool, realm, name⟩) true
  rw [AllocM.lift_bind_of_ok e₂, AllocM.lift_of_ok e₃]
  trivial

/-- A closure of a function and a home object that are retained can be made. -/
theorem Valid.yields_newClosure {home : Option Handle} {bytecode : Handle} {captured : Array Handle}
    (hfull : bars .tooManySlots = false) (hv : h.Valid (x.plus captured.toList)) (hr : h.Roomy)
    (hnames : h.Names (proto.toList.map (·, .object)))
    (hproto : ∀ q ∈ proto, h.Retained (x.plus captured.toList) q)
    (hbytecode : h.Retained (x.plus captured.toList) bytecode)
    (hhome : ∀ q ∈ home, h.Retained (x.plus captured.toList) q) :
    Yields bars (fun _ => True) ((AllocM.newClosure proto bytecode captured home).run h) := by
  obtain ⟨h₁, e₁⟩ := exists_retain (hv.sound.contains_of_retained hbytecode)
  have e₁' : HeapM.retainOption (some bytecode) h = .ok ((), h₁) := e₁
  obtain ⟨h₂, e₂⟩ := exists_retainOption (h := h₁) (o := home) fun q hq => by
    rw [contains_retainOption e₁']
    exact hv.sound.contains_of_retained (hhome q hq)
  obtain ⟨hs₁, hk₁, _⟩ := hv.sound.retain e₁
  obtain ⟨hs₂, hk₂, _⟩ := hs₁.retainOption e₂
  have hv₂ : h₂.Valid (x.plus (Payload.closure bytecode captured home).refs) := by
    refine (hv.rests ⟨hs₂.of_eq fun q => ?_, hk₁.trans hk₂⟩).valid
    simp only [Payload.refs, Ledger.plus_apply, List.count_cons, List.count_append, List.count_nil]
    omega
  have hnames₂ := names_retainOption hk₂ e₂ (names_retainOption hk₁ e₁' hnames)
  have hshel : Shelters (x.plus captured.toList) [] h h₂ := .of_bodies
    ((frames_of_retainOption e₂).trans (frames_of_retainOption e₁'))
    fun q b _ hb => ((body?_retainOption e₂ q).trans (body?_retainOption e₁' q)).trans hb
  have hle : ∀ q, x.plus captured.toList q ≤ x.plus (Payload.closure bytecode captured home).refs q := by
    intro q
    simp only [Payload.refs, Ledger.plus_apply, List.count_cons, List.count_append]
    omega
  have hretain : h.Shifts h₂ := (HeapM.Shifting.retainOption (some bytecode) _ _ _ e₁').trans
    (HeapM.Shifting.retainOption home _ _ _ e₂)
  unfold AllocM.newClosure
  rw [AllocM.lift_bind_of_ok e₁, AllocM.lift_bind_of_ok e₂]
  refine AllocM.yields_bind
    (yields_orRelease (x := x) (Payload.closure bytecode captured home).refs
      (hv₂.sound.yields_shapeForNewObject hfull (hretain.roomy hr) fun q hq =>
        (hshel.retained (hproto q hq)).mono hle) fun err h₃ e₃ => ?_)
    (fun s h₃ _ hres => ?_) fun _ _ _ _ => trivial
  · obtain ⟨_, _, hres, _⟩ | ⟨_, hgave⟩ := hv₂.of_shapeForNewObject hnames₂ e₃
    · cases hres
    · exact ⟨_, hgave.valid.sound⟩
  · obtain ⟨e₃, _⟩ := hres s rfl
    obtain ⟨_, t, hres, hhands, _⟩ | ⟨⟨_, hres⟩, _⟩ := hv₂.of_shapeForNewObject hnames₂ e₃
    · cases hres
      have hd₃ : h₂.Drifts (fun _ => False) h₃ := (drifts_of_shapeForNewObject e₃).1
      have hs₃ := hhands.valid.sound
      rw [Ledger.plus_comm, ← Ledger.plus_append] at hs₃
      exact hs₃.yields_newObjectFromShape _ hfull (hd₃.roomy (hretain.roomy hr)) hhands.shape
    · cases hres

/-! ## Capturing -/

/-- A local can be captured if its frame is there and has it. -/
theorem Valid.yields_captureVariable {id : FrameId} {slot : Nat} (hfull : bars .tooManySlots = false)
    (hdead : h.frames.get? id = none → bars (.captureFromDead id) = false)
    (houtside : ∀ f, h.frames.get? id = some f → f.locals.size ≤ slot →
      bars (.captureOutside slot id) = false) (hv : h.Valid x) (hr : h.Roomy) :
    Yields bars (fun _ => True) ((AllocM.captureVariable id slot).run h) := by
  unfold AllocM.captureVariable
  rw [AllocM.get_bind]
  cases hf : h.frames.get? id with
  | none => exact hdead hf
  | some f =>
    dsimp only
    split
    · cases hfind : f.openVariables.find? (h.isAttachedTo slot) with
      | some r =>
        obtain ⟨j, hj⟩ := attached_of_isAttachedTo (Array.find?_some hfind)
        obtain ⟨h₁, e₁⟩ := exists_retain (contains_of_body? (captured?_iff_body?.mp hj))
        dsimp only
        rw [AllocM.lift_bind_of_ok e₁]
        trivial
      | none =>
        refine AllocM.yields_bind (hv.sound.yields_reserve hfull hr) (fun p h₁ e₁ hp => ?_)
          fun _ _ _ _ => trivial
        obtain ⟨r, h₂, e₂⟩ := (hp.offers p rfl).exists_install (.captured (.attached id slot)) false
        rw [AllocM.get_bind, if_neg (by simp [isFrameLive_of_reserve e₁ hf]), AllocM.lift_bind_of_ok e₂]
        trivial
    · rename_i hslot
      exact houtside f hf (Nat.le_of_not_lt hslot)

/-! ## Realms -/

/-- A step of making a realm ends well, or gives up what was made before. -/
theorem yields_guarding {α β : Type} {act : AllocM α} {next : α → AllocM β}
    (hact : Yields bars (fun _ => True) (act.run h))
    (herr : ∀ err h₁, act.run h = .ok (.error err, h₁) → GivesUp (x.plus owned) h h₁)
    (hnext : ∀ a h₁, act.run h = .ok (.ok a, h₁) → Yields bars (fun _ => True) ((next a).run h₁)) :
    Yields bars (fun _ => True) ((AllocM.guarding owned act >>= next).run h) := by
  have hguard := yields_orRelease (x := x) owned.reverse hact fun err h₁ e₁ => by
    rw [Ledger.plus_perm _ (List.reverse_perm _)]
    exact ⟨_, (herr err h₁ e₁).valid.sound⟩
  unfold AllocM.guarding
  exact AllocM.yields_bind hguard (fun a h₁ _ hres => hnext a h₁ (hres a rfl).1) fun _ _ _ _ => trivial

/-- A prototype object can be made on the way. -/
theorem Made.yields_newObject {α : Type} {next : Handle → AllocM α} (hfull : bars .tooManySlots = false)
    (hm : Made x k ds ps h₀ h) (hr : h.Roomy) (hps : ps.map (·.1) = owned)
    (hproto : ∀ q ∈ proto, (q, .object) ∈ ps) (hk : k < 100)
    (hnext : ∀ r h₁, Made x (k + 2) (ds ++ [(r, proto)]) (ps ++ [(r, .object)]) h₀ h₁ → h₁.Roomy →
      Yields bars (fun _ => True) ((next r).run h₁)) :
    Yields bars (fun _ => True) ((AllocM.guarding owned (AllocM.newObject proto) >>= next).run h) := by
  subst hps
  have hnames := names_of_proto fun q hq => hm.names _ (hproto q hq)
  have howned : ∀ q ∈ proto, h.Retained (x.plus (ps.map (·.1))) q := by
    intro q hq
    have hpos : 0 < (ps.map (·.1)).count q := List.count_pos_iff.mpr (List.mem_map_of_mem (hproto q hq))
    exact retained_of_owned (by simp only [Ledger.plus_apply]; omega)
  refine yields_guarding (x := x) (hm.valid.yields_newObject hfull hr hnames howned) (fun err h₁ e₁ => ?_)
    fun r h₁ e₁ => ?_
  · obtain ⟨_, hres, _⟩ | ⟨_, hgave⟩ := hm.valid.of_newObject hnames e₁
    · cases hres
    · exact hgave
  · obtain ⟨_, hres, hi⟩ | ⟨⟨_, hres⟩, _⟩ := hm.valid.of_newObject hnames e₁
    · cases hres
      have hd₁ : h.Drifts (fun _ => False) h₁ := drifts_of_newObject proto _ _ _ e₁
      exact hnext r h₁ (hm.of_newObject hproto hk hi e₁) (hd₁.roomy hr)
    · cases hres

/-- Once the objects of a realm are made, its array shape and the realm itself follow. -/
theorem Valid.yields_realm {a b c d : Handle} (hfull : bars .tooManySlots = false)
    (hcount : bars .arithmetic = false) (hv : h.Valid (x.plus [a, b, c, d])) (hr : h.Roomy)
    (hc : h.kind? c = some .object) :
    Yields bars (fun _ => True) ((do
      let emptyShape ← AllocM.guarding [a, b, c, d] (AllocM.shapeForNewObject (some c))
      let (arrayShape, _) ← AllocM.guarding ([a, b, c, d] ++ [emptyShape])
        (AllocM.addProperty emptyShape .length AllocM.lengthFlags)
      let p ← AllocM.guarding ([a, b, c, d] ++ [arrayShape]) (AllocM.reserve Size.cell)
      HeapM.install p (.realm ⟨d, a, b, c, arrayShape⟩) true : AllocM Handle).run h) := by
  have hnames : h.Names ((some c).toList.map (·, .object)) := names_of_proto fun q hq => by
    cases hq
    exact hc
  have howned : ∀ q ∈ some c, h.Retained (x.plus [a, b, c, d]) q := by
    intro q hq
    cases hq
    exact retained_of_owned (by simp [Ledger.plus_apply])
  refine yields_guarding (x := x) (hv.sound.yields_shapeForNewObject hfull hr howned) (fun err h₁ e₁ => ?_)
    fun s h₁ e₁ => ?_
  · obtain ⟨_, _, hres, _⟩ | ⟨_, hgave⟩ := hv.of_shapeForNewObject hnames e₁
    · cases hres
    · exact hgave
  obtain ⟨_, t, hres, hhands, _⟩ | ⟨⟨_, hres⟩, _⟩ := hv.of_shapeForNewObject hnames e₁
  · cases hres
    have hd₁ : h.Drifts (fun _ => False) h₁ := (drifts_of_shapeForNewObject e₁).1
    have hadd := hhands.valid.sound.yields_addProperty .length AllocM.lengthFlags hfull
      hcount (hd₁.roomy hr) hhands.shape (retained_of_owned (by simp [Ledger.plus_apply]))
    refine yields_guarding (x := x) (hadd.mono fun _ _ _ => trivial) (fun err h₂ e₂ => ?_) fun q h₂ e₂ => ?_
    · obtain ⟨_, _, _, _, hres, _⟩ | ⟨_, hgave⟩ := hhands.valid.of_addProperty e₂
      · cases hres
      · rw [Ledger.plus_append]
        exact hgave
    obtain ⟨s', i, _, t', hres, hhands', _⟩ | ⟨⟨_, hres⟩, _⟩ := hhands.valid.of_addProperty e₂
    · cases hres
      have hs₂ := hhands'.valid.sound
      rw [← Ledger.plus_append, ← Ledger.plus_perm _ (List.reverse_perm _)] at hs₂
      exact hs₂.yields_make hfull ((drifts_of_addProperty e₂).roomy (hd₁.roomy hr)) _
    · cases hres
  · cases hres

/-- A realm can be made. -/
theorem Valid.yields_newRealm (hfull : bars .tooManySlots = false) (hcount : bars .arithmetic = false)
    (hv : h.Valid x) (hr : h.Roomy) : Yields bars (fun _ => True) (AllocM.newRealm.run h) := by
  unfold AllocM.newRealm
  refine AllocM.yields_bind (hv.yields_newObject hfull hr (fun _ hq => by cases hq) nofun)
    (fun a h₁ e₁ _ => ?_) fun _ _ _ _ => trivial
  obtain ⟨_, hres, hi⟩ | ⟨⟨_, hres⟩, _⟩ := hv.of_newObject (fun _ hq => by cases hq) e₁
  · cases hres
    have hd₁ : h.Drifts (fun _ => False) h₁ := drifts_of_newObject none _ _ _ e₁
    have hm₁ := hv.made.of_newObject (by simp) (by omega) (by simpa using hi) e₁
    refine hm₁.yields_newObject hfull (hd₁.roomy hr) rfl (by simp) (by omega) fun b h₂ hm₂ hr₂ => ?_
    refine hm₂.yields_newObject hfull hr₂ rfl (by simp) (by omega) fun c h₃ hm₃ hr₃ => ?_
    refine hm₃.yields_newObject hfull hr₃ rfl (by simp) (by omega) fun d h₄ hm₄ hr₄ => ?_
    exact hm₄.valid.yields_realm hfull hcount hr₄ (hm₄.names (c, .object) (by simp))
  · cases hres

end Heap

end ObjectMemory
