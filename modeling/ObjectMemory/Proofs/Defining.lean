import ObjectMemory.Proofs.Storing
set_option autoImplicit false

/-!
# Defining, deleting and laying out properties

What the operations on objects do to a valid heap.  Each consumes what it is handed: if it refuses or
memory runs out, the reference is given up all the same.

Every change of a layout goes through a shape that the object shares with nobody (`Heap.TakesOver`), so
that no other object has to fit it.
-/

namespace ObjectMemory

/-! ## References of edited objects -/

namespace Object

variable {o : Object} {p : Property} {s : Handle}

theorem count_refs_setShape (o : Object) (s r : Handle) :
    ({ o with shape := s } : Object).refs.count r + [o.shape].count r =
      o.refs.count r + [s].count r := by
  simp only [refs, List.count_append]
  omega

theorem count_refs_push (o : Object) (p : Property) (r : Handle) :
    ({ o with properties := o.properties.push p } : Object).refs.count r =
      o.refs.count r + p.refs.count r := by
  simp only [refs, Array.toList_push, List.flatMap_append, List.flatMap_singleton, List.count_append]
  omega

theorem typedRefs_setShape {a : Handle × Kind} (ha : a ∈ ({ o with shape := s } : Object).typedRefs) :
    a ∈ o.typedRefs ∨ a = (s, .shape) := by
  simp only [typedRefs, List.mem_append, List.mem_singleton] at ha ⊢
  rcases ha with (ha | ha) | ha
  · exact .inl (.inl (.inl ha))
  · exact .inl (.inl (.inr ha))
  · exact .inr ha

theorem typedRefs_push {a : Handle × Kind}
    (ha : a ∈ ({ o with properties := o.properties.push p } : Object).typedRefs) :
    a ∈ o.typedRefs ∨ a ∈ p.typedRefs := by
  simp only [typedRefs, Array.toList_push, List.flatMap_append, List.flatMap_singleton,
    List.mem_append, List.mem_singleton] at ha ⊢
  tauto

end Object

namespace Heap

variable {x y : Ledger} {n : Nat} {h h₁ h₂ h' : Heap} {r s old new : Handle} {c : Cell} {o : Object}
  {t t₀ t' : Shape} {u : Unit} {atom : Atom} {flags : Flags} {ss : List Handle}

/-! ## Giving an object its new shape -/

theorem index_ne_of_body? {b b' : Body} (hb : h.body? r = some b) (hb' : h.body? s = some b')
    (hne : b ≠ b') : r.index ≠ s.index := by
  intro hi
  obtain ⟨c, hc, rfl⟩ := body?_eq_some_iff.mp hb
  obtain ⟨c', hc', rfl⟩ := body?_eq_some_iff.mp hb'
  have ht := tenant?_of_cell? hc
  rw [hi, tenant?_of_cell? hc'] at ht
  cases ht
  exact hne rfl

/-- An object may be edited once its shape was replaced: the same edit of the heap where the old shape has
not been given up yet keeps that heap sound. -/
theorem Replaces.sound_edited {f : Object → Object} (hrep : Replaces x 0 old new t₀ t' h h₁)
    (ho : h₁.body? r = some (.object o))
    (hnames : ∀ a ∈ (f o).typedRefs,
      a ∈ o.typedRefs ∨ a = (new, .shape) ∨ h.kind? a.1 = some a.2 ∧ 0 < x a.1)
    (hbal : ∀ q, y q + (f o).refs.count q + [old].count q = x q + o.refs.count q + [new].count q) :
    (h₁.modifyObjectAt r.index f).Sound y 0 := by
  obtain ⟨h₂, t, hold, -, hnew, hcon, -⟩ := hrep
  have hrn : r ≠ new := by
    rintro rfl
    rw [hcon.after] at ho
    cases ho
  have ho₂ := hcon.bodies r _ hrn ho
  obtain ⟨c₂, hc₂, hb₂⟩ := body?_eq_some_iff.mp ho₂
  have hghost : (h₂.modifyObjectAt r.index f).Sound (y.plus [old]) 0 := by
    refine hnew.sound.rebody hc₂ (by simp [hb₂, Body.kind]) (by simp [hb₂, Body.isZombie])
      (by simp [hb₂, Body.frame?]) (by simp [hb₂, Body.hash?]) ?_ ?_ fun q => ?_
    · simp only [hb₂]
      intro a ha
      rcases hnames a ha with ha | rfl | ⟨hk, hpos⟩
      · exact hnew.sound.names ho₂ a ha
      · rw [kind?_eq_map, hnew.shape]
        rfl
      · exact hnew.spares.kinds _ _ hpos hk
    · simp only [hb₂]
      exact Body.rested_of_kind (by simp [Body.kind])
    · have hq := hbal q
      simp only [hb₂, Body.refs, Ledger.plus_apply]
      omega
  exact hcon.ghost y r.index _ (index_ne_of_body? ho₂ hold (by simp))
    (index_ne_of_body? ho₂ hnew.shape (by simp)) hghost

/-- An object that had the old shape takes the new one, and may be edited on the way. -/
theorem Replaces.hand {f : Object → Object} (hrep : Replaces x 0 old new t₀ t' h h₁) (hl : h.Laid)
    (hsole : h.body? new = some (.shape t') ∨ h₁.refCount? new = some 1)
    (ho : h₁.body? r = some (.object o)) (hshape : (f o).shape = new)
    (hsize : t'.entries.size = (f o).properties.size)
    (hnames : ∀ a ∈ (f o).typedRefs,
      a ∈ o.typedRefs ∨ a = (new, .shape) ∨ h.kind? a.1 = some a.2 ∧ 0 < x a.1)
    (hbal : ∀ q, y q + (f o).refs.count q + [old].count q = x q + o.refs.count q + [new].count q)
    (e : h' = h₁.modifyObjectAt r.index f) : Reseats y r (f o) t' h h' := by
  have hsound : h'.Sound y 0 := e ▸ hrep.sound_edited ho hnames hbal
  obtain ⟨h₂, t, hold, hne, hnew, hcon, hok⟩ := hrep
  have hrn : r ≠ new := by
    rintro rfl
    rw [hcon.after] at ho
    cases ho
  obtain ⟨c₁, hc₁, hb₁⟩ := body?_eq_some_iff.mp ho
  have hre := Rewrites.of_updates (Updates.modifyObjectAt hc₁ hb₁ f) hc₁ hb₁
    (.modifyCell _ _ _)
  rw [← e] at hre
  have hshape' : h'.body? new = some (.shape t') := by
    rw [hre.others new (Ne.symm hrn)]
    exact hcon.after
  have hothers : ∀ q b, q ≠ r → q ≠ new → h'.body? q = some b → h₂.body? q = some b := by
    intro q b hqr hqn hb
    rw [hre.others q hqr] at hb
    exact hcon.bodies q b hqn hb
  have hback : ∀ q b, q ≠ r → q ≠ new → h'.body? q = some b → h.body? q = some b := fun q b hqr hqn hb =>
    hnew.spares.bodies q b (by simpa using hqn) (hothers q b hqr hqn hb)
  have hlaid : h'.Laid := by
    refine ⟨fun q o' t'' ho' ht'' => ?_, hl.admits (fun q t'' hq ht'' => hback q _ ?_ hq ht'') hshape' (hok hl)⟩
    · by_cases hq : q = r
      · subst hq
        rw [hre.after] at ho'
        cases ho'
        rw [hshape, hshape'] at ht''
        cases ht''
        exact hsize
      · have hqn : q ≠ new := by
          rintro rfl
          rw [hshape'] at ho'
          cases ho'
        have ho₂' := hothers q _ hq hqn ho'
        by_cases hs : o'.shape = new
        · rw [hs, hshape'] at ht''
          cases ht''
          rw [hcon.entries]
          exact (hnew.laid hl).fits q o' t ho₂' (hs ▸ hnew.shape)
        · have hsr : o'.shape ≠ r := by
            intro hsr
            rw [hsr, hre.after] at ht''
            cases ht''
          exact (hnew.laid hl).fits q o' t'' ho₂' (hothers _ _ hsr hs ht'')
    · rintro rfl
      rw [hre.after] at ht''
      cases ht''
  subst hshape
  refine ⟨⟨hsound, hlaid⟩, hre.after, hshape', hback, ?_⟩
  rw [hre.count]
  exact hsole

/-- The shape that was replaced was there from the start. -/
theorem Replaces.before (hrep : Replaces x n old new t₀ t' h h') : h.body? old = some (.shape t₀) := by
  obtain ⟨h₁, t, hold, hne, hnew, _⟩ := hrep
  exact hnew.spares.bodies old _ (by simpa using Ne.symm hne) hold

/-- An object that is there when its shape was replaced was there from the start. -/
theorem Replaces.object_before (hrep : Replaces x n old new t₀ t' h h')
    (ho : h'.body? r = some (.object o)) : h.body? r = some (.object o) := by
  obtain ⟨h₁, t, _, _, hnew, hcon, _⟩ := hrep
  have hrs : r ≠ new := by
    rintro rfl
    rw [hcon.after] at ho
    cases ho
  exact hnew.spares.bodies r _ (by simpa using hrs) (hcon.bodies r _ hrs ho)

/-- Storing the shape an object has changes nothing. -/
theorem Sound.of_setShape_same (hs : h.Sound x n) (hb : h.body? r = some (.object o))
    (e : HeapM.setShape r o.shape h = .ok (u, h')) :
    h'.Sound x n ∧ Rewrites r (.object o) (.object o) h h' :=
  hs.of_modifyObject (g := fun o' => { o' with shape := o.shape }) hb (hs.names hb) (fun _ => rfl) e

/-- Object `o` under `r` has a shape of its own under `s`, of the same layout. -/
structure TakesOver (x : Ledger) (r s : Handle) (o : Object) (t₀ t : Shape) (h h' : Heap) : Prop extends
    Reseats x r { o with shape := s } t h h' where
  before : h.body? r = some (.object o)
  layout : h.body? o.shape = some (.shape t₀)
  unshared : Unshared t₀ t
  count : h'.refCount? s = some 1

theorem TakesOver.wired (htake : TakesOver x r s o t₀ t h h') : t.Wired :=
  (htake.valid.laid.shapes s t htake.shape).wired

theorem TakesOver.record (htake : TakesOver x r s o t₀ t h h') : h.record? r = some (o.record t₀) :=
  record?_eq_some_iff.mpr (drawing?_of_object htake.before htake.layout)

/-- Getting a shape of one's own is not seen. -/
theorem TakesOver.alters (htake : TakesOver x r s o t₀ t h h') : Alters r id h h' :=
  htake.toReseats.alters htake.record (Object.record_congr htake.unshared.proto htake.unshared.entries)

/-- The shape of one's own was edited. -/
theorem TakesOver.reseats (htake : TakesOver x r s o t₀ t h h₁) (hv : h'.Valid y)
    (hre : Reshapes s t t' h₁ h') : Reseats y r { o with shape := s } t' h₁ h' :=
  .of_reshapes hv htake.object htake.count hre

/-- An object is seen to change with the shape of its own. -/
theorem TakesOver.reshape {f : Record → Record} (htake : TakesOver x r s o t₀ t h h₁) (hv : h'.Valid y)
    (hre : Reshapes s t t' h₁ h') (hf : o.record t' = f (o.record t)) : Alters r f h h' := by
  have hd := record?_eq_some_iff.mpr (drawing?_of_object htake.object htake.shape)
  exact htake.alters.trans ((htake.reseats hv hre).alters hd hf)

/-- A shape outside the table may be edited as long as its size stays. -/
theorem Valid.of_modifyShape {f : Shape → Shape} (hv : h.Valid x) (ht : h.body? s = some (.shape t))
    (hproto : (f t).proto = t.proto) (hhash : (Body.shape (f t)).hash? = (Body.shape t).hash?)
    (hsize : (f t).entries.size = t.entries.size) (hok : h.Admits s (f t))
    (e : HeapM.modifyShape s f h = .ok (u, h')) : h'.Valid x ∧ Reshapes s t (f t) h h' := by
  obtain ⟨hs', t', hre⟩ := hv.sound.of_modifyShape (fun t' ht' => by
    rw [ht] at ht'
    cases ht'
    exact ⟨hproto, hhash⟩) e
  obtain rfl := (Rewrites.refl ht).before_eq hre
  refine ⟨⟨hs', hv.laid.of_shape (.of_rewrites hre rfl x) hre.after hok fun q o ho _ hos => ?_⟩, hre⟩
  rw [hsize]
  exact hv.laid.fits q o t' ho (hos ▸ ht)

theorem Valid.of_ownShape {res : Except OutOfMemory Handle} (hv : h.Valid x)
    (e : (AllocM.ownShape r).run h = .ok (res, h')) :
    (∃ s o t₀ t, res = .ok s ∧ TakesOver x r s o t₀ t h h') ∨
      (∃ err, res = .error err) ∧ GivesUp x h h' := by
  obtain ⟨old, _, e₁, e⟩ := AllocM.lift_bind_eq_ok e
  obtain ⟨o, ho, rfl, rfl⟩ := objectShape_eq_ok e₁
  rcases AllocM.bind_eq_ok e with ⟨s, h₁, e₂, e⟩ | ⟨err, e₂, rfl⟩
  · rcases AllocM.tryCatch_eq_ok e₂ with ⟨_, e₂, hres⟩ | ⟨_, _, _, e₂⟩
    · cases hres
      obtain ⟨_, h₂, e₃, e⟩ := AllocM.lift_bind_eq_ok e
      obtain ⟨rfl, rfl⟩ := AllocM.pure_eq_ok e
      rcases hv.sound.of_prepareUpdate e₂ with
        ⟨new, t₀, t', hres, hun, hone, hrep⟩ | ⟨t₀, t', hres, hun, hone, hs₁, hre⟩ | ⟨⟨_, he⟩, _⟩
      · cases hres
        obtain ⟨o₁, c, hc, hb, he⟩ := modifyObject_eq_ok e₃
        have ho₁ := body?_eq_some_iff.mpr ⟨c, hc, hb⟩
        have hback := hrep.object_before ho₁
        rw [ho] at hback
        cases hback
        have hsize : t'.entries.size = o.properties.size := by
          rw [hun.entries]
          exact hv.laid.fits r o t₀ ho hrep.before
        have hseat := hrep.hand (y := x) (f := fun o => { o with shape := s }) hv.laid (.inr hone) ho₁ rfl
          hsize (fun a ha => by
            rcases Object.typedRefs_setShape ha with ha | ha
            · exact .inl ha
            · exact .inr (.inl ha))
          (fun q => by
            have := Object.count_refs_setShape o s q
            omega) he
        have hre := Rewrites.of_updates (Updates.modifyObjectAt hc hb fun o => { o with shape := s }) hc hb
          (.modifyCell _ _ _)
        rw [← he] at hre
        have hcount := (hre.count s).trans hone
        exact .inl ⟨s, o, t₀, t', rfl, hseat, ho, hrep.before, hun, hcount⟩
      · cases hres
        have hrs : r ≠ o.shape := by
          intro hr
          have := hre.before
          rw [← hr, ho] at this
          cases this
        have ho₁ : h₁.body? r = some (.object o) := (hre.others r hrs).trans ho
        have hl₁ : h₁.Laid := hv.laid.of_shape (.of_rewrites hre rfl x) hre.after
          (hun.admits hv.laid hre.before) fun q o' ho' _ hos => by
            rw [hun.entries]
            exact hv.laid.fits q o' t₀ ho' (hos ▸ hre.before)
        obtain ⟨hs', hre'⟩ := hs₁.of_setShape_same ho₁ e₃
        have hcount := (hre'.count o.shape).trans hone
        refine .inl ⟨o.shape, o, t₀, t', rfl, ⟨⟨hs', hl₁.of_keeps (.of_rewrites hre')⟩, hre'.after, ?_,
          fun q b hqr hqs hb => ?_, .inr hcount⟩, ho, hre.before, hun, hcount⟩
        · exact (hre'.others _ (Ne.symm hrs)).trans hre.after
        · rw [hre'.others q hqr, hre.others q hqs] at hb
          exact hb
      · cases he
    · obtain ⟨_, _, _, e₂⟩ := AllocM.lift_bind_eq_ok e₂
      cases e₂
  · rcases AllocM.tryCatch_eq_ok e₂ with ⟨_, _, hres⟩ | ⟨err', h₁, e₃, e₄⟩
    · cases hres
    · obtain ⟨_, h₂, e₅, e₆⟩ := AllocM.lift_bind_eq_ok e₄
      obtain ⟨_, rfl⟩ := AllocM.throw_eq_ok e₆
      rcases hv.sound.of_prepareUpdate e₃ with ⟨_, _, _, hres, _⟩ | ⟨_, _, hres, _⟩ | ⟨_, hs₁, hk⟩
      · cases hres
      · cases hres
      · obtain ⟨o₁, c, hc, hb, he⟩ := modifyObject_eq_ok e₅
        have ho₁ := body?_eq_some_iff.mpr ⟨c, hc, hb⟩
        have hback := hk.body? ho₁
        rw [ho] at hback
        cases hback
        obtain ⟨hs', hre⟩ := hs₁.of_setShape_same ho₁ e₅
        exact .inr ⟨⟨err, rfl⟩, hv.givesUp ⟨hs', hk.trans (.of_rewrites hre)⟩ fun hq =>
          (hq.agree_of_prepareUpdate hv.sound e₃).trans ((Unchanged.of_rewrites hre rfl).agree x)⟩

/-! ## Adding a property -/

/-- References that the ledger owns stay references to cells of their kinds. -/
theorem Evolves.names {k : Nat} (ev : Evolves k h h') (hk : k < 4294967295) (hs : h'.Sound (x.plus ss) n)
    {ps : List (Handle × Kind)} (hn : h.Names ps) (hss : ps.map (·.1) = ss) : h'.Names ps := by
  intro p hp
  have hmem : p.1 ∈ ss := hss ▸ List.mem_map_of_mem hp
  have hpos := List.count_pos_iff.mpr hmem
  obtain ⟨c', hc'⟩ := contains_iff.mp
    (hs.coherent.counted.owned p.1 (by simp only [Ledger.plus_apply]; omega))
  obtain ⟨c, hc, hkind⟩ := kind?_eq_some_iff.mp (hn p hp)
  refine kind?_eq_some_iff.mpr ⟨c', hc', ?_⟩
  rw [← hkind]
  exact (ev.follows_of_live hc hc' hk).kind

theorem Valid.of_reserveProperty {res : Except OutOfMemory Unit} (hv : h.Valid x)
    (e : (AllocM.reserveProperty r).run h = .ok (res, h')) : GivesUp x h h' := by
  obtain ⟨o, _, e₁, e⟩ := AllocM.lift_bind_eq_ok e
  obtain ⟨ho, rfl⟩ := object_eq_ok e₁
  obtain ⟨c, hc, _⟩ := body?_eq_some_iff.mp ho
  dsimp only at e
  split at e
  · rcases AllocM.bind_eq_ok e with ⟨_, h₁, e₂, e⟩ | ⟨err, e₂, rfl⟩
    · rcases hv.sound.of_growCell hc e₂ with ⟨_, hs₁, hsame⟩ | ⟨⟨_, he⟩, _⟩
      · obtain ⟨_, e₃, rfl⟩ := AllocM.lift_eq_ok e
        have hl₁ := hv.rests_of_unedited hs₁ (.of_same hsame)
        have ho₁ : h₁.body? r = some (.object o) := (hsame.body r).trans ho
        have hnames : h₁.Names (Body.object o).typedRefs := hs₁.names ho₁
        obtain ⟨hv', hre⟩ := hl₁.valid.of_modifyObject ho₁ rfl rfl hnames (fun _ => rfl) e₃
        exact ⟨hl₁.leaves.trans ⟨hv', (hre.alters hs₁ hv' rfl fun _ => rfl).apart⟩, fun _ =>
          ((Unchanged.of_same hsame).trans (.of_rewrites hre rfl)).agree x, hl₁.steady.trans (hre.steady nofun)⟩
      · cases he
    · rcases hv.sound.of_growCell hc e₂ with ⟨he, _⟩ | ⟨_, rfl⟩
      · cases he
      · exact hv.givesUp_refl
  · obtain ⟨rfl, rfl⟩ := AllocM.pure_eq_ok e
    exact hv.givesUp_refl

theorem modifyObjectAt_modifyObjectAt (h : Heap) (i : Nat) (f g : Object → Object) :
    (h.modifyObjectAt i f).modifyObjectAt i g = h.modifyObjectAt i (g ∘ f) := by
  unfold modifyObjectAt modifyBody
  rw [modifyCell_modifyCell]
  congr 1
  funext c
  simp only [Function.comp_apply]
  cases c.body <;> rfl

/-- An object may be edited together with its shape if nobody else has the shape. -/
theorem Laid.of_own {o' : Object} (hv : h.Valid x) (ho : h.body? r = some (.object o))
    (hone : h.refCount? o.shape = some 1) (hobject : h'.body? r = some (.object o'))
    (hsame : o'.shape = o.shape) (hshape : h'.body? o.shape = some (.shape t'))
    (hback : ∀ q b, q ≠ r → q ≠ o.shape → h'.body? q = some b → h.body? q = some b)
    (hsize : t'.entries.size = o'.properties.size) (hok : h.Admits o.shape t') : h'.Laid := by
  have hnot : ∀ q t, h'.body? q = some (.shape t) → q ≠ r := by
    rintro q t ht rfl
    rw [hobject] at ht
    cases ht
  refine ⟨fun q o₁ t₁ ho₁ ht₁ => ?_, hv.laid.admits (fun q t hq ht => hback q _ (hnot q t ht) hq ht) hshape hok⟩
  by_cases hq : q = r
  · subst hq
    rw [hobject] at ho₁
    cases ho₁
    rw [hsame, hshape] at ht₁
    cases ht₁
    exact hsize
  · have hqs : q ≠ o.shape := by
      rintro rfl
      rw [hshape] at ho₁
      cases ho₁
    have hold := hback q _ hq hqs ho₁
    -- nobody else has the shape that was edited
    have hss : o₁.shape ≠ o.shape := fun hss => hq
      (hv.sound.coherent.counted.sole hone ho (Object.shape_mem_refs o) hold
        (hss ▸ Object.shape_mem_refs o₁))
    exact hv.laid.fits q o₁ t₁ hold (hback _ _ (hnot _ t₁ ht₁) hss ht₁)

/-- Who owns a property owns what it refers to. -/
theorem plus_refs_pos {p : Property} {a : Handle × Kind} (x : Ledger) (ha : a ∈ p.typedRefs) :
    0 < (x.plus p.refs) a.1 := by
  have := List.count_pos_iff.mpr (p.map_typedRefs ▸ List.mem_map_of_mem ha : a.1 ∈ p.refs)
  simp only [Ledger.plus_apply]
  omega

/-- A property that is owned goes on naming cells of their kinds. -/
theorem Spares.names {p : Property} (e : Spares (x.plus p.refs) ss h h') (hn : h.Names p.typedRefs) :
    h'.Names p.typedRefs := fun a ha => e.kinds _ _ (plus_refs_pos x ha) (hn a ha)

/-- The property is stored behind the others, in an object that has the longer shape by then. -/
theorem Valid.of_push {p : Property} {index : Nat} {s : Handle} (hv : h.Valid (x.plus p.refs))
    (hnames : h.Names p.typedRefs) (ho : h.body? r = some (.object o))
    (e₁ : (AllocM.addProperty o.shape atom flags).run h = .ok (.ok (s, index), h₁))
    (e₂ : HeapM.setShape r s h₁ = .ok (u, h₂))
    (e₃ : HeapM.modifyObject r (fun o => { o with properties := o.properties.push p }) h₂ = .ok (u, h')) :
    ∃ t₀ t', index = t₀.entries.size ∧ h.body? o.shape = some (.shape t₀) ∧ Extended atom flags t₀ t' ∧
      Reseats x r { o with shape := s, properties := o.properties.push p } t' h h' := by
  rcases hv.sound.of_addProperty e₁ with
    ⟨new, t₀, t', hres, hext, hsole, hrep⟩ | ⟨t₀, t', hres, hext, hone, hs₁, hre, hok⟩ | ⟨⟨_, he⟩, _⟩
  · cases hres
    obtain ⟨o₁, c, hc, hb, he₂⟩ := modifyObject_eq_ok e₂
    obtain ⟨_, _, _, _, he₃⟩ := modifyObject_eq_ok e₃
    rw [he₂, modifyObjectAt_modifyObjectAt] at he₃
    have ho₁ := body?_eq_some_iff.mpr ⟨c, hc, hb⟩
    have hback := hrep.object_before ho₁
    rw [ho] at hback
    cases hback
    refine ⟨t₀, t', rfl, hrep.before, hext, hrep.hand (y := x) hv.laid hsole ho₁ rfl ?_ (fun a ha => ?_)
      (fun q => ?_) he₃⟩
    · have := hv.laid.fits r o t₀ ho hrep.before
      simp only [Function.comp_apply, Array.size_push, hext.entries]
      omega
    · rcases Object.typedRefs_push ha with ha | ha
      · rcases Object.typedRefs_setShape ha with ha | ha
        · exact .inl ha
        · exact .inr (.inl ha)
      · exact .inr (.inr ⟨hnames a ha, plus_refs_pos x ha⟩)
    · have hshape := Object.count_refs_setShape o s q
      have hpush := Object.count_refs_push { o with shape := s } p q
      dsimp only at hpush
      simp only [Function.comp_apply, Ledger.plus_apply]
      omega
  · cases hres
    have hrs : r ≠ o.shape := by
      intro hr
      have := hre.before
      rw [← hr, ho] at this
      cases this
    have ho₁ : h₁.body? r = some (.object o) := (hre.others r hrs).trans ho
    obtain ⟨hs₂, hre₂⟩ := hs₁.of_setShape_same ho₁ e₂
    have hnames₂ : h₂.Names (Body.object { o with properties := o.properties.push p }).typedRefs := by
      intro a ha
      rcases Object.typedRefs_push ha with ha | ha
      · exact hs₂.names hre₂.after a ha
      · have hsp : Spares (x.plus p.refs) [o.shape, r] h h₂ :=
          ((Spares.of_rewrites hre rfl _).mono (fun _ hr => hr) (by simp)).trans
            ((Spares.of_rewrites hre₂ rfl _).mono (fun _ hr => hr) (by simp))
        exact hsp.names hnames a ha
    obtain ⟨hs', hre₃⟩ := hs₂.of_modifyObject (y := x) hre₂.after hnames₂ (fun q => by
      have := Object.count_refs_push o p q
      simp only [Ledger.plus_apply]
      omega) e₃
    have hshape : h'.body? o.shape = some (.shape t') := by
      rw [hre₃.others _ (Ne.symm hrs), hre₂.others _ (Ne.symm hrs), hre.after]
    have hback : ∀ q b, q ≠ r → q ≠ o.shape → h'.body? q = some b → h.body? q = some b := by
      intro q b hq hqs hb
      rwa [hre₃.others _ hq, hre₂.others _ hq, hre.others _ hqs] at hb
    have hfits := hv.laid.fits r o t₀ ho hre.before
    refine ⟨t₀, t', rfl, hre.before, hext, ⟨hs', .of_own hv ho hone hre₃.after rfl hshape hback ?_ (hok hv.laid)⟩,
      hre₃.after, hshape, hback, .inr ?_⟩
    · simp only [Array.size_push, hext.entries]
      omega
    · rw [hre₃.count, hre₂.count, hre.count]
      exact hone
  · cases he

/-- A property is added at the end, or given up. -/
theorem Valid.of_appendProperty {p : Property} {res : Except OutOfMemory Unit}
    (hv : h.Valid (x.plus p.refs)) (hnames : h.Names p.typedRefs)
    (e : (AllocM.appendProperty r atom flags p).run h = .ok (res, h')) :
    (res = .ok () ∧ h'.Valid x ∧ Steady x h h' ∧ Alters r (·.append ⟨atom, flags⟩ p) h h') ∨
      (∃ err, res = .error err) ∧ GivesUp x h h' := by
  rcases AllocM.bind_eq_ok e with ⟨_, h₁, e₁, e⟩ | ⟨err, e₁, rfl⟩
  · rcases AllocM.tryCatch_eq_ok e₁ with ⟨_, e₁, _⟩ | ⟨_, _, _, e₁⟩
    · have hl₁ := hv.of_reserveProperty e₁
      have hnames₁ := (AllocM.tracks_reserveProperty r _ _ _ e₁).names (by omega) hl₁.valid.sound hnames
        p.map_typedRefs
      obtain ⟨old, _, e₂, e⟩ := AllocM.lift_bind_eq_ok e
      obtain ⟨o, ho, rfl, rfl⟩ := objectShape_eq_ok e₂
      rcases AllocM.bind_eq_ok e with ⟨⟨s, index⟩, h₂, e₃, e⟩ | ⟨err, e₃, rfl⟩
      · rcases AllocM.tryCatch_eq_ok e₃ with ⟨_, e₃, hres⟩ | ⟨_, _, _, e₃⟩
        · cases hres
          obtain ⟨_, h₃, e₄, e⟩ := AllocM.lift_bind_eq_ok e
          obtain ⟨_, h₄, e₅, e⟩ := AllocM.lift_bind_eq_ok e
          obtain ⟨o', _, e₆, e⟩ := AllocM.lift_bind_eq_ok e
          obtain ⟨_, rfl⟩ := object_eq_ok e₆
          split at e
          · exact (AllocM.fault_eq_ok e).elim
          · obtain ⟨rfl, rfl⟩ := AllocM.pure_eq_ok e
            obtain ⟨t₀, t', -, ht₀, hext, hseat⟩ := hl₁.valid.of_push hnames₁ ho e₃ e₄ e₅
            have hd := record?_eq_some_iff.mpr (drawing?_of_object ho ht₀)
            have hpush := Object.record_push (p := p) (hl₁.valid.laid.fits r o t₀ ho ht₀) hext.proto
              hext.entries
            exact .inl ⟨rfl, hseat.valid, hl₁.steady.of_plus.trans hseat.steady,
              .after_apart hl₁.apart (hseat.alters hd hpush)⟩
        · obtain ⟨_, _, _, e₃⟩ := AllocM.lift_bind_eq_ok e₃
          obtain ⟨_, _, _, e₃⟩ := AllocM.lift_bind_eq_ok e₃
          cases e₃
      · rcases AllocM.tryCatch_eq_ok e₃ with ⟨_, _, hres⟩ | ⟨err', h₂, e₄, e₅⟩
        · cases hres
        · obtain ⟨_, h₃, e₅, e₆⟩ := AllocM.lift_bind_eq_ok e₅
          obtain ⟨_, h₄, e₆, e₇⟩ := AllocM.lift_bind_eq_ok e₆
          obtain ⟨_, rfl⟩ := AllocM.throw_eq_ok e₇
          rcases hl₁.valid.sound.of_addProperty e₄ with ⟨_, _, _, hres, _⟩ | ⟨_, _, hres, _⟩ | ⟨_, hs₂, hk⟩
          · cases hres
          · cases hres
          · obtain ⟨o₁, c, hc, hb, _⟩ := modifyObject_eq_ok e₅
            have ho₁ := body?_eq_some_iff.mpr ⟨c, hc, hb⟩
            have hback := hk.body? ho₁
            rw [ho] at hback
            cases hback
            obtain ⟨hs₃, hre⟩ := hs₂.of_setShape_same ho₁ e₅
            have hgave : GivesUp (x.plus p.refs) h₁ h₃ :=
              hl₁.valid.givesUp ⟨hs₃, hk.trans (.of_rewrites hre)⟩ fun hq =>
                (hq.agree_of_addProperty_error hl₁.valid.sound e₄).trans
                  ((Unchanged.of_rewrites hre rfl).agree _)
            exact .inr ⟨⟨err, rfl⟩, (hgave.after hl₁.apart hl₁.agree hl₁.steady).releaseAll e₆⟩
    · obtain ⟨_, _, _, e₁⟩ := AllocM.lift_bind_eq_ok e₁
      cases e₁
  · rcases AllocM.tryCatch_eq_ok e₁ with ⟨_, _, hres⟩ | ⟨err', h₁, e₂, e₃⟩
    · cases hres
    · obtain ⟨_, h₂, e₃, e₄⟩ := AllocM.lift_bind_eq_ok e₃
      obtain ⟨_, rfl⟩ := AllocM.throw_eq_ok e₄
      exact .inr ⟨⟨err, rfl⟩, (hv.of_reserveProperty e₂).releaseAll e₃⟩

/-! ## Defining a property -/

/-- A property is put in the place of another, which is given up. -/
theorem Valid.of_replace {p : Property} {i : Nat} {res : Except OutOfMemory Bool}
    (hv : h.Valid (x.plus p.refs)) (hnames : h.Names p.typedRefs)
    (e : ((liftM (HeapM.replaceProperty r i p) : AllocM Property) >>= fun old =>
      (liftM (HeapM.releaseProperty old) : AllocM Unit) >>= fun _ => pure true).run h = .ok (res, h')) :
    res = .ok true ∧ h'.Valid x ∧ Steady x h h' ∧ Alters r (·.edit i fun c => (c.1, p)) h h' := by
  obtain ⟨q, h₁, e₁, e⟩ := AllocM.lift_bind_eq_ok e
  obtain ⟨_, h₂, e₂, e⟩ := AllocM.lift_bind_eq_ok e
  obtain ⟨rfl, rfl⟩ := AllocM.pure_eq_ok e
  obtain ⟨hv₁, halt⟩ := hv.of_replaceProperty hnames e₁
  obtain ⟨hv', hk⟩ := hv₁.of_releaseProperty e₂
  exact ⟨rfl, hv', (steady_of_replaceProperty e₁).trans (.of_keeps hk), halt.then_apart (.of_keeps hk)⟩

theorem findOwn?_of_object (ho : h.body? r = some (.object o)) :
    h.findOwn? r atom = h.findProperty? o.shape atom := by
  unfold findOwn?
  rw [object?_iff_body?.mpr ho]
  rfl

/-- A property gets other flags in a shape that was taken over, and then what it is to hold. -/
theorem Valid.of_reflag {p : Property} {index : Nat} {oldFlags : Flags} {res : Except OutOfMemory Bool}
    (hv : h.Valid (x.plus p.refs)) (hnames : h.Names p.typedRefs) (ho : h.body? r = some (.object o))
    (hfind : h.findOwn? r atom = some (index, oldFlags))
    (e : (do
      let shape ←
        try AllocM.ownShape r
        catch e =>
          HeapM.releaseProperty p
          throw e
      HeapM.modifyShape shape (·.setFlags index flags)
      let old ← HeapM.replaceProperty r index p
      HeapM.releaseProperty old
      return true : AllocM Bool).run h = .ok (res, h')) :
    (∃ done, res = .ok done ∧ Performs x r (·.define (some (index, oldFlags)) atom flags p) done h h') ∨
      (∃ err, res = .error err) ∧ GivesUp x h h' := by
  obtain ⟨t, ht, hd⟩ := hv.sound.exists_record ho
  obtain ⟨q, hcol⟩ := hv.located hd hfind
  rcases AllocM.bind_eq_ok e with ⟨s, h₁, e₁, e⟩ | ⟨err, e₁, rfl⟩
  · rcases AllocM.tryCatch_eq_ok e₁ with ⟨_, e₁, hres⟩ | ⟨_, _, _, e₁⟩
    · cases hres
      rcases hv.of_ownShape e₁ with ⟨s', o', t₀, t', hres, htake⟩ | ⟨⟨_, he⟩, _⟩
      · cases hres
        obtain ⟨_, h₂, e₂, e⟩ := AllocM.lift_bind_eq_ok e
        obtain ⟨hv₂, hre⟩ := htake.valid.of_modifyShape (f := (·.setFlags index flags)) htake.shape rfl
          rfl (by simp [Shape.setFlags])
          (admits_of_unshared (htake.wired.setFlags index flags) htake.unshared.isHashed) e₂
        have hnames₁ := (AllocM.tracks_ownShape r _ _ _ e₁).names (by omega) htake.valid.sound hnames
          p.map_typedRefs
        obtain ⟨rfl, hv', hsteady, halt⟩ :=
          hv₂.of_replace ((Spares.of_rewrites hre rfl (x.plus p.refs)).names hnames₁) e
        have hsteady₂ := (htake.steady.trans (htake.reseats hv₂ hre).steady).of_plus
        have hflags := htake.reshape (f := (·.edit index fun c => (⟨c.1.atom, flags⟩, c.2))) hv₂ hre
          Object.record_setFlags
        refine .inl ⟨true, rfl, hv', ⟨_, hd, rfl⟩, hsteady₂.trans hsteady, _, hflags.trans halt,
          fun d hd' => .inl ?_⟩
        rw [hd] at hd'
        cases hd'
        rw [Function.comp_apply, Record.edit_edit, Record.edit_eq_set hcol]
        rfl
      · cases he
    · obtain ⟨_, _, _, e₁⟩ := AllocM.lift_bind_eq_ok e₁
      cases e₁
  · rcases AllocM.tryCatch_eq_ok e₁ with ⟨_, _, hres⟩ | ⟨err', h₁, e₂, e₃⟩
    · cases hres
    · obtain ⟨_, h₂, e₃, e₄⟩ := AllocM.lift_bind_eq_ok e₃
      obtain ⟨_, rfl⟩ := AllocM.throw_eq_ok e₄
      rcases hv.of_ownShape e₂ with ⟨_, _, _, _, hres, _⟩ | ⟨_, hgave⟩
      · cases hres
      · exact .inr ⟨⟨err, rfl⟩, hgave.releaseAll e₃⟩

/-- A property the object does not have is put behind the others, or refused. -/
theorem Valid.of_defineNew {p : Property} {res : Except OutOfMemory Bool} (hv : h.Valid (x.plus p.refs))
    (hnames : h.Names p.typedRefs) (ho : h.body? r = some (.object o))
    (e : (do
      let o ← HeapM.object r
      if o.extensible then
        AllocM.appendProperty r atom flags p
        return true
      else
        HeapM.releaseProperty p
        return false : AllocM Bool).run h = .ok (res, h')) :
    (∃ done, res = .ok done ∧ Performs x r (·.define none atom flags p) done h h') ∨
      (∃ err, res = .error err) ∧ GivesUp x h h' := by
  obtain ⟨t, ht, hd⟩ := hv.sound.exists_record ho
  obtain ⟨o', _, e₁, e⟩ := AllocM.lift_bind_eq_ok e
  obtain ⟨ho', rfl⟩ := object_eq_ok e₁
  rw [ho] at ho'
  cases ho'
  split at e
  · rename_i hext
    have hdefine : ∀ d, h.record? r = some d →
        d.define none atom flags p = (true, d.append ⟨atom, flags⟩ p) := by
      intro d hd'
      rw [hd] at hd'
      cases hd'
      exact if_pos hext
    rcases AllocM.bind_eq_ok e with ⟨_, h₁, e₂, e⟩ | ⟨err, e₂, rfl⟩
    · obtain ⟨rfl, rfl⟩ := AllocM.pure_eq_ok e
      rcases hv.of_appendProperty hnames e₂ with ⟨_, hv', hsteady, halt⟩ | ⟨⟨_, he⟩, _⟩
      · refine .inl ⟨true, rfl, hv', ⟨_, hd, by rw [hdefine _ hd]⟩, hsteady, _, halt, fun d hd' => .inl ?_⟩
        rw [hdefine d hd']
      · cases he
    · rcases hv.of_appendProperty hnames e₂ with ⟨he, _⟩ | ⟨_, hl⟩
      · cases he
      · exact .inr ⟨⟨err, rfl⟩, hl⟩
  · rename_i hext
    obtain ⟨_, h₁, e₂, e⟩ := AllocM.lift_bind_eq_ok e
    obtain ⟨rfl, rfl⟩ := AllocM.pure_eq_ok e
    have hdefine : ∀ d, h.record? r = some d → d.define none atom flags p = (false, d) := by
      intro d hd'
      rw [hd] at hd'
      cases hd'
      exact if_neg hext
    obtain ⟨hv', hk⟩ := hv.of_releaseProperty e₂
    refine .inl ⟨false, rfl, hv', ⟨_, hd, by rw [hdefine _ hd]⟩, .of_keeps hk, id,
      .of_apart (.of_keeps hk) ho, fun d hd' => .inl ?_⟩
    rw [hdefine d hd']
    rfl

/-- A property is defined, refused, or given up when memory runs out. -/
theorem Valid.of_defineOwn {p : Property} {res : Except OutOfMemory Bool} (hv : h.Valid (x.plus p.refs))
    (hnames : h.Names p.typedRefs) (e : (AllocM.defineOwn r atom flags p).run h = .ok (res, h')) :
    (∃ done, res = .ok done ∧ Performs x r (·.define (h.findOwn? r atom) atom flags p) done h h') ∨
      (∃ err, res = .error err) ∧ GivesUp x h h' := by
  obtain ⟨s, _, e₁, e⟩ := AllocM.lift_bind_eq_ok e
  obtain ⟨o, ho, rfl, rfl⟩ := objectShape_eq_ok e₁
  rw [AllocM.get_bind] at e
  rw [← findOwn?_of_object ho] at e
  cases hfind : h.findOwn? r atom with
  | some found =>
    obtain ⟨index, oldFlags⟩ := found
    rw [hfind] at e
    dsimp only at e
    split at e
    · exact hv.of_reflag hnames ho hfind e
    · rename_i hflags
      have hsame : oldFlags = flags := by simpa using hflags
      obtain ⟨t, ht, hd⟩ := hv.sound.exists_record ho
      obtain ⟨q, hcol⟩ := hv.located hd hfind
      obtain ⟨rfl, hv', hsteady, halt⟩ := hv.of_replace hnames e
      refine .inl ⟨true, rfl, hv', ⟨_, hd, rfl⟩, hsteady, _, halt, fun d hd' => .inl ?_⟩
      rw [hd] at hd'
      cases hd'
      rw [Record.edit_eq_set hcol, hsame]
      rfl
  | none =>
    rw [hfind] at e
    exact hv.of_defineNew hnames ho e

/-- An object that is left finds what it found before. -/
theorem Keeps.findOwn? (hk : Keeps h h') (hs : h'.Sound x n) (ho : h'.body? r = some (.object o)) :
    h'.findOwn? r atom = h.findOwn? r atom := by
  obtain ⟨t, ht, _⟩ := hs.exists_record ho
  rw [findOwn?_of_object ho, findOwn?_of_object (hk.body? ho)]
  unfold findProperty?
  rw [shape?_iff_body?.mpr ht, shape?_iff_body?.mpr (hk.body? ht)]

/-- Calls before an operation on an object that leave what is seen. -/
theorem Performs.after_apart {op : Record → Bool × Record} {done : Bool} (e₁ : Apart [] h h₁)
    (hsteady : Steady x h h₁) (e₂ : Performs x r op done h₁ h') : Performs x r op done h h' := by
  have hback : ∀ d, h₁.record? r = some d → h.record? r = some d := fun d hd =>
    record?_eq_some_iff.mpr (e₁ r _ (by simp) (record?_eq_some_iff.mp hd))
  obtain ⟨d, hd, hdone⟩ := e₂.answer
  obtain ⟨f, halt, hf⟩ := e₂.effect
  refine ⟨e₂.valid, ⟨d, hback d hd, hdone⟩, hsteady.trans e₂.steady, f, .after_apart e₁ halt,
    fun d' hd' => hf d' ?_⟩
  rw [hd, ← hback d hd, hd']

/-- An accessor takes references of its own. -/
theorem Valid.of_retainAccessor {getter setter : Option Handle} (hv : h.Valid x)
    (hnames : h.Names (Property.accessor getter setter).typedRefs)
    (e₁ : HeapM.retainOption getter h = .ok (u, h₁)) (e₂ : HeapM.retainOption setter h₁ = .ok (u, h₂)) :
    Rests (x.plus (Property.accessor getter setter).refs) h h₂ ∧ Keeps h h₂ ∧
      h₂.Names (Property.accessor getter setter).typedRefs := by
  obtain ⟨hs₁, hk₁, _⟩ := hv.sound.retainOption e₁
  obtain ⟨hs₂, hk₂, _⟩ := hs₁.retainOption e₂
  rw [← Ledger.plus_append] at hs₂
  refine ⟨hv.rests ⟨hs₂, hk₁.trans hk₂⟩, hk₁.trans hk₂, fun a ha => ?_⟩
  exact (hk₁.trans hk₂).kind_of_contains (hs₂.coherent.counted.owned a.1 (plus_refs_pos x ha))
    (hnames a ha)

theorem Valid.of_defineAccessor {getter setter : Option Handle} {res : Except OutOfMemory Bool}
    (hv : h.Valid x) (hnames : h.Names (Property.accessor getter setter).typedRefs)
    (e : (AllocM.defineAccessor r atom flags getter setter).run h = .ok (res, h')) :
    (∃ done, res = .ok done ∧ Performs x r (·.define (h.findOwn? r atom) atom (flags.withKind .accessor)
        (.accessor getter setter)) done h h') ∨
      (∃ err, res = .error err) ∧ GivesUp x h h' := by
  obtain ⟨_, h₁, e₁, e⟩ := AllocM.lift_bind_eq_ok e
  obtain ⟨_, h₂, e₂, e⟩ := AllocM.lift_bind_eq_ok e
  obtain ⟨hl₂, hk, hnames₂⟩ := hv.of_retainAccessor hnames e₁ e₂
  rcases hl₂.valid.of_defineOwn hnames₂ e with ⟨done, rfl, hdone⟩ | ⟨herr, hl⟩
  · refine .inl ⟨done, rfl, ?_⟩
    obtain ⟨d, hd, _⟩ := hdone.answer
    obtain ⟨o, ho, _⟩ := Option.bind_eq_some_iff.mp hd
    rw [← hk.findOwn? hl₂.valid.sound (object?_iff_body?.mp ho)]
    exact .after_apart hl₂.apart hl₂.steady hdone
  · refine .inr ⟨herr, hl.after hl₂.apart (fun _ => ?_) hl₂.steady⟩
    exact ((unchanged_of_retainOption e₁).trans (unchanged_of_retainOption e₂)).agree x

/-- An assignment consumes its value.  It puts the value into the variable that a property stands for. -/
theorem Valid.of_assign {v : Value} {res : Except OutOfMemory Bool}
    (hv : h.Valid (x.plus v.ref?.toList)) (hnames : h.Names v.typedRef?.toList)
    (e : (AllocM.setProperty r atom v).run h = .ok (res, h')) :
    (∃ done, res = .ok done ∧ Performs x r (·.assign (h.findOwn? r atom) atom v) done h h' ∧
        ∀ i flags d, h.findOwn? r atom = some (i, flags) → done = true → flags.kind = .captured →
          h.record? r = some d → ∃ y, d.columns[i]? = some (⟨atom, flags⟩, .captured y) ∧
            (h'.contains y = true → h'.variableValue y = .ok v)) ∨
      (∃ err, res = .error err) ∧ GivesUp x h h' := by
  unfold AllocM.setProperty at e
  rw [AllocM.get_bind] at e
  cases hfind : h.findOwn? r atom with
  | none =>
    rw [hfind] at e
    have hdefine := Valid.of_defineOwn (p := .value v) hv hnames e
    rw [hfind] at hdefine
    rcases hdefine with ⟨done, hres, hdone⟩ | herr
    · exact .inl ⟨done, hres, hdone, nofun⟩
    · exact .inr herr
  | some found =>
    obtain ⟨index, flags⟩ := found
    obtain ⟨o, ho, hfound⟩ := Option.bind_eq_some_iff.mp hfind
    have ho := object?_iff_body?.mp ho
    obtain ⟨t, ht, hd⟩ := hv.sound.exists_record ho
    obtain ⟨q, hcol⟩ := hv.located hd hfind
    have honly : ∀ d, h.record? r = some d → d = o.record t := by
      intro d hd'
      rw [hd] at hd'
      cases hd'
      rfl
    rw [hfind] at e
    dsimp only at e
    split at e
    · rename_i hrefuse
      obtain ⟨_, h₁, e₁, e⟩ := AllocM.lift_bind_eq_ok e
      obtain ⟨rfl, rfl⟩ := AllocM.pure_eq_ok e
      obtain ⟨hv', hk⟩ := hv.of_freeValue e₁
      have hassign : ∀ d : Record, d.assign (some (index, flags)) atom v = (false, d) := fun d => if_pos hrefuse
      refine .inl ⟨false, rfl, ⟨hv', ⟨_, hd, by rw [hassign]⟩, .of_keeps hk, id, .of_apart (.of_keeps hk) ho,
        fun d _ => .inl (by rw [hassign]; rfl)⟩, nofun⟩
    · rename_i hallow
      split at e
      · rename_i hkind
        obtain ⟨o', _, e₁, e⟩ := AllocM.lift_bind_eq_ok e
        obtain ⟨ho', rfl⟩ := object_eq_ok e₁
        rw [ho] at ho'
        cases ho'
        have hassign : ∀ d : Record, d.assign (some (index, flags)) atom v = (true, d) := fun d =>
          (if_neg hallow).trans (if_pos hkind)
        have hprop : o.properties[index]? = some q := by
          rw [Object.record, List.getElem?_zip_eq_some, Array.getElem?_toList, Array.getElem?_toList] at hcol
          exact hcol.2
        rw [hprop] at e
        cases q with
        | captured y =>
          obtain ⟨_, h₁, e₂, e⟩ := AllocM.lift_bind_eq_ok e
          obtain ⟨rfl, rfl⟩ := AllocM.pure_eq_ok e
          obtain ⟨hl, hvar⟩ := hv.of_setVariable hnames e₂
          refine .inl ⟨true, rfl, ⟨hl.valid, ⟨_, hd, by rw [hassign]⟩, hl.steady, id, .of_apart hl.apart ho,
            fun d _ => .inl (by rw [hassign]; rfl)⟩, fun i flags' d hplace _ _ hd' => ?_⟩
          cases hplace
          rw [honly d hd']
          exact ⟨y, hcol, hvar⟩
        | value w => exact (AllocM.fault_eq_ok e).elim
        | accessor getter setter => exact (AllocM.fault_eq_ok e).elim
      · rename_i hkind
        obtain ⟨_, h₁, e₁, e⟩ := AllocM.lift_bind_eq_ok e
        obtain ⟨rfl, rfl⟩ := AllocM.pure_eq_ok e
        obtain ⟨hv', hsteady, halt⟩ := hv.of_writeSlot hnames e₁
        have hassign : ∀ d : Record, d.assign (some (index, flags)) atom v =
            (true, d.set index ⟨atom, flags⟩ (.value v)) := fun d => (if_neg hallow).trans (if_neg hkind)
        refine .inl ⟨true, rfl, ⟨hv', ⟨_, hd, by rw [hassign]⟩, hsteady, _, halt, fun d hd' => .inl ?_⟩,
          fun i flags' d hplace _ hcaptured => ?_⟩
        · rw [honly d hd', Record.edit_eq_set hcol, hassign]
        · cases hplace
          simp [hcaptured] at hkind

end Heap

end ObjectMemory
