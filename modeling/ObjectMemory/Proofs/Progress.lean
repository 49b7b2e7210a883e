import ObjectMemory.Proofs.Holes
import ObjectMemory.Proofs.Shelter
import ObjectMemory.Proofs.StorageKinds
import ObjectMemory.Proofs.Variables
set_option autoImplicit false

/-!
# Operations on what is retained

An operation that allocates keeps handles to cells it has yet to read or change.  If those cells are
retained it ends well, or for lack of memory: whatever the collector frees on the way is something else.

An object is edited between two allocations only in its capacity, so it stays retained for the second.
Deleting a property is the exception: the object takes over a shape, gives up the property, and may then be
compacted.  It is retained all the same, since no reference of its own is needed to lead to it
(`Heap.Counted.retained_of_edits`).
-/

namespace ObjectMemory

namespace Heap

variable {x y : Ledger} {n : Nat} {h h₁ h₂ h' : Heap} {r s : Handle} {b b' : Body} {o : Object}
  {t t₀ t' : Shape} {ss tt : List Handle} {u : Unit} {bars : Fault → Bool} {atom : Atom} {flags : Flags}
  {p q : Property} {i : Nat}

/-! ## Steps on an object -/

theorem object_of_body (ho : h.body? r = some (.object o)) : HeapM.object r h = .ok (o, h) :=
  HeapM.object_apply (object?_iff_body?.mpr ho)

theorem objectShape_of_body (ho : h.body? r = some (.object o)) :
    HeapM.objectShape r h = .ok (o.shape, h) := by
  simp [HeapM.objectShape, HeapM.read, object?_iff_body?.mpr ho]

/-- An object that is there can be edited. -/
theorem exists_modifyObject (ho : h.body? r = some (.object o)) (g : Object → Object) :
    ∃ h', HeapM.modifyObject r g h = .ok ((), h') ∧ Rewrites r (.object o) (.object (g o)) h h' := by
  obtain ⟨c, hc, hb⟩ := body?_eq_some_iff.mp ho
  refine ⟨h.modifyObjectAt r.index g, by simp [HeapM.modifyObject, object?_iff_body?.mpr ho], ?_⟩
  exact .of_updates (Updates.modifyObjectAt hc hb g) hc hb (.modifyCell _ _ _)

theorem exists_replaceProperty (ho : h.body? r = some (.object o)) (hq : o.properties[i]? = some q)
    (p : Property) : ∃ h', HeapM.replaceProperty r i p h = .ok (q, h') ∧
      Rewrites r (.object o) (.object { o with properties := o.properties.setIfInBounds i p }) h h' := by
  obtain ⟨h', e, hre⟩ := exists_modifyObject ho fun o =>
    { o with properties := o.properties.setIfInBounds i p }
  refine ⟨h', ?_, hre⟩
  unfold HeapM.replaceProperty
  rw [HeapM.bind_of_ok (object_of_body ho)]
  simp only [hq]
  rw [HeapM.bind_of_ok e]
  rfl

/-! ## What stays retained -/

namespace Shelters

theorem weaken (e : Shelters x ss h h') (hsub : ss ⊆ tt) : Shelters x tt h h' :=
  ⟨e.locals, fun r b hr => e.bodies r b fun hmem => hr (hsub hmem)⟩

/-- One of the cells that are let off may be edited. -/
theorem edit (e : Shelters x ss h h₁) (hre : Rewrites r b b' h₁ h') (hr : r ∈ ss) : Shelters x ss h h' := by
  refine ⟨fun q hq => by rw [hre.calm.locals]; exact e.locals q hq, fun q d hq hret hd => ?_⟩
  rw [hre.others q fun hqr => hq (hqr ▸ hr)]
  exact e.bodies q d hq hret hd

end Shelters

/-- An edit that leaves the references of a body leaves what is retained. -/
theorem Rewrites.retained (hre : Rewrites s b b' h h') (hrefs : b'.refs = b.refs) (hr : h.Retained x r) :
    h'.Retained x r := by
  unfold Retained at hr
  induction hr with
  | root hr =>
    refine .root ?_
    rw [hre.calm.locals]
    exact hr
  | @step q r c _ hc hmem ih =>
    have hbody : h.body? q = some c.body := body?_eq_some_iff.mpr ⟨c, hc, rfl⟩
    by_cases hq : q = s
    · subst hq
      rw [hre.before] at hbody
      cases hbody
      exact ih.ref hre.after (hrefs ▸ hmem)
    · exact ih.ref ((hre.others q hq).trans hbody) hmem

/-- Cell `r` and a cell `s` that only `r` has may have changed in any way: references of theirs do not help
to lead to `r`. -/
theorem Counted.retained_of_edits (hx : h'.Counted y) (hle : ∀ q, x q ≤ y q)
    (hlocals : ∀ q, 0 < h.heldByFrames q → 0 < h'.heldByFrames q)
    (hback : ∀ q b, q ≠ r → q ≠ s → h'.body? q = some b → h.body? q = some b)
    (hb : h'.body? r = some b) (hmem : s ∈ b.refs) (hone : h'.refCount? s = some 1) (hr : h.Retained x r) :
    h'.Retained x r := by
  have hlive : ∀ {q}, h'.Retained x q → h'.contains q = true := fun hq =>
    hx.contains_of_reachable (fun _ hp => hx.contains_of_outside (by unfold outside; omega)) (hq.mono hle)
  have hsole : h'.Retained x s → h'.Retained x r := by
    intro hs
    obtain ⟨c, hc, hcount⟩ := Option.map_eq_some_iff.mp hone
    obtain ⟨d, hd, rfl⟩ := body?_eq_some_iff.mp hb
    have hheld := held_pos_of_mem_refs (tenant?_of_cell? hd) hmem
    have hsum := hx.refCount_eq hc
    unfold outside at hsum
    unfold Retained at hs
    cases hs with
    | root hs =>
      have hxy := hle s
      omega
    | step hq hq' hsq =>
      have hqr := hx.sole hone hb hmem (body?_eq_some_iff.mpr ⟨_, hq', rfl⟩) hsq
      exact hqr ▸ hq
  have hall : ∀ q, h.Retained x q → h'.Retained x q ∨ h'.Retained x r := by
    intro q hq
    unfold Retained at hq
    induction hq with
    | @root q hq =>
      have hq' := hlocals q
      exact .inl (.root (by omega))
    | @step q q' c _ hc hmem' ih =>
      rcases ih with ih | ih
      · by_cases hqr : q = r
        · exact .inr (hqr ▸ ih)
        · by_cases hqs : q = s
          · exact .inr (hsole (hqs ▸ ih))
          · obtain ⟨c', hc'⟩ := contains_iff.mp (hlive ih)
            have hsame := hback q c'.body hqr hqs (body?_eq_some_iff.mpr ⟨c', hc', rfl⟩)
            obtain ⟨d, hd, hdb⟩ := body?_eq_some_iff.mp hsame
            cases hd.symm.trans hc
            exact .inl (.step ih hc' (hdb ▸ hmem'))
      · exact .inr ih
  exact (hall r hr).elim id id

/-! ## Owning a shape -/

theorem Sound.shape_of_object (hs : h.Sound x n) (ho : h.body? r = some (.object o)) :
    ∃ t, h.body? o.shape = some (.shape t) ∧ r ≠ o.shape := by
  obtain ⟨t, ht, _⟩ := hs.exists_record ho
  refine ⟨t, ht, fun hr => ?_⟩
  rw [← hr, ho] at ht
  cases ht

/-- An object that is retained gets a shape of its own, and what is retained besides the two stays. -/
theorem Sound.yields_ownShape (hfull : bars .tooManySlots = false) (hcount : bars .arithmetic = false)
    (hs : h.Sound x n) (hr : h.Roomy) (ho : h.body? r = some (.object o)) (hkept : h.Retained x r) :
    Yields bars (fun q => Shelters x [r, o.shape] h q.2) ((AllocM.ownShape r).run h) := by
  obtain ⟨t, ht, hne⟩ := hs.shape_of_object ho
  unfold AllocM.ownShape
  rw [AllocM.lift_bind_of_ok (objectShape_of_body ho)]
  refine AllocM.yields_bind (R := fun q => Shelters x [r, o.shape] h q.2 ∧
    ∃ o', q.2.body? r = some (.object o')) ?_ (fun s h₁ _ hres => ?_) fun _ _ _ hres => hres.1
  · refine AllocM.yields_tryCatch (hs.yields_prepareUpdate hfull hcount hr ht
      (hkept.ref ho (Object.shape_mem_refs o))) (fun _ h₁ _ hshel => ?_) fun _ h₁ _ hshel => ?_
    · exact ⟨hshel.weaken (by simp), o, hshel.bodies r _ (by simpa using hne) hkept ho⟩
    · have ho₁ := hshel.bodies r _ (by simpa using hne) hkept ho
      obtain ⟨h₂, e₂, hre⟩ := exists_modifyObject ho₁ fun o' => { o' with shape := o.shape }
      have e₂ : HeapM.setShape r o.shape h₁ = .ok ((), h₂) := e₂
      rw [AllocM.lift_bind_of_ok e₂]
      exact ⟨(hshel.weaken (by simp)).edit hre (by simp), _, hre.after⟩
  · obtain ⟨hshel, o', ho₁⟩ := hres
    obtain ⟨h₂, e₂, hre⟩ := exists_modifyObject ho₁ fun o' => { o' with shape := s }
    have e₂ : HeapM.setShape r s h₁ = .ok ((), h₂) := e₂
    rw [AllocM.lift_bind_of_ok e₂]
    exact hshel.edit hre (by simp)

/-! ## Adding a property -/

/-- Room for one more property: the object keeps its shape and properties, and what was retained is. -/
theorem Sound.yields_reserveProperty (hs : h.Sound x n) (ho : h.body? r = some (.object o)) :
    Yields bars (fun q => q.1 = .ok () → ∃ o', q.2.body? r = some (.object o') ∧ o'.properties = o.properties ∧
      ∀ y s, h.Retained y s → q.2.Retained y s) ((AllocM.reserveProperty r).run h) := by
  obtain ⟨c, hc, _⟩ := body?_eq_some_iff.mp ho
  unfold AllocM.reserveProperty
  rw [AllocM.lift_bind_of_ok (object_of_body ho)]
  dsimp only
  split
  · refine AllocM.yields_bind (R := fun q => q.1 = .ok () → SameBodies h q.2) ?_ (fun _ h₁ _ hsame => ?_)
      fun _ _ _ _ => nofun
    · refine Yields.mono (R := fun _ => True) ?_ fun q e _ hres => ?_
      · obtain ⟨-, hrun⟩ | ⟨_, hrun⟩ := growCell_cases (tenant?_of_cell? hc) _ _ <;> rw [hrun] <;> trivial
      · obtain ⟨_, _, hsame⟩ | ⟨⟨_, herr⟩, _⟩ := hs.of_growCell hc e
        · exact hsame
        · cases hres.symm.trans herr
    · have hre₁ := Rewrites.of_same (hsame rfl) ho
      obtain ⟨h₂, e₂, hre₂⟩ := exists_modifyObject hre₁.after
        fun o' => { o' with capacity := Object.grownCapacity o.properties.size o.capacity }
      rw [AllocM.lift_of_ok e₂]
      exact fun _ => ⟨_, hre₂.after, rfl, fun _ _ hret => hre₂.retained rfl (hre₁.retained rfl hret)⟩
  · exact fun _ => ⟨o, ho, rfl, fun _ _ hret => hret⟩

/-- A property is added at the end of an object that is retained. -/
theorem Valid.yields_appendProperty (hfull : bars .tooManySlots = false) (hcount : bars .arithmetic = false)
    (hv : h.Valid (x.plus p.refs)) (hr : h.Roomy) (ho : h.body? r = some (.object o))
    (hkept : h.Retained (x.plus p.refs) r) :
    Yields bars (fun _ => True) ((AllocM.appendProperty r atom flags p).run h) := by
  unfold AllocM.appendProperty
  refine AllocM.yields_bind (yields_orRelease (x := x) p.refs (hv.sound.yields_reserveProperty ho)
    fun err h₁ e₁ => ⟨_, (hv.of_reserveProperty e₁).valid.sound⟩)
    (fun _ h₁ _ hres => ?_) fun _ _ _ _ => trivial
  obtain ⟨e₁, hres⟩ := hres () rfl
  obtain ⟨o₁, ho₁, -, hret⟩ := hres rfl
  have hv₁ := (hv.of_reserveProperty e₁).valid
  have hd₁ : h.Drifts (fun _ => False) h₁ := drifts_of_reserveProperty r _ _ _ e₁
  obtain ⟨t, ht, hne⟩ := hv₁.sound.shape_of_object ho₁
  have hshape := (hret _ r hkept).ref ho₁ (Object.shape_mem_refs o₁)
  rw [AllocM.lift_bind_of_ok (objectShape_of_body ho₁)]
  have hadd := (hv₁.sound.yields_addProperty atom flags hfull hcount (hd₁.roomy hr) ht
    hshape).mono fun q _ hshel => hshel.bodies r _ (by simpa using hne) (hret _ r hkept) ho₁
  refine AllocM.yields_bind (R := fun q => ∀ a, q.1 = .ok a → a.2 = o₁.properties.size ∧
    q.2.body? r = some (.object o₁)) ?_ (fun a h₂ _ hres => ?_) fun _ _ _ _ => trivial
  · refine AllocM.yields_tryCatch hadd (fun a h₂ e₂ ho₂ a' ha' => ?_) fun err h₂ e₂ ho₂ => ?_
    · cases ha'
      have hfit := hv₁.laid.fits r o₁ t ho₁ ht
      obtain ⟨new, t₀, t', hres, _, _, hrep⟩ | ⟨t₀, t', hres, _, _, _, hre, _⟩ | ⟨⟨_, hres⟩, _⟩ :=
        hv₁.sound.of_addProperty e₂
      · cases hres
        cases hrep.before.symm.trans ht
        exact ⟨hfit, ho₂⟩
      · cases hres
        cases hre.before.symm.trans ht
        exact ⟨hfit, ho₂⟩
      · cases hres
    · obtain ⟨_, _, _, hres, _⟩ | ⟨_, _, hres, _⟩ | ⟨_, hs₂, _⟩ := hv₁.sound.of_addProperty e₂
      · cases hres
      · cases hres
      · obtain ⟨h₃, e₃, _⟩ := exists_modifyObject ho₂ fun o' => { o' with shape := o₁.shape }
        have e₃ : HeapM.setShape r o₁.shape h₂ = .ok ((), h₃) := e₃
        obtain ⟨h₄, e₄, _⟩ := (hs₂.of_setShape_same ho₂ e₃).1.releaseAll
        have e₄ : HeapM.releaseProperty p h₃ = .ok ((), h₄) := e₄
        rw [AllocM.lift_bind_of_ok e₃, AllocM.lift_bind_of_ok e₄]
        exact nofun
  · obtain ⟨hindex, ho₂⟩ := hres a rfl
    obtain ⟨h₃, e₃, hre₃⟩ := exists_modifyObject ho₂ fun o' => { o' with shape := a.1 }
    have e₃ : HeapM.setShape r a.1 h₂ = .ok ((), h₃) := e₃
    obtain ⟨h₄, e₄, hre₄⟩ := exists_modifyObject hre₃.after fun o' =>
      { o' with properties := o'.properties.push p }
    rw [AllocM.lift_bind_of_ok e₃, AllocM.lift_bind_of_ok e₄,
      AllocM.lift_bind_of_ok (object_of_body hre₄.after), if_neg (by simp [hindex])]
    trivial

/-! ## Defining a property -/

/-- What the shape of an object has found is there. -/
theorem Valid.exists_property (hv : h.Valid x) (ho : h.body? r = some (.object o))
    (hfind : h.findOwn? r atom = some (i, flags)) : ∃ q, o.properties[i]? = some q := by
  obtain ⟨t, _, hd⟩ := hv.sound.exists_record ho
  obtain ⟨q, hcol⟩ := hv.located hd hfind
  rw [Object.record, List.getElem?_zip_eq_some, Array.getElem?_toList, Array.getElem?_toList] at hcol
  exact ⟨q, hcol.2⟩

/-- A property is put in the place of another, which is given up. -/
theorem Valid.yields_replace (hv : h.Valid (x.plus p.refs)) (hnames : h.Names p.typedRefs)
    (ho : h.body? r = some (.object o)) (hq : o.properties[i]? = some q) :
    Yields bars (fun _ => True) ((do
      let old ← HeapM.replaceProperty r i p
      HeapM.releaseProperty old
      return true : AllocM Bool).run h) := by
  obtain ⟨h₁, e₁, _⟩ := exists_replaceProperty ho hq p
  obtain ⟨h₂, e₂, _⟩ := (hv.of_replaceProperty hnames e₁).1.sound.releaseAll
  have e₂ : HeapM.releaseProperty q h₁ = .ok ((), h₂) := e₂
  rw [AllocM.lift_bind_of_ok e₁, AllocM.lift_bind_of_ok e₂]
  trivial

/-- A property of an object that is retained can be defined. -/
theorem Valid.yields_defineOwn (hfull : bars .tooManySlots = false) (hcount : bars .arithmetic = false)
    (hv : h.Valid (x.plus p.refs)) (hr : h.Roomy) (hnames : h.Names p.typedRefs)
    (ho : h.body? r = some (.object o)) (hkept : h.Retained (x.plus p.refs) r) :
    Yields bars (fun _ => True) ((AllocM.defineOwn r atom flags p).run h) := by
  unfold AllocM.defineOwn
  rw [AllocM.lift_bind_of_ok (objectShape_of_body ho), AllocM.get_bind, ← findOwn?_of_object ho]
  cases hfind : h.findOwn? r atom with
  | none =>
    dsimp only
    rw [AllocM.lift_bind_of_ok (object_of_body ho)]
    split
    · exact AllocM.yields_bind (hv.yields_appendProperty hfull hcount hr ho hkept) (fun _ _ _ _ => trivial)
        fun _ _ _ _ => trivial
    · obtain ⟨h₁, e₁, _⟩ := hv.sound.releaseAll
      have e₁ : HeapM.releaseProperty p h = .ok ((), h₁) := e₁
      rw [AllocM.lift_bind_of_ok e₁]
      trivial
  | some found =>
    obtain ⟨index, oldFlags⟩ := found
    obtain ⟨q, hq⟩ := hv.exists_property ho hfind
    dsimp only
    split
    · refine AllocM.yields_bind (yields_orRelease (x := x) p.refs (R := fun _ => True)
        ((hv.sound.yields_ownShape hfull hcount hr ho hkept).mono fun _ _ _ => trivial) fun err h₁ e₁ => ?_)
        (fun s h₁ _ hres => ?_) fun _ _ _ _ => trivial
      · obtain ⟨_, _, _, _, hres, _⟩ | ⟨_, hgave⟩ := hv.of_ownShape e₁
        · cases hres
        · exact ⟨_, hgave.valid.sound⟩
      · obtain ⟨e₁, _⟩ := hres s rfl
        obtain ⟨_, o', t₀, t, hres, htake⟩ | ⟨⟨_, hres⟩, _⟩ := hv.of_ownShape e₁
        · cases hres
          cases htake.before.symm.trans ho
          obtain ⟨h₂, e₂, hre⟩ := exists_modifyShape htake.shape (·.setFlags index flags)
          obtain ⟨hv₂, _⟩ := htake.valid.of_modifyShape (f := (·.setFlags index flags)) htake.shape rfl rfl
            (by simp [Shape.setFlags])
            (admits_of_unshared (htake.wired.setFlags index flags) htake.unshared.isHashed) e₂
          have hnames₁ := (AllocM.tracks_ownShape r _ _ _ e₁).names (by omega) htake.valid.sound hnames
            p.map_typedRefs
          obtain ⟨_, _, hne⟩ := htake.valid.sound.shape_of_object htake.object
          have ho₂ := (hre.others r hne).trans htake.object
          rw [AllocM.lift_bind_of_ok e₂]
          exact hv₂.yields_replace ((Spares.of_rewrites hre rfl (x.plus p.refs)).names hnames₁) ho₂ hq
        · cases hres
    · exact hv.yields_replace hnames ho hq

/-- An accessor of cells that are retained can be defined. -/
theorem Valid.yields_defineAccessor {getter setter : Option Handle} (hfull : bars .tooManySlots = false)
    (hcount : bars .arithmetic = false) (hv : h.Valid x) (hr : h.Roomy)
    (hnames : h.Names (Property.accessor getter setter).typedRefs) (ho : h.body? r = some (.object o))
    (hkept : h.Retained x r) (hfuns : ∀ q ∈ (Property.accessor getter setter).refs, h.Retained x q) :
    Yields bars (fun _ => True) ((AllocM.defineAccessor r atom flags getter setter).run h) := by
  have hlive : ∀ q ∈ (Property.accessor getter setter).refs, h.contains q = true := fun q hq =>
    hv.sound.contains_of_retained (hfuns q hq)
  obtain ⟨h₁, e₁⟩ := exists_retainOption (h := h) (o := getter) fun q hq => hlive q (by
    simp [Property.refs, Option.mem_toList.mpr hq])
  obtain ⟨h₂, e₂⟩ := exists_retainOption (h := h₁) (o := setter) fun q hq => by
    rw [contains_retainOption e₁]
    exact hlive q (by simp [Property.refs, Option.mem_toList.mpr hq])
  obtain ⟨hl₂, hk, hnames₂⟩ := hv.of_retainAccessor hnames e₁ e₂
  have hsame : ∀ q, h₂.body? q = h.body? q := fun q =>
    (body?_retainOption e₂ q).trans (body?_retainOption e₁ q)
  have hframes : h₂.frames = h.frames := (frames_of_retainOption e₂).trans (frames_of_retainOption e₁)
  have hretain : h.Shifts h₂ := (HeapM.Shifting.retainOption getter _ _ _ e₁).trans
    (HeapM.Shifting.retainOption setter _ _ _ e₂)
  have hshel : Shelters x [] h h₂ := .of_bodies hframes fun q b _ hb => (hsame q).trans hb
  unfold AllocM.defineAccessor
  rw [AllocM.lift_bind_of_ok e₁, AllocM.lift_bind_of_ok e₂]
  exact hl₂.valid.yields_defineOwn hfull hcount (hretain.roomy hr) hnames₂ ((hsame r).trans ho)
    ((hshel.retained hkept).plus _)

/-! ## Assigning -/

/-- A local of a frame that is there can be assigned. -/
theorem Sound.exists_setLocal {id : FrameId} {slot : Nat} {f : Frame} {v : Value}
    (hs : h.Sound (x.plus v.ref?.toList) n) (hnames : h.Names v.typedRef?.toList)
    (hf : h.frames.get? id = some f) (hslot : slot < f.locals.size) :
    ∃ h', HeapM.setLocal id slot v h = .ok ((), h') := by
  obtain ⟨old, hold⟩ : ∃ old, f.locals[slot]? = some old := ⟨_, Array.getElem?_eq_getElem hslot⟩
  obtain ⟨h', e, _⟩ := (hs.putLocal hnames hf hold).releaseAll
  refine ⟨h', ?_⟩
  unfold HeapM.setLocal
  rw [HeapM.get_bind, hf]
  dsimp only
  rw [hold]
  exact e

/-- A captured variable can be assigned. -/
theorem Valid.exists_setVariable {v : Value} {w : Variable} (hv : h.Valid (x.plus v.ref?.toList))
    (hnames : h.Names v.typedRef?.toList) (hseat : h.Seated) (hw : h.captured? r = some w) :
    ∃ h', HeapM.setVariable r v h = .ok ((), h') := by
  unfold HeapM.setVariable
  rw [HeapM.get_bind, hw]
  cases w with
  | attached id slot =>
    obtain ⟨f, hf, hslot⟩ := hseat.frame hw
    exact hv.sound.exists_setLocal hnames hf hslot
  | detached old =>
    obtain ⟨h', e, _⟩ := (hv.sound.putVariable hnames hw).1.releaseAll
    exact ⟨h', e⟩

/-- A property is not stored the way its flags say. -/
def Misstored (h : Heap) (r : Handle) (atom : Atom) : Prop :=
  ∃ o i flags p, h.object? r = some o ∧ h.findOwn? r atom = some (i, flags) ∧
    o.properties[i]? = some p ∧ p.kind ≠ flags.kind

/-- A property of an object that is retained can be assigned to, if it is stored the way its flags say. -/
theorem Valid.yields_setProperty {v : Value} (hfull : bars .tooManySlots = false)
    (hcount : bars .arithmetic = false)
    (hodd : h.Misstored r atom → ∀ i p, bars (.notPlain i r) = false ∧ bars (.notCaptured p) = false)
    (hv : h.Valid (x.plus v.ref?.toList)) (hr : h.Roomy) (hseat : h.Seated)
    (hnames : h.Names v.typedRef?.toList) (ho : h.body? r = some (.object o))
    (hkept : h.Retained (x.plus v.ref?.toList) r) :
    Yields bars (fun _ => True) ((AllocM.setProperty r atom v).run h) := by
  unfold AllocM.setProperty
  rw [AllocM.get_bind]
  cases hfind : h.findOwn? r atom with
  | none => exact Valid.yields_defineOwn (p := .value v) hfull hcount hv hr hnames ho hkept
  | some found =>
    obtain ⟨index, flags⟩ := found
    obtain ⟨q, hq⟩ := hv.exists_property ho hfind
    dsimp only
    split
    · obtain ⟨h₁, e₁, _⟩ := hv.sound.releaseAll
      have e₁ : HeapM.freeValue v h = .ok ((), h₁) := e₁
      rw [AllocM.lift_bind_of_ok e₁]
      trivial
    · rename_i hopen
      simp only [Bool.or_eq_true, beq_iff_eq, not_or] at hopen
      have hstored : q.kind ≠ flags.kind → h.Misstored r atom := fun hne =>
        ⟨o, index, flags, q, object?_iff_body?.mpr ho, hfind, hq, hne⟩
      split
      · rename_i hkind
        simp only [beq_iff_eq] at hkind
        rw [AllocM.lift_bind_of_ok (object_of_body ho)]
        simp only [hq]
        cases q with
        | captured y =>
          obtain ⟨w, hw⟩ := hv.captured_of_property (object?_iff_body?.mpr ho) hq
          obtain ⟨h₁, e₁⟩ := hv.exists_setVariable hnames hseat hw
          dsimp only
          rw [AllocM.lift_bind_of_ok e₁]
          trivial
        | value w => exact (hodd (hstored (by rw [hkind]; nofun)) index _).2
        | accessor getter setter => exact (hodd (hstored (by rw [hkind]; nofun)) index _).2
      · rename_i hkind
        simp only [beq_iff_eq] at hkind
        refine AllocM.yields_lift_bind (R := fun _ => True) ?_ fun _ _ _ _ => trivial
        unfold HeapM.writeSlot
        rw [HeapM.bind_of_ok (object_of_body ho)]
        simp only [hq]
        cases q with
        | value old =>
          obtain ⟨h₁, e₁, hre⟩ := exists_modifyObject ho fun o =>
            { o with properties := o.properties.setIfInBounds index (.value v) }
          have hstored := Valid.setProperty (p := .value v) hv ho hq hnames e₁
          obtain ⟨h₂, e₂, _⟩ := hstored.1.sound.releaseAll
          have e₂ : HeapM.freeValue old h₁ = .ok ((), h₂) := e₂
          dsimp only
          rw [HeapM.bind_of_ok e₁, e₂]
          trivial
        | captured y => exact (hodd (hstored (Ne.symm hkind)) index (.captured y)).1
        | accessor getter setter => exact (hodd (hstored (Ne.symm hopen.2)) index (.accessor getter setter)).1

/-! ## Compaction and deletion -/

/-- Bytes are taken off the account of a cell that is there, if the account has them. -/
theorem yields_unchargeCell (hcount : bars .arithmetic = false) (hlive : h.contains r = true) (k : Nat) :
    Yields bars (fun q => ∀ s, q.2.body? s = h.body? s) (HeapM.unchargeCell r k h) := by
  obtain ⟨c, hc⟩ := contains_iff.mp hlive
  unfold HeapM.unchargeCell
  refine HeapM.yields_bind (R := fun q => q.2 = { h with used := h.used - k }) ?_ fun _ h₁ _ hh => ?_
  · unfold HeapM.uncharge
    split
    · exact hcount
    · rfl
  · obtain rfl : h₁ = { h with used := h.used - k } := hh
    have hcell : HeapM.read (·.cellAt r.index) ({ h with used := h.used - k } : Heap) = .ok (c, _) :=
      HeapM.read_apply (cellAt_eq_ok_iff.mpr (tenant?_of_cell? hc))
    rw [HeapM.bind_of_ok hcell]
    split
    · exact hcount
    · exact fun s => body?_touch _ r.index (f := fun c => { c with size := c.size - k }) (fun _ => rfl) s

/-- The layout of an object that is retained can be compacted, if nothing is stored opposite a hole. -/
theorem Valid.yields_compactProperties (hfull : bars .tooManySlots = false)
    (hcount : bars .arithmetic = false) (hheld : ¬ h.Vacant → bars .assertion = false)
    (hv : h.Valid x) (hr : h.Roomy) (ho : h.body? r = some (.object o)) (hkept : h.Retained x r) :
    Yields bars (fun _ => True) ((AllocM.compactProperties r).run h) := by
  refine AllocM.yields_bind (hv.sound.yields_ownShape hfull hcount hr ho hkept) (fun s h₁ e₁ _ => ?_)
    fun _ _ _ _ => trivial
  obtain ⟨_, o, t₀, t, hres, htake⟩ | ⟨⟨_, hres⟩, _⟩ := hv.of_ownShape e₁
  · cases hres
    obtain ⟨_, _, hne⟩ := htake.valid.sound.shape_of_object htake.object
    rw [AllocM.lift_bind_of_ok (shape_of_body htake.shape),
      AllocM.lift_bind_of_ok (object_of_body htake.object)]
    dsimp only
    rw [ask_bind]
    split
    · cases hholes : AllocM.withoutHoles (t.entries.toList.zip o.properties.toList) with
      | none =>
        refine hheld fun hvac => ?_
        have hempty : ∀ c ∈ t.entries.toList.zip o.properties.toList,
            c.1.atom.isNull = true → c.2 = .undefined := by
          rw [htake.unshared.entries]
          exact hvac r _ htake.record
        obtain ⟨left, hleft⟩ := AllocM.exists_withoutHoles hempty
        cases hholes.symm.trans hleft
      | some left =>
        obtain ⟨h₂, e₂, hre₂⟩ := exists_modifyShape htake.shape (·.compact (left.map (·.1)).toArray)
        obtain ⟨h₃, e₃, hre₃⟩ := exists_modifyObject ((hre₂.others r hne).trans htake.object) fun o =>
          { o with properties := (left.map (·.2)).toArray, capacity := t.compactCapacity }
        have hs₃ := (hre₃.others s (Ne.symm hne)).trans hre₂.after
        dsimp only
        rw [AllocM.lift_bind_of_ok e₂, AllocM.lift_bind_of_ok e₃]
        refine AllocM.yields_lift_bind (yields_unchargeCell hcount (contains_of_body? hs₃) _)
          fun _ h₄ _ hsame => ?_
        refine AllocM.yields_lift ((yields_unchargeCell hcount ?_ _).mono fun _ _ _ => trivial)
        exact contains_of_body? ((hsame r).trans hre₃.after)
    · trivial
  · cases hres

/-- An object that took a shape over is retained after both are edited, as long as it has the shape. -/
theorem TakesOver.retained {d d' : Body} (htake : TakesOver x r s o t₀ t h h₁)
    (hshel : Shelters x [r, o.shape] h h₁) (hshape : Rewrites s b b' h₁ h₂) (hobject : Rewrites r d d' h₂ h')
    (hx : h'.Counted y) (hle : ∀ q, x q ≤ y q) (hmem : s ∈ d'.refs) (hkept : h.Retained x r) :
    h'.Retained x r := by
  refine hx.retained_of_edits (s := s) hle (fun p hp => ?_) (fun p b hpr hps hb => ?_) hobject.after hmem ?_
    hkept
  · rw [hobject.calm.locals, hshape.calm.locals]
    exact hshel.locals p hp
  · rw [hobject.others p hpr, hshape.others p hps] at hb
    exact htake.bodies p b hpr hps hb
  · rw [hobject.count, hshape.count]
    exact htake.count

/-- A property of an object that is retained can be deleted.  Once it is deleted the object is still
retained, so its layout can be compacted. -/
theorem Valid.yields_deleteProperty (hfull : bars .tooManySlots = false) (hcount : bars .arithmetic = false)
    (hheld : ¬ h.Vacant → bars .assertion = false) (hv : h.Valid x) (hr : h.Roomy)
    (ho : h.body? r = some (.object o)) (hkept : h.Retained x r) :
    Yields bars (fun _ => True) ((AllocM.deleteProperty r atom).run h) := by
  unfold AllocM.deleteProperty
  rw [AllocM.get_bind]
  cases hfind : h.findOwn? r atom with
  | none => trivial
  | some found =>
    obtain ⟨index, flags⟩ := found
    obtain ⟨q, hq⟩ := hv.exists_property ho hfind
    dsimp only
    split
    · trivial
    refine AllocM.yields_bind (hv.sound.yields_ownShape hfull hcount hr ho hkept) (fun s h₁ e₁ hshel => ?_)
      fun _ _ _ _ => trivial
    obtain ⟨_, o', t₀, t, hres, htake⟩ | ⟨⟨_, hres⟩, _⟩ := hv.of_ownShape e₁
    · cases hres
      cases htake.before.symm.trans ho
      obtain ⟨_, _, hne⟩ := htake.valid.sound.shape_of_object htake.object
      rw [AllocM.lift_bind_of_ok (shape_of_body htake.shape), if_neg (by simp [htake.isLinked hfind])]
      obtain ⟨h₂, e₂, hre₂⟩ := exists_modifyShape htake.shape (·.remove index)
      obtain ⟨h₃, e₃, hre₃⟩ := exists_replaceProperty ((hre₂.others r hne).trans htake.object) hq .undefined
      obtain ⟨hv₃, _, halt⟩ := htake.of_vacating e₂ e₃
      obtain ⟨h₄, e₄, _⟩ := hv₃.sound.releaseAll
      have e₄ : HeapM.releaseProperty q h₃ = .ok ((), h₄) := e₄
      obtain ⟨hv₄, hk₄⟩ := hv₃.of_releaseProperty e₄
      have hd₂ : h₁.Drifts (s.index = ·) h₂ := HeapM.Drifts.modifyShape rfl _ _ _ e₂
      have hreplace : h₂.Shifts h₃ := HeapM.Shifting.replaceProperty r index .undefined _ _ _ e₃
      have hrelease : h₃.Shifts h₄ := HeapM.Shifting.releaseProperty q _ _ _ e₄
      have hr₄ := hrelease.roomy (hreplace.roomy (hd₂.roomy ((drifts_of_ownShape e₁).1.roomy hr)))
      have hkept₃ := htake.retained hshel hre₂ hre₃ hv₃.sound.coherent.counted (fun _ => by simp)
        (Object.shape_mem_refs _) hkept
      have hleft : Shelters x [] h₃ h₄ :=
        .of_keeps (fun _ => hrelease.undisturbed.heldByFrames_pos) hk₄ hv₄.sound
      rw [AllocM.lift_bind_of_ok e₂, AllocM.lift_bind_of_ok (shape_of_body hre₂.after),
        AllocM.lift_bind_of_ok e₃, AllocM.lift_bind_of_ok e₄]
      split
      · refine AllocM.yields_bind (AllocM.yields_tryCatch (R := fun _ => True) (S := fun _ => True) ?_
          (fun _ _ _ _ => trivial) fun _ _ _ _ => trivial) (fun _ _ _ _ => trivial) fun _ _ _ _ => trivial
        have hheld₄ : ¬ h₄.Vacant → bars .assertion = false := fun hnot =>
          hheld fun hvac => hnot (hvac.of_removal (halt.then_apart (.of_keeps hk₄)))
        exact hv₄.yields_compactProperties hfull hcount hheld₄ hr₄
          (hleft.bodies r _ List.not_mem_nil hkept₃ hre₃.after) (hleft.retained hkept₃)
      · trivial
    · cases hres

/-! ## Prototypes -/

/-- An object that is retained can be given a prototype that is. -/
theorem Valid.yields_setPrototype {proto : Option Handle} (hfull : bars .tooManySlots = false)
    (hcount : bars .arithmetic = false) (hv : h.Valid x) (hr : h.Roomy)
    (hnames : h.Names (proto.toList.map (·, .object))) (ho : h.body? r = some (.object o))
    (hkept : h.Retained x r) (hproto : ∀ q ∈ proto, h.Retained x q) :
    Yields bars (fun _ => True) ((AllocM.setPrototype r proto).run h) := by
  obtain ⟨t, ht, _⟩ := hv.sound.shape_of_object ho
  unfold AllocM.setPrototype
  rw [AllocM.get_bind]
  split
  · trivial
  rw [AllocM.lift_bind_of_ok (objectShape_of_body ho), AllocM.lift_bind_of_ok (shape_of_body ht)]
  split
  · trivial
  refine AllocM.yields_bind (hv.sound.yields_ownShape hfull hcount hr ho hkept) (fun s h₁ e₁ hshel => ?_)
    fun _ _ _ _ => trivial
  obtain ⟨_, o', t₀, t₁, hres, htake⟩ | ⟨⟨_, hres⟩, _⟩ := hv.of_ownShape e₁
  · cases hres
    cases htake.before.symm.trans ho
    have hlive : ∀ q ∈ proto, h₁.contains q = true := by
      intro q hq
      by_cases hqr : q = r
      · rw [hqr]
        exact contains_of_body? htake.object
      · obtain ⟨d, hd⟩ := hv.sound.object_of_kind
          (hnames (q, .object) (List.mem_map_of_mem (Option.mem_toList.mpr hq)))
        have hqo : q ≠ o.shape := by
          rintro rfl
          cases hd.symm.trans ht
        exact contains_of_body? (hshel.bodies q _ (by simp [hqr, hqo]) (hproto q hq) hd)
    obtain ⟨h₂, e₂⟩ := exists_retainOption hlive
    obtain ⟨hs₂, hk₂, _⟩ := htake.valid.sound.retainOption e₂
    have hev := (AllocM.tracks_ownShape r _ _ _ e₁).trans (HeapM.Shifting.retainOption proto _ _ _ e₂).evolves
    have hnames₂ := hev.names (by omega) hs₂ hnames (by simp [Function.comp_def])
    have ht₂ := (body?_retainOption e₂ s).trans htake.shape
    obtain ⟨h₃, e₃, _⟩ := exists_modifyShape ht₂ fun t => { t with proto := proto }
    obtain ⟨hv₃, _⟩ := (htake.valid.of_keeps ⟨hs₂, hk₂⟩).of_setProto ht₂ htake.unshared.isHashed hnames₂ e₃
    obtain ⟨h₄, e₄, _⟩ := hv₃.sound.releaseAll
    rw [AllocM.lift_bind_of_ok e₂, AllocM.lift_bind_of_ok (shape_of_body ht₂), AllocM.lift_bind_of_ok e₃,
      AllocM.lift_bind_of_ok e₄]
    trivial
  · cases hres

end Heap

end ObjectMemory
