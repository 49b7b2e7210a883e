import ObjectMemory.Heap.Realms
import ObjectMemory.Proofs.Agreement
import ObjectMemory.Proofs.PropertyMaps
set_option autoImplicit false

/-!
# What is seen of objects

An object is seen through its shape, and so is a realm, which has the shape of a new array.
`Heap.drawing?` is what is seen of such a cell: the record of an object, or the parts of a realm with
the layout of its arrays.  It does not show which shape lays the cell out, so it stays the same when the
cell gets a shape of its own.

`Heap.Apart rs h h'` says that what is seen in `h'` was seen in `h`, but for the cells of `rs`, and
`Heap.Alters r f h h'` that object `r` is seen as `f` made it.  A change of a layout passes unseen by
the other objects because nobody else has the shape (`Heap.Reseats`).  For the same reason it leaves the
shapes of a ledger as they were (`Heap.Steady`).
-/

namespace ObjectMemory

/-- What is seen of a cell with a layout. -/
inductive Drawing where
  | object (d : Record)
  | realm (c : Realm) (proto : Option Handle) (entries : Array Entry)

/-- An object has every name once, and new arrays of a realm have a length and no other property. -/
def Drawing.Proper : Drawing → Prop
  | object d => d.toMap.Distinct
  | realm c proto entries => proto = some c.arrayProto ∧ entries = #[⟨.length, AllocM.lengthFlags⟩]

/-- An object without properties, or a realm as it should be. -/
def Drawing.Bare : Drawing → Prop
  | object d => d.columns = []
  | realm c proto entries => proto = some c.arrayProto ∧ entries = #[⟨.length, AllocM.lengthFlags⟩]

theorem Drawing.Bare.proper {v : Drawing} (hv : v.Bare) : v.Proper := by
  cases v with
  | object d =>
    have hv : d.columns = [] := hv
    simp [Drawing.Proper, PropertyMap.Distinct, Record.toMap, hv]
  | realm c proto entries => exact hv

/-- The record of an object of shape `t`. -/
def Object.record (o : Object) (t : Shape) : Record :=
  ⟨t.proto, o.extensible, t.entries.toList.zip o.properties.toList⟩

theorem zip_modify_left {α β : Type} (f : α → α) (xs : List α) (ys : List β) (i : Nat) :
    (xs.modify i f).zip ys = (xs.zip ys).modify i fun c => (f c.1, c.2) := by
  induction xs generalizing ys i with
  | nil => simp
  | cons a xs ih =>
    cases ys with
    | nil => simp
    | cons b ys =>
      cases i with
      | zero => simp
      | succ i => simp [ih]

theorem zip_set_right {α β : Type} (xs : List α) (ys : List β) (i : Nat) (b : β) :
    xs.zip (ys.set i b) = (xs.zip ys).modify i fun c => (c.1, b) := by
  induction xs generalizing ys i with
  | nil => simp
  | cons a xs ih =>
    cases ys with
    | nil => simp
    | cons b' ys =>
      cases i with
      | zero => simp
      | succ i => simp [ih]

namespace Object

variable {o : Object} {t t' : Shape} {i : Nat} {p : Property} {atom : Atom} {flags : Flags}

theorem record_congr (hproto : t'.proto = t.proto) (hentries : t'.entries = t.entries) :
    o.record t' = o.record t := by
  unfold record
  rw [hproto, hentries]

theorem record_setProperty :
    ({ o with properties := o.properties.setIfInBounds i p } : Object).record t =
      (o.record t).edit i fun c => (c.1, p) := by
  simp only [record, Record.edit, Array.toList_setIfInBounds, zip_set_right]

theorem record_setFlags :
    o.record (t.setFlags i flags) = (o.record t).edit i fun c => (⟨c.1.atom, flags⟩, c.2) := by
  simp only [record, Record.edit, Shape.setFlags, Array.toList_modify, zip_modify_left]

theorem record_remove : o.record (t.remove i) = (o.record t).edit i fun c => (.hole, c.2) := by
  have hset : (t.remove i).entries.toList = t.entries.toList.modify i fun _ => .hole := by
    simp [Shape.remove, List.set_eq_modify]
  simp only [record, Record.edit, hset, zip_modify_left]
  rfl

theorem record_push (hsize : t.entries.size = o.properties.size)
    (hproto : t'.proto = t.proto) (hentries : t'.entries = t.entries.push ⟨atom, flags⟩) :
    ({ o with properties := o.properties.push p } : Object).record t' =
      (o.record t).append ⟨atom, flags⟩ p := by
  simp only [record, Record.append, hproto, hentries, Array.toList_push]
  rw [List.zip_append (by simpa using hsize)]
  rfl

end Object

/-- Cells of these kinds have a layout, or are one. -/
def Kind.isLaid : Kind → Bool
  | object | shape | realm => true
  | _ => false

namespace Body

/-- The shape a cell is laid out by. -/
def layout? : Body → Option Handle
  | object o => some o.shape
  | realm c => some c.arrayShape
  | _ => none

/-- What is seen of a cell laid out by `t`. -/
def draw? (b : Body) (t : Shape) : Option Drawing :=
  match b with
  | object o => some (.object (o.record t))
  | realm c => some (.realm c t.proto t.entries)
  | _ => none

variable {b : Body} {s : Handle} {t t' : Shape}

theorem mem_refs_of_layout? (hs : b.layout? = some s) : s ∈ b.refs := by
  cases b with
  | object o =>
    cases hs
    simp [refs, Object.refs]
  | realm c =>
    cases hs
    simp [refs, Realm.refs]
  | _ => cases hs

theorem isLaid_of_layout? (hs : b.layout? = some s) : b.kind.isLaid = true := by
  cases b with
  | object o => rfl
  | realm c => rfl
  | _ => cases hs

theorem ne_shape_of_layout? (hs : b.layout? = some s) : b ≠ .shape t := by
  rintro rfl
  cases hs

end Body

namespace Heap

variable {x y : Ledger} {n : Nat} {h h₁ h' : Heap} {q r s : Handle} {o : Object} {b : Body} {t t' : Shape}
  {rs ss : List Handle} {d : Record} {f g : Record → Record} {v : Drawing}

/-- What is seen of a cell. -/
def drawing? (h : Heap) (r : Handle) : Option Drawing :=
  (h.body? r).bind fun b => b.layout?.bind fun s => (h.shape? s).bind b.draw?

/-- The record of an object. -/
def record? (h : Heap) (r : Handle) : Option Record :=
  (h.object? r).bind fun o => (h.shape? o.shape).map o.record

/-- The map an object stands for. -/
def propertyMap? (h : Heap) (r : Handle) : Option PropertyMap := (h.record? r).map Record.toMap

theorem drawing?_eq_some_iff : h.drawing? r = some v ↔ ∃ b s t, h.body? r = some b ∧
    b.layout? = some s ∧ h.body? s = some (.shape t) ∧ b.draw? t = some v := by
  unfold drawing?
  constructor
  · intro hv
    obtain ⟨b, hb, hv⟩ := Option.bind_eq_some_iff.mp hv
    obtain ⟨s, hs, hv⟩ := Option.bind_eq_some_iff.mp hv
    obtain ⟨t, ht, hv⟩ := Option.bind_eq_some_iff.mp hv
    exact ⟨b, s, t, hb, hs, shape?_iff_body?.mp ht, hv⟩
  · rintro ⟨b, s, t, hb, hs, ht, hv⟩
    rw [hb, Option.bind_some, hs, Option.bind_some, shape?_iff_body?.mpr ht, Option.bind_some, hv]

theorem drawing?_of_object (ho : h.body? r = some (.object o)) (ht : h.body? o.shape = some (.shape t)) :
    h.drawing? r = some (.object (o.record t)) :=
  drawing?_eq_some_iff.mpr ⟨.object o, o.shape, t, ho, rfl, ht, rfl⟩

theorem record?_eq_some_iff : h.record? r = some d ↔ h.drawing? r = some (.object d) := by
  rw [drawing?_eq_some_iff]
  unfold record?
  constructor
  · intro hd
    obtain ⟨o, ho, hd⟩ := Option.bind_eq_some_iff.mp hd
    obtain ⟨t, ht, rfl⟩ := Option.map_eq_some_iff.mp hd
    exact ⟨.object o, o.shape, t, object?_iff_body?.mp ho, rfl, shape?_iff_body?.mp ht, rfl⟩
  · rintro ⟨b, s, t, hb, hs, ht, hd⟩
    cases b with
    | object o =>
      cases hs
      cases hd
      rw [object?_iff_body?.mpr hb, Option.bind_some, shape?_iff_body?.mpr ht]
      rfl
    | realm c => cases hd
    | _ => cases hs

/-- Nothing is seen of an empty heap. -/
theorem drawing?_new (config : Config) (r : Handle) : (new config).drawing? r = none := by
  simp [drawing?, body?, cell?, new]

theorem Sound.shape_of_kind (hs : h.Sound x n) (hk : h.kind? s = some .shape) :
    ∃ t, h.body? s = some (.shape t) := by
  obtain ⟨c, hc, hk⟩ := kind?_eq_some_iff.mp hk
  have hz := (hs.settled _ _ (tenant?_of_cell? hc)).body
  cases hb : c.body with
  | shape t => exact ⟨t, body?_eq_some_iff.mpr ⟨c, hc, hb⟩⟩
  | zombie k => simp [hb, Body.isZombie] at hz
  | _ => simp [Cell.kind, hb, Body.kind] at hk

theorem Sound.object_of_kind (hs : h.Sound x n) (hk : h.kind? r = some .object) :
    ∃ o, h.body? r = some (.object o) := by
  obtain ⟨c, hc, hk⟩ := kind?_eq_some_iff.mp hk
  have hz := (hs.settled _ _ (tenant?_of_cell? hc)).body
  cases hb : c.body with
  | object o => exact ⟨o, body?_eq_some_iff.mpr ⟨c, hc, hb⟩⟩
  | zombie k => simp [hb, Body.isZombie] at hz
  | _ => simp [Cell.kind, hb, Body.kind] at hk

/-- An object of a sound heap is seen. -/
theorem Sound.exists_record (hs : h.Sound x n) (ho : h.body? r = some (.object o)) :
    ∃ t, h.body? o.shape = some (.shape t) ∧ h.record? r = some (o.record t) := by
  obtain ⟨c, hc, hb⟩ := body?_eq_some_iff.mp ho
  have hnames := hs.coherent.counted.bodies r c hc
  have hkind : h.kind? o.shape = some .shape := by
    refine hnames (o.shape, .shape) ?_
    rw [hb]
    simp [Body.typedRefs, Object.typedRefs]
  obtain ⟨t, ht⟩ := hs.shape_of_kind hkind
  exact ⟨t, ht, record?_eq_some_iff.mpr (drawing?_of_object ho ht)⟩

/-! ## Nothing that is seen was changed -/

/-- What is seen in `h'` was seen in `h`, but for the cells of `rs`. -/
def Apart (rs : List Handle) (h h' : Heap) : Prop :=
  ∀ r v, r ∉ rs → h'.drawing? r = some v → h.drawing? r = some v

/-- No object, shape or realm was edited or made. -/
def Unedited (h h' : Heap) : Prop :=
  ∀ r b, b.kind.isLaid = true → h'.body? r = some b → h.body? r = some b

namespace Unedited

theorem trans (e₁ : Unedited h h₁) (e₂ : Unedited h₁ h') : Unedited h h' :=
  fun r b hk hb => e₁ r b hk (e₂ r b hk hb)

theorem of_keeps (hk : Keeps h h') : Unedited h h' := fun _ _ _ hb => hk.body? hb

theorem of_same (e : SameBodies h h') : Unedited h h' := fun r _ _ hb => (e.body r).symm.trans hb

/-- A cell of another kind may be made or edited. -/
theorem of_others (hafter : h'.body? s = some b)
    (hothers : ∀ q b', q ≠ s → h'.body? q = some b' → h.body? q = some b')
    (hkind : b.kind.isLaid = false) : Unedited h h' := by
  intro q b' hk hb'
  refine hothers q b' ?_ hb'
  rintro rfl
  rw [hafter] at hb'
  cases hb'
  rw [hkind] at hk
  cases hk

theorem laid (e : Unedited h h') (hl : h.Laid) : h'.Laid :=
  hl.of_bodies (fun r _ => e r _ rfl) fun s _ => e s _ rfl

end Unedited

namespace Apart

theorem refl (rs : List Handle) (h : Heap) : Apart rs h h := fun _ _ _ hv => hv

theorem trans (e₁ : Apart rs h h₁) (e₂ : Apart rs h₁ h') : Apart rs h h' :=
  fun r v hr hv => e₁ r v hr (e₂ r v hr hv)

theorem mono (e : Apart rs h h') (hsub : rs ⊆ ss) : Apart ss h h' :=
  fun r v hr hv => e r v (fun hmem => hr (hsub hmem)) hv

theorem weaken (e : Apart [] h h') (rs : List Handle) : Apart rs h h' := e.mono (List.nil_subset rs)

/-- Cells that are no shapes were edited or made. -/
theorem of_bodies (hback : ∀ q b, q ∉ rs → b.kind.isLaid = true → h'.body? q = some b → h.body? q = some b)
    (hrs : ∀ q ∈ rs, ∀ t, h'.body? q ≠ some (.shape t)) : Apart rs h h' := by
  intro q v hq hv
  obtain ⟨b, s, t, hb, hs, ht, hv⟩ := drawing?_eq_some_iff.mp hv
  have hsrs : s ∉ rs := fun hmem => hrs s hmem t ht
  exact drawing?_eq_some_iff.mpr ⟨b, s, t, hback q b hq (Body.isLaid_of_layout? hs) hb, hs,
    hback s _ hsrs rfl ht, hv⟩

theorem of_unedited (e : Unedited h h') : Apart [] h h' :=
  of_bodies (fun q b _ => e q b) (by simp)

theorem of_keeps (hk : Keeps h h') : Apart [] h h' := of_unedited (.of_keeps hk)

/-- Cell `s` was made or edited, and it is no shape. -/
theorem of_others (hafter : h'.body? s = some b)
    (hothers : ∀ q b', q ≠ s → h'.body? q = some b' → h.body? q = some b') (hkind : b.kind ≠ .shape) :
    Apart [s] h h' := by
  refine of_bodies (fun q b' hq _ hb' => hothers q b' (by simpa using hq) hb') fun q hq t ht => ?_
  rw [List.mem_singleton.mp hq, hafter] at ht
  cases ht
  exact hkind rfl

/-- A shape that the ledger has was there before, or nobody is laid out by it. -/
theorem of_shape (hs : h'.Sound (x.plus [s]) n) (ht : h'.body? s = some (.shape t))
    (hothers : ∀ q b, q ≠ s → h'.body? q = some b → h.body? q = some b)
    (hsole : h.body? s = some (.shape t) ∨ h'.refCount? s = some 1) : Apart [] h h' := by
  intro q v _ hv
  obtain ⟨b, s', t', hb, hs', ht', hv⟩ := drawing?_eq_some_iff.mp hv
  have hq : q ≠ s := by
    rintro rfl
    rw [ht] at hb
    cases hb
    exact Body.ne_shape_of_layout? hs' rfl
  refine drawing?_eq_some_iff.mpr ⟨b, s', t', hothers q b hq hb, hs', ?_, hv⟩
  by_cases hss : s' = s
  · subst hss
    rcases hsole with hold | hone
    · rw [ht] at ht'
      cases ht'
      exact hold
    · exact absurd (Body.mem_refs_of_layout? hs') (hs.coherent.counted.unheld hone hb)
  · exact hothers s' _ hss ht'

end Apart

/-- What is seen in `h'` was seen in `h`, or is new and bare. -/
def Grows (h h' : Heap) : Prop :=
  ∀ r v, h'.drawing? r = some v → h.drawing? r = some v ∨ v.Bare

theorem Grows.trans (e₁ : Grows h h₁) (e₂ : Grows h₁ h') : Grows h h' := by
  intro r v hv
  rcases e₂ r v hv with hv | hv
  · exact e₁ r v hv
  · exact .inr hv

theorem Apart.grows (e : Apart [] h h') : Grows h h' := fun r v hv => .inl (e r v (by simp) hv)

/-! ## One object was changed -/

/-- Object `r` is seen as `f` made it, and all else as it was. -/
structure Alters (r : Handle) (f : Record → Record) (h h' : Heap) : Prop where
  others : Apart [r] h h'
  here : ∀ v, h'.drawing? r = some v → ∃ d, h.drawing? r = some (.object d) ∧ v = .object (f d)

namespace Alters

theorem trans (e₁ : Alters r f h h₁) (e₂ : Alters r g h₁ h') : Alters r (g ∘ f) h h' := by
  refine ⟨e₁.others.trans e₂.others, fun v hv => ?_⟩
  obtain ⟨d₁, hd₁, rfl⟩ := e₂.here v hv
  obtain ⟨d, hd, he⟩ := e₁.here _ hd₁
  cases he
  exact ⟨d, hd, rfl⟩

theorem then_apart (e₁ : Alters r f h h₁) (e₂ : Apart [] h₁ h') : Alters r f h h' :=
  ⟨e₁.others.trans (e₂.weaken _), fun v hv => e₁.here v (e₂ r v (by simp) hv)⟩

theorem after_apart (e₁ : Apart [] h h₁) (e₂ : Alters r f h₁ h') : Alters r f h h' := by
  refine ⟨(e₁.weaken _).trans e₂.others, fun v hv => ?_⟩
  obtain ⟨d, hd, he⟩ := e₂.here v hv
  exact ⟨d, e₁ r _ (by simp) hd, he⟩

/-- An object that is seen as it was is no exception. -/
theorem apart (e : Alters r id h h') : Apart [] h h' := by
  intro q v _ hv
  by_cases hq : q = r
  · subst hq
    obtain ⟨d, hd, rfl⟩ := e.here v hv
    exact hd
  · exact e.others q v (by simpa using hq) hv

/-- An object is changed in no way that is seen. -/
theorem of_apart (e : Apart [] h h') (ho : h.body? r = some (.object o)) : Alters r id h h' := by
  refine ⟨e.weaken _, fun v hv => ?_⟩
  have hold := e r v (by simp) hv
  obtain ⟨b, s, t, hb, _, _, hdraw⟩ := drawing?_eq_some_iff.mp hold
  rw [ho] at hb
  cases hb
  cases hdraw
  exact ⟨_, hold, rfl⟩

/-- What is seen of the object afterwards. -/
theorem record (e : Alters r f h h') {d' : Record} (hd' : h'.record? r = some d') :
    ∃ d, h.record? r = some d ∧ d' = f d := by
  obtain ⟨d, hd, he⟩ := e.here _ (record?_eq_some_iff.mp hd')
  cases he
  exact ⟨d, record?_eq_some_iff.mpr hd, rfl⟩

end Alters

/-! ## Shapes of the ledger -/

/-- The shapes the ledger has are what they were. -/
def Steady (x : Ledger) (h h' : Heap) : Prop :=
  ∀ s t, 0 < x s → h'.body? s = some (.shape t) → h.body? s = some (.shape t)

namespace Steady

theorem refl (x : Ledger) (h : Heap) : Steady x h h := fun _ _ _ ht => ht

theorem trans (e₁ : Steady x h h₁) (e₂ : Steady x h₁ h') : Steady x h h' :=
  fun s t hs ht => e₁ s t hs (e₂ s t hs ht)

theorem of_plus (e : Steady (x.plus rs) h h') : Steady x h h' := by
  refine fun s t hs => e s t ?_
  simp only [Ledger.plus_apply]
  omega

theorem of_unedited (e : Unedited h h') : Steady x h h' := fun s _ _ => e s _ rfl

theorem of_keeps (hk : Keeps h h') : Steady x h h' := of_unedited (.of_keeps hk)

/-- Cell `r` was made or edited, and it is no shape. -/
theorem of_others (hafter : h'.body? r = some b)
    (hothers : ∀ q b', q ≠ r → h'.body? q = some b' → h.body? q = some b') (hkind : b.kind ≠ .shape) :
    Steady x h h' := by
  intro s t _ ht
  refine hothers s _ ?_ ht
  rintro rfl
  rw [hafter] at ht
  cases ht
  exact hkind rfl

/-- One more shape came into the ledger, which was there before or which it has the only reference to. -/
theorem of_shape (hs : h'.Sound (x.plus [s]) n) (ht : h'.body? s = some (.shape t))
    (hothers : ∀ q b, q ≠ s → h'.body? q = some b → h.body? q = some b)
    (hsole : h.body? s = some (.shape t) ∨ h'.refCount? s = some 1) : Steady x h h' := by
  intro q t' hq ht'
  by_cases hqs : q = s
  · subst hqs
    rcases hsole with hold | hone
    · rw [ht] at ht'
      cases ht'
      exact hold
    · obtain ⟨c, hc, hc1⟩ := refCount?_eq_some_iff.mp hone
      have hcount := hs.coherent.counted.counts q c hc
      simp only [Ledger.plus_apply, List.count_singleton_self] at hcount
      omega
  · exact hothers q _ hqs ht'

end Steady

/-! ## Valid heaps -/

/-- The heap is sound and its objects are laid out by their shapes. -/
structure Valid (x : Ledger) (h : Heap) : Prop where
  sound : h.Sound x 0
  laid : h.Laid

theorem Valid.of_keeps (hv : h.Valid x) (hs : h'.Sound y 0 ∧ Keeps h h') : h'.Valid y :=
  ⟨hs.1, hv.laid.of_keeps hs.2⟩

/-- The heap is valid, and all is seen as it was. -/
structure Leaves (x : Ledger) (h h' : Heap) : Prop where
  valid : h'.Valid x
  apart : Apart [] h h'

theorem Leaves.trans (e₁ : Leaves x h h₁) (e₂ : Leaves y h₁ h') : Leaves y h h' :=
  ⟨e₂.valid, e₁.apart.trans e₂.apart⟩

/-- The heap is valid, and no object, shape or realm was edited or made. -/
structure Rests (x : Ledger) (h h' : Heap) : Prop where
  valid : h'.Valid x
  unedited : Unedited h h'

namespace Rests

theorem apart (e : Rests x h h') : Apart [] h h' := .of_unedited e.unedited

theorem leaves (e : Rests x h h') : Leaves x h h' := ⟨e.valid, e.apart⟩

theorem steady (e : Rests y h h') : Steady x h h' := .of_unedited e.unedited

theorem trans (e₁ : Rests x h h₁) (e₂ : Rests y h₁ h') : Rests y h h' :=
  ⟨e₂.valid, e₁.unedited.trans e₂.unedited⟩

end Rests

theorem Valid.rests (hv : h.Valid x) (hs : h'.Sound y 0 ∧ Keeps h h') : Rests y h h' :=
  ⟨hv.of_keeps hs, .of_keeps hs.2⟩

theorem Valid.rests_refl (hv : h.Valid x) : Rests x h h := ⟨hv, fun _ _ _ hb => hb⟩

theorem Valid.rests_of_unedited (hv : h.Valid x) (hs : h'.Sound y 0) (e : Unedited h h') : Rests y h h' :=
  ⟨⟨hs, e.laid hv.laid⟩, e⟩

theorem Rests.keeps (e : Rests x h h₁) (hs : h'.Sound y 0 ∧ Keeps h₁ h') : Rests y h h' :=
  e.trans (e.valid.rests hs)

/-- Memory ran out: the heap is valid, all is seen as it was, and what holds up on `x` is all there is. -/
structure GivesUp (x : Ledger) (h h' : Heap) : Prop extends Leaves x h h' where
  agree : h.Quiet → Agree x h h'
  steady : Steady x h h'

theorem Valid.givesUp (hv : h.Valid x) (hs : h'.Sound y 0 ∧ Keeps h h')
    (hagree : h.Quiet → Agree y h h') : GivesUp y h h' := ⟨(hv.rests hs).leaves, hagree, .of_keeps hs.2⟩

theorem Valid.givesUp_refl (hv : h.Valid x) : GivesUp x h h :=
  ⟨hv.rests_refl.leaves, fun _ => (Unchanged.refl h).agree x, .refl x h⟩

theorem GivesUp.after (hleft : Apart [] h h₁) (hagree : h.Quiet → Agree x h h₁) (hsteady : Steady x h h₁)
    (e : GivesUp x h₁ h') : GivesUp x h h' :=
  ⟨⟨e.valid, hleft.trans e.apart⟩, fun hq => (hagree hq).trans (e.agree ((hagree hq).calm.quiet hq)),
    hsteady.trans e.steady⟩

theorem GivesUp.releaseAll {u : Unit} (e : GivesUp (x.plus rs) h h₁)
    (e₁ : HeapM.releaseAll rs h₁ = .ok (u, h')) : GivesUp x h h' := by
  have hs := e.valid.sound.of_releaseAll e₁
  have hl := e.valid.rests hs
  exact ⟨e.toLeaves.trans hl.leaves,
    fun hq => (e.agree hq).of_plus.trans (e.valid.sound.agree_of_releaseAll e₁),
    e.steady.of_plus.trans hl.steady⟩

/-- An operation on object `r` answered `done`, and left of the record what `op` leaves of it, perhaps
without the holes. -/
structure Performs (x : Ledger) (r : Handle) (op : Record → Bool × Record) (done : Bool) (h h' : Heap) :
    Prop where
  valid : h'.Valid x
  answer : ∃ d, h.record? r = some d ∧ (op d).1 = done
  steady : Steady x h h'
  effect : ∃ f, Alters r f h h' ∧ ∀ d, h.record? r = some d → f d = (op d).2 ∨ f d = (op d).2.squeeze

/-- Holes are not seen on the map. -/
theorem Performs.seen {op : Record → Bool × Record} {done : Bool} (e : Performs x r op done h h') :
    ∃ f, Alters r f h h' ∧ ∀ d, h.record? r = some d → (f d).toMap = (op d).2.toMap := by
  obtain ⟨f, halters, heffect⟩ := e.effect
  refine ⟨f, halters, fun d hd => ?_⟩
  rcases heffect d hd with hf | hf
  · rw [hf]
  · rw [hf, Record.toMap_squeeze]

/-- Object `r` has become `o`, of shape `t`.  No other object or shape was edited, and the shape was there
before or nobody else has it. -/
structure Reseats (x : Ledger) (r : Handle) (o : Object) (t : Shape) (h h' : Heap) : Prop where
  valid : h'.Valid x
  object : h'.body? r = some (.object o)
  shape : h'.body? o.shape = some (.shape t)
  bodies : ∀ q b, q ≠ r → q ≠ o.shape → h'.body? q = some b → h.body? q = some b
  sole : h.body? o.shape = some (.shape t) ∨ h'.refCount? o.shape = some 1

/-- What the shape of an object has found is at that place of its record. -/
theorem Valid.located {atom : Atom} {i : Nat} {flags : Flags} (hv : h.Valid x) (hd : h.record? r = some d)
    (hfind : h.findOwn? r atom = some (i, flags)) : ∃ p, d.columns[i]? = some (⟨atom, flags⟩, p) := by
  obtain ⟨o, ho, hd⟩ := Option.bind_eq_some_iff.mp hd
  obtain ⟨t, ht, rfl⟩ := Option.map_eq_some_iff.mp hd
  have hfind : t.find? atom = some (i, flags) := by
    simpa [findOwn?, findProperty?, ho, ht] using hfind
  have hentry := Shape.getElem?_of_find? hfind
  have hsize := hv.laid.fits r o t (object?_iff_body?.mp ho) (shape?_iff_body?.mp ht)
  have hlt : i < o.properties.size := by
    rw [← hsize]
    exact (Array.getElem?_eq_some_iff.mp hentry).1
  refine ⟨o.properties[i], ?_⟩
  rw [Object.record, List.getElem?_zip_eq_some]
  exact ⟨by rw [Array.getElem?_toList]; exact hentry, by simp [hlt]⟩

/-- The shape of an object tells the truth about its record. -/
theorem Valid.locates {atom : Atom} (hv : h.Valid x) (hd : h.record? r = some d)
    (hnull : atom.isNull = false) : d.Locates atom (h.findOwn? r atom) := by
  cases hfind : h.findOwn? r atom with
  | some place => exact hv.located hd hfind
  | none =>
    obtain ⟨o, ho, hd⟩ := Option.bind_eq_some_iff.mp hd
    obtain ⟨t, ht, rfl⟩ := Option.map_eq_some_iff.mp hd
    have hfind : t.find? atom = none := by
      simpa [findOwn?, findProperty?, ho, ht] using hfind
    intro c hc
    obtain ⟨i, hi⟩ := List.mem_iff_getElem?.mp (List.of_mem_zip hc).1
    rw [Array.getElem?_toList] at hi
    exact (hv.laid.shapes _ t (shape?_iff_body?.mp ht)).wired.atom_ne_of_find? hnull hfind hi

/-- The other objects do not see that one has become another. -/
theorem Reseats.apart (e : Reseats x r o t h h') : Apart [r] h h' := by
  intro q v hq hv
  have hqr : q ≠ r := by simpa using hq
  obtain ⟨b, s, t', hb, hs, ht', hv⟩ := drawing?_eq_some_iff.mp hv
  have hqs : q ≠ o.shape := by
    rintro rfl
    rw [e.shape] at hb
    cases hb
    exact Body.ne_shape_of_layout? hs rfl
  refine drawing?_eq_some_iff.mpr ⟨b, s, t', e.bodies q b hqr hqs hb, hs, ?_, hv⟩
  by_cases hso : s = o.shape
  · subst hso
    rcases e.sole with hold | hone
    · rw [e.shape] at ht'
      cases ht'
      exact hold
    · -- nobody else has the shape
      exact absurd (e.valid.sound.coherent.counted.sole hone e.object (Object.shape_mem_refs o) hb
        (Body.mem_refs_of_layout? hs)) hqr
  · refine e.bodies s _ ?_ hso ht'
    rintro rfl
    rw [e.object] at ht'
    cases ht'

/-- A shape of the ledger was not edited: the object has it too. -/
theorem Reseats.steady (e : Reseats x r o t h h') : Steady x h h' := by
  intro s t' hs ht'
  by_cases hso : s = o.shape
  · subst hso
    rcases e.sole with hold | hone
    · rw [e.shape] at ht'
      cases ht'
      exact hold
    · obtain ⟨c, hc, hc1⟩ := refCount?_eq_some_iff.mp hone
      obtain ⟨d, hd, hb⟩ := body?_eq_some_iff.mp e.object
      have hcount := e.valid.sound.coherent.counted.counts o.shape c hc
      have hpos := held_pos_of_mem_refs (h := h') (tenant?_of_cell? hd) (hb ▸ Object.shape_mem_refs o)
      simp only [held] at hcount hpos
      omega
  · refine e.bodies s _ ?_ hso ht'
    rintro rfl
    rw [e.object] at ht'
    cases ht'

/-- An object that has become another is seen as that. -/
theorem Reseats.alters (e : Reseats x r o t h h') (hd : h.record? r = some d) (hf : o.record t = f d) :
    Alters r f h h' := by
  refine ⟨e.apart, fun v hv => ⟨d, record?_eq_some_iff.mp hd, ?_⟩⟩
  rw [drawing?_of_object e.object e.shape] at hv
  cases hv
  rw [hf]

/-- An object was edited and kept its shape. -/
theorem Reseats.of_rewrites {o₀ : Object} (hv : h'.Valid x) (hre : Rewrites r (.object o₀) (.object o) h h')
    (hsame : o.shape = o₀.shape) (ht : h.body? o₀.shape = some (.shape t)) : Reseats x r o t h h' := by
  have hne : o.shape ≠ r := by
    rintro hr
    rw [← hsame, hr, hre.before] at ht
    cases ht
  refine ⟨hv, hre.after, ?_, fun q b hq _ hb => ?_, .inl (hsame ▸ ht)⟩
  · rw [hre.others _ hne, hsame, ht]
  · rw [← hre.others q hq, hb]

/-- An object was edited and kept its shape: what is seen of it follows from the edit. -/
theorem Rewrites.alters {o₀ : Object} (hre : Rewrites r (.object o₀) (.object o) h h') (hs : h.Sound y n)
    (hv : h'.Valid x) (hsame : o.shape = o₀.shape) (hf : ∀ t, o.record t = f (o₀.record t)) :
    Alters r f h h' := by
  obtain ⟨t, ht, hd⟩ := hs.exists_record hre.before
  exact (Reseats.of_rewrites hv hre hsame ht).alters hd (hf t)

/-- No shape was edited where an object was. -/
theorem Rewrites.steady {b b' : Body} (hre : Rewrites r b b' h h') (hkind : b'.kind ≠ .shape) : Steady x h h' :=
  .of_others hre.after (fun q b hq hb => by rw [← hre.others q hq, hb]) hkind

/-- The shape of an object was edited, which nobody else has. -/
theorem Reseats.of_reshapes (hv : h'.Valid x) (ho : h.body? r = some (.object o))
    (hone : h.refCount? o.shape = some 1) (hre : Reshapes o.shape t t' h h') : Reseats x r o t' h h' := by
  have hne : r ≠ o.shape := by
    intro hr
    have hb := hre.before
    rw [← hr, ho] at hb
    cases hb
  refine ⟨hv, ?_, hre.after, fun q b _ hq hb => ?_, .inr ((hre.count _).trans hone)⟩
  · rw [hre.others r hne, ho]
  · rw [← hre.others q hq, hb]

end Heap

end ObjectMemory
