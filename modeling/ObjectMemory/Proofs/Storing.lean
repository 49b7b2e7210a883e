import ObjectMemory.Proofs.Records
set_option autoImplicit false

/-!
# Reading and storing values

A value that is stored passes from the ledger into an object, a local or a captured variable, and what
was there before passes back, to be given up.  A value that is read is copied, which the ledger owns.

`Heap.Valid x h` is the state between operations: the heap is sound with `x` held outside, no bytes are
set apart, every object has one property per entry of its shape, and every shape is a proper layout.
-/

namespace ObjectMemory

/-! ## References of sequences -/

/-- Replacing an element of a list replaces what it refers to. -/
theorem count_flatMap_set {α : Type} (f : α → List Handle) {xs : List α} {i : Nat} {a : α} (b : α)
    (ha : xs[i]? = some a) (r : Handle) :
    ((xs.set i b).flatMap f).count r + (f a).count r = (xs.flatMap f).count r + (f b).count r := by
  induction xs generalizing i with
  | nil => simp at ha
  | cons c rest ih =>
    cases i with
    | zero =>
      simp only [List.getElem?_cons_zero, Option.some.injEq] at ha
      subst ha
      simp only [List.set_cons_zero, List.flatMap_cons, List.count_append]
      omega
    | succ i =>
      have hrest := ih (i := i) (by simpa using ha)
      simp only [List.set_cons_succ, List.flatMap_cons, List.count_append]
      omega

theorem filterMap_ref? (vs : List Value) :
    vs.filterMap Value.ref? = vs.flatMap fun v => v.ref?.toList := by
  induction vs with
  | nil => rfl
  | cons v rest ih => cases hv : v.ref? <;> simp [hv, ih]

/-- Replacing a value of a list replaces what it refers to. -/
theorem count_filterMap_set {vs : List Value} {i : Nat} {old : Value} (v : Value)
    (hold : vs[i]? = some old) (r : Handle) :
    ((vs.set i v).filterMap Value.ref?).count r + old.ref?.toList.count r =
      (vs.filterMap Value.ref?).count r + v.ref?.toList.count r := by
  rw [filterMap_ref?, filterMap_ref?]
  exact count_flatMap_set _ v hold r

theorem mem_filterMap_typedRef? {vs : List Value} {p : Handle × Kind} :
    p ∈ vs.filterMap Value.typedRef? ↔ ∃ v ∈ vs, p ∈ v.typedRef?.toList := by
  simp [List.mem_filterMap, Option.mem_toList]

namespace Object

variable {o : Object} {i : Nat} {p q : Property}

theorem count_refs_set (hq : o.properties[i]? = some q) (r : Handle) :
    ({ o with properties := o.properties.setIfInBounds i p } : Object).refs.count r + q.refs.count r =
      o.refs.count r + p.refs.count r := by
  have hget : o.properties.toList[i]? = some q := by rw [Array.getElem?_toList]; exact hq
  have hset := count_flatMap_set Property.refs p hget r
  simp only [refs, Array.toList_setIfInBounds, List.count_append]
  omega

theorem typedRefs_set {a : Handle × Kind}
    (ha : a ∈ ({ o with properties := o.properties.setIfInBounds i p } : Object).typedRefs) :
    a ∈ o.typedRefs ∨ a ∈ p.typedRefs := by
  simp only [typedRefs, Array.toList_setIfInBounds, List.mem_append, List.mem_flatMap] at ha ⊢
  rcases ha with (⟨b, hb, ha⟩ | ha) | ha
  · rcases List.mem_or_eq_of_mem_set hb with hb | rfl
    · exact .inl (.inl (.inl ⟨b, hb, ha⟩))
    · exact .inr ha
  · exact .inl (.inl (.inr ha))
  · exact .inl (.inr ha)

end Object

namespace Heap

variable {x y : Ledger} {n : Nat} {h h₁ h' : Heap} {r s : Handle} {c : Cell} {o : Object} {u : Unit}
  {id : FrameId} {f : Frame}

/-! ## Objects -/

theorem Updates.modifyObjectAt (hc : h.cell? r = some c) (hb : c.body = .object o) (g : Object → Object) :
    Updates r (some { c with body := .object (g o) }) h (h.modifyObjectAt r.index g) := by
  have hu : Updates r _ h (h.modifyObjectAt r.index g) := Updates.modifyCell hc _
  simp only [hb] at hu
  exact hu

/-- Editing an object leaves the shapes. -/
theorem steady_of_modifyObject {g : Object → Object} (e : HeapM.modifyObject r g h = .ok (u, h')) :
    Steady x h h' := by
  obtain ⟨o, c, hc, hb, rfl⟩ := modifyObject_eq_ok e
  exact (Rewrites.of_updates (Updates.modifyObjectAt hc hb g) hc hb (.modifyCell _ _ _)).steady nofun

/-- An object may be edited: what it referred to passes to the ledger, and what it refers to then comes
from there. -/
theorem Sound.of_modifyObject {g : Object → Object} (hs : h.Sound x n)
    (hb : h.body? r = some (.object o)) (hnames : h.Names (Body.object (g o)).typedRefs)
    (hbal : ∀ q, y q + (g o).refs.count q = x q + o.refs.count q)
    (e : HeapM.modifyObject r g h = .ok (u, h')) :
    h'.Sound y n ∧ Rewrites r (.object o) (.object (g o)) h h' := by
  obtain ⟨o', c, hc, hcb, rfl⟩ := modifyObject_eq_ok e
  have hb' := body?_eq_some_iff.mpr ⟨c, hc, hcb⟩
  rw [hb] at hb'
  cases hb'
  refine ⟨?_, .of_updates (Updates.modifyObjectAt hc hcb g) hc hcb (.modifyCell _ _ _)⟩
  refine hs.rebody hc (by simp [hcb, Body.kind]) (by simp [hcb, Body.isZombie]) (by simp [hcb, Body.frame?])
    (by simp [hcb, Body.hash?]) (by simpa only [hcb] using hnames) ?_ fun q => ?_
  · simp only [hcb]
    exact Body.rested_of_kind (by simp [Body.kind])
  · simp only [hcb]
    exact hbal q

/-- An edited object has to fit its shape. -/
theorem Laid.of_object {b : Body} {o' : Object} (hl : h.Laid) (e : Rewrites r b (.object o') h h')
    (hfit : ∀ t, h'.body? o'.shape = some (.shape t) → t.entries.size = o'.properties.size) :
    h'.Laid := by
  have hshapes : ∀ s t, h'.body? s = some (.shape t) → h.body? s = some (.shape t) := by
    intro s t ht
    rw [← e.others s, ht]
    rintro rfl
    rw [e.after] at ht
    cases ht
  refine ⟨fun q o t ho ht => ?_, fun s t ht => (hl.shapes s t (hshapes s t ht)).mono fun q t' _ => hshapes q t'⟩
  by_cases hq : q = r
  · subst hq
    rw [e.after] at ho
    cases ho
    exact hfit t ht
  · exact hl.fits q o t (by rw [← e.others q hq, ho]) (hshapes _ t ht)

/-- An object may be edited as long as its layout stays. -/
theorem Valid.of_modifyObject {g : Object → Object} (hv : h.Valid x) (hb : h.body? r = some (.object o))
    (hshape : (g o).shape = o.shape) (hsize : (g o).properties.size = o.properties.size)
    (hnames : h.Names (Body.object (g o)).typedRefs)
    (hbal : ∀ q, y q + (g o).refs.count q = x q + o.refs.count q)
    (e : HeapM.modifyObject r g h = .ok (u, h')) :
    h'.Valid y ∧ Rewrites r (.object o) (.object (g o)) h h' := by
  obtain ⟨hs', hre⟩ := hv.sound.of_modifyObject hb hnames hbal e
  refine ⟨⟨hs', hv.laid.of_object hre fun t ht => ?_⟩, hre⟩
  have hne : (g o).shape ≠ r := by
    intro hr
    rw [hr, hre.after] at ht
    cases ht
  rw [hre.others _ hne, hshape] at ht
  rw [hsize]
  exact hv.laid.fits r o t hb ht

/-- The references of an object of a sound heap. -/
theorem Sound.names (hs : h.Sound x n) {b : Body} (hb : h.body? r = some b) : h.Names b.typedRefs := by
  obtain ⟨c, hc, rfl⟩ := body?_eq_some_iff.mp hb
  exact hs.coherent.counted.bodies r c hc

/-- A property of the ledger takes the place of another, which the ledger has then. -/
theorem Valid.setProperty {i : Nat} {p q : Property} (hv : h.Valid (x.plus p.refs))
    (hb : h.body? r = some (.object o)) (hq : o.properties[i]? = some q) (hnames : h.Names p.typedRefs)
    (e : HeapM.modifyObject r (fun o => { o with properties := o.properties.setIfInBounds i p }) h =
      .ok (u, h')) : h'.Valid (x.plus q.refs) ∧ Alters r (·.edit i fun c => (c.1, p)) h h' := by
  have hedit := hv.of_modifyObject (y := x.plus q.refs) hb rfl (by simp) (fun a ha => ?_) (fun s => ?_) e
  · exact ⟨hedit.1, hedit.2.alters hv.sound hedit.1 rfl fun _ => Object.record_setProperty⟩
  · rcases Object.typedRefs_set ha with ha | ha
    · exact hv.sound.names hb a ha
    · exact hnames a ha
  · have := Object.count_refs_set (p := p) hq s
    simp only [Ledger.plus_apply]
    omega

theorem Valid.of_replaceProperty {i : Nat} {p q : Property} (hv : h.Valid (x.plus p.refs))
    (hnames : h.Names p.typedRefs) (e : HeapM.replaceProperty r i p h = .ok (q, h')) :
    h'.Valid (x.plus q.refs) ∧ Alters r (·.edit i fun c => (c.1, p)) h h' := by
  obtain ⟨o, _, e₁, e⟩ := HeapM.bind_eq_ok e
  obtain ⟨hb, rfl⟩ := object_eq_ok e₁
  cases hq : o.properties[i]? with
  | none =>
    rw [hq] at e
    cases e
  | some old =>
    rw [hq] at e
    obtain ⟨_, h₁, e₂, e⟩ := HeapM.bind_eq_ok e
    obtain ⟨rfl, rfl⟩ := HeapM.pure_eq_ok e
    exact hv.setProperty hb hq hnames e₂

theorem steady_of_replaceProperty {i : Nat} {p q : Property}
    (e : HeapM.replaceProperty r i p h = .ok (q, h')) : Steady x h h' := by
  obtain ⟨o, _, e₁, e⟩ := HeapM.bind_eq_ok e
  obtain ⟨_, rfl⟩ := object_eq_ok e₁
  cases hq : o.properties[i]? with
  | none =>
    rw [hq] at e
    cases e
  | some old =>
    rw [hq] at e
    obtain ⟨_, h₁, e₂, e⟩ := HeapM.bind_eq_ok e
    obtain ⟨_, rfl⟩ := HeapM.pure_eq_ok e
    exact steady_of_modifyObject e₂

theorem Valid.of_releaseProperty {p : Property} (hv : h.Valid (x.plus p.refs))
    (e : HeapM.releaseProperty p h = .ok (u, h')) : h'.Valid x ∧ Keeps h h' := by
  obtain ⟨hs', hk⟩ := hv.sound.of_releaseAll e
  exact ⟨hv.of_keeps ⟨hs', hk⟩, hk⟩

theorem Valid.of_freeValue {v : Value} (hv : h.Valid (x.plus v.ref?.toList))
    (e : HeapM.freeValue v h = .ok (u, h')) : h'.Valid x ∧ Keeps h h' := by
  obtain ⟨hs', hk⟩ := hv.sound.of_freeValue e
  exact ⟨hv.of_keeps ⟨hs', hk⟩, hk⟩

/-- A value is put into a slot, and the old one given up. -/
theorem Valid.of_writeSlot {i : Nat} {v : Value} (hv : h.Valid (x.plus v.ref?.toList))
    (hnames : h.Names v.typedRef?.toList) (e : HeapM.writeSlot r i v h = .ok (u, h')) :
    h'.Valid x ∧ Steady x h h' ∧ Alters r (·.edit i fun c => (c.1, .value v)) h h' := by
  obtain ⟨o, _, e₁, e⟩ := HeapM.bind_eq_ok e
  obtain ⟨hb, rfl⟩ := object_eq_ok e₁
  cases hq : o.properties[i]? with
  | none =>
    rw [hq] at e
    cases e
  | some q =>
    rw [hq] at e
    cases q with
    | value old =>
      obtain ⟨_, h₁, e₂, e⟩ := HeapM.bind_eq_ok e
      obtain ⟨hv₁, halt⟩ := Valid.setProperty (p := .value v) hv hb hq hnames e₂
      obtain ⟨hv', hk⟩ := hv₁.of_freeValue e
      exact ⟨hv', (steady_of_modifyObject e₂).trans (.of_keeps hk), halt.then_apart (.of_keeps hk)⟩
    | accessor getter setter => cases e
    | captured s => cases e

/-- Only a plain value is written over. -/
theorem plain_of_writeSlot {i : Nat} {v : Value} {d : Record} {c : Entry × Property}
    (e : HeapM.writeSlot r i v h = .ok (u, h')) (hd : h.record? r = some d)
    (hc : d.columns[i]? = some c) : ∃ old, c.2 = .value old := by
  obtain ⟨o, ho, hd⟩ := Option.bind_eq_some_iff.mp hd
  obtain ⟨t, _, rfl⟩ := Option.map_eq_some_iff.mp hd
  obtain ⟨o', _, e₁, e⟩ := HeapM.bind_eq_ok e
  obtain ⟨hb, rfl⟩ := object_eq_ok e₁
  rw [object?_iff_body?.mp ho] at hb
  cases hb
  have hslot : o.properties[i]? = some c.2 := by
    have hget := (List.getElem?_zip_eq_some.mp hc).2
    rwa [Array.getElem?_toList] at hget
  rw [hslot] at e
  cases hc2 : c.2 with
  | value old => exact ⟨old, rfl⟩
  | accessor getter setter =>
    rw [hc2] at e
    cases e
  | captured s =>
    rw [hc2] at e
    cases e

theorem Valid.of_preventExtensions (hv : h.Valid x) (e : HeapM.preventExtensions r h = .ok (u, h')) :
    h'.Valid x ∧ Alters r (fun d => { d with extensible := false }) h h' := by
  obtain ⟨o, c, hc, hcb, _⟩ := modifyObject_eq_ok e
  have hb := body?_eq_some_iff.mpr ⟨c, hc, hcb⟩
  have hnames : h.Names (Body.object o).typedRefs := hv.sound.names hb
  obtain ⟨hv', hre⟩ := hv.of_modifyObject hb rfl rfl hnames (fun _ => rfl) e
  exact ⟨hv', hre.alters hv.sound hv' rfl fun _ => rfl⟩

/-! ## Locals -/

/-- Frames may change in their locals. -/
theorem Bound.reframe {g : Frame → Frame} (hb : h.Bound) (i : Nat)
    (hopen : ∀ f, (g f).openVariables = f.openVariables) :
    ({ h with frames := h.frames.modify i g } : Heap).Bound := by
  have hget : ∀ j f', (h.frames.modify i g).get? j = some f' → ∃ f, h.frames.get? j = some f ∧
      f'.openVariables = f.openVariables := by
    intro j f' hf'
    rw [FrameTable.get?_modify] at hf'
    split at hf'
    · obtain ⟨f, hf, rfl⟩ := Option.map_eq_some_iff.mp hf'
      exact ⟨f, hf, hopen f⟩
    · exact ⟨f', hf', rfl⟩
  refine ⟨hb.tidy.modify i g, fun r j hr => ?_, fun j f' hf' => ?_, fun j f' hf' r hr => ?_⟩
  · obtain ⟨f, hf, hmem⟩ := hb.listed r j hr
    dsimp only
    rw [FrameTable.get?_modify, hf]
    split
    · exact ⟨g f, rfl, by rw [hopen]; exact hmem⟩
    · exact ⟨f, rfl, hmem⟩
  · obtain ⟨f, hf, he⟩ := hget j f' hf'
    rw [he]
    exact hb.nodup j f hf
  · obtain ⟨f, hf, he⟩ := hget j f' hf'
    rw [he] at hr
    exact hb.attached j f hf r hr

/-- The locals of a frame may be edited: what they referred to passes to the ledger, and what they refer
to then comes from there. -/
theorem Sound.reframe {g : Frame → Frame} (hs : h.Sound x n) (hf : h.frames.get? id = some f)
    (hopen : ∀ f, (g f).openVariables = f.openVariables) (hsize : ∀ f, (g f).size = f.size)
    (hnames : h.Names (g f).typedRefs) (hbal : ∀ r, y r + (g f).refs.count r = x r + f.refs.count r) :
    ({ h with frames := h.frames.modify id.index g } : Heap).Sound y n := by
  have hx := hs.coherent
  refine ⟨⟨?_, hx.bound.reframe id.index hopen, hx.tabled.of_same (fun _ => rfl) rfl,
    ⟨?_, hx.accounted.cells⟩, hx.rested⟩, hs.idle, hs.noneWaiting, hs.settled⟩
  · refine hx.counted.of_same (.of_slots rfl) (fun r => ?_) (fun r hr => ?_) (fun j f' hf' => ?_)
      hx.counted.roots
    · have htotal := FrameTable.total_modify (fun f => f.refs.count r) g hf
      have hr := hbal r
      unfold heldByFrames
      dsimp only
      omega
    · by_cases hxr : 0 < x r
      · exact hx.counted.owned r hxr
      · have hr' := hbal r
        have hmem : r ∈ f.refs := List.count_pos_iff.mp (by omega)
        obtain ⟨k, hk⟩ := Frame.typed_of_mem_refs hmem
        exact (hx.counted.locals id f hf).contains hk
    · dsimp only at hf'
      rw [FrameTable.get?_modify] at hf'
      split at hf'
      · rename_i hi
        obtain ⟨f₀, hf₀, rfl⟩ := Option.map_eq_some_iff.mp hf'
        have hj := FrameTable.id_eq_of_get? hf hf₀ hi.symm
        subst hj
        rw [hf] at hf₀
        cases hf₀
        exact hnames
      · exact hx.counted.locals j f' hf'
  · have htotal := FrameTable.total_modify (·.size) g hf
    have hused := hx.accounted.used
    have hcells : ({ h with frames := h.frames.modify id.index g } : Heap).total (·.size) =
        h.total (·.size) := rfl
    rw [hsize] at htotal
    dsimp only at htotal ⊢
    omega

/-- A value of the ledger takes the place of a local, which the ledger has then. -/
theorem Sound.putLocal {f : Frame} {slot : Nat} {v old : Value} (hs : h.Sound (x.plus v.ref?.toList) n)
    (hnames : h.Names v.typedRef?.toList) (hf : h.frames.get? id = some f) (hold : f.locals[slot]? = some old) :
    ({ h with frames := h.frames.modify id.index fun f =>
      { f with locals := f.locals.setIfInBounds slot v } } : Heap).Sound (x.plus old.ref?.toList) n := by
  have hlist : f.locals.toList[slot]? = some old := by rw [Array.getElem?_toList]; exact hold
  refine Sound.reframe (y := x.plus old.ref?.toList)
    (g := fun f => { f with locals := f.locals.setIfInBounds slot v }) hs hf (fun _ => rfl)
    (fun _ => rfl) (fun p hp => ?_) fun r => ?_
  · simp only [Frame.typedRefs, Array.toList_setIfInBounds] at hp
    obtain ⟨w, hw, hpw⟩ := mem_filterMap_typedRef?.mp hp
    rcases List.mem_or_eq_of_mem_set hw with hw | rfl
    · exact hs.coherent.counted.locals id f hf p (mem_filterMap_typedRef?.mpr ⟨w, hw, hpw⟩)
    · exact hnames p hpw
  · have hset := count_filterMap_set v hlist r
    simp only [Frame.refs, Array.toList_setIfInBounds, Ledger.plus_apply]
    omega

/-- A value is put into a local, and the old one given up. -/
theorem Valid.of_setLocal {slot : Nat} {v : Value} (hv : h.Valid (x.plus v.ref?.toList))
    (hnames : h.Names v.typedRef?.toList) (e : HeapM.setLocal id slot v h = .ok (u, h')) :
    h'.Valid x ∧ Keeps h h' ∧ ∃ f, h'.frames.get? id = some f ∧ f.locals[slot]? = some v := by
  obtain ⟨f, old, hf, hold, e⟩ := setLocal_eq_ok e
  have hs₁ := hv.sound.putLocal hnames hf hold
  obtain ⟨hs', hk⟩ := hs₁.of_freeValue e
  have hkeeps : Keeps h h' := Keeps.trans (.of_slots rfl) hk
  refine ⟨hv.of_keeps ⟨hs', hkeeps⟩, hkeeps, ?_⟩
  have hslot : slot < f.locals.size := (Array.getElem?_eq_some_iff.mp hold).1
  have hframe := (hs₁.calm_of_releaseAll e).frames id
  rw [FrameTable.get?_modify, if_pos rfl, hf] at hframe
  obtain ⟨f', hf', he⟩ := Option.map_eq_some_iff.mp hframe
  refine ⟨f', hf', ?_⟩
  rw [(Prod.mk.inj he).1]
  simp [hslot]

/-! ## Captured variables -/

/-- A value of the ledger takes the place of that of a detached variable, which the ledger has then. -/
theorem Sound.putVariable {v old : Value} (hs : h.Sound (x.plus v.ref?.toList) n)
    (hnames : h.Names v.typedRef?.toList) (hvar : h.captured? r = some (.detached old)) :
    (h.modifyBody r.index fun _ => .captured (.detached v)).Sound (x.plus old.ref?.toList) n ∧
      Rewrites r (.captured (.detached old)) (.captured (.detached v)) h
        (h.modifyBody r.index fun _ => .captured (.detached v)) := by
  obtain ⟨c, hc, hb⟩ := captured?_eq_some_iff.mp hvar
  have hu : Updates r (some { c with body := .captured (.detached v) }) h
      (h.modifyBody r.index fun _ => .captured (.detached v)) :=
    .modifyCell hc fun c => { c with body := .captured (.detached v) }
  refine ⟨?_, .of_updates hu hc hb (.modifyCell _ _ _)⟩
  refine hs.rebody hc (by rw [hb]; rfl) rfl (by rw [hb]; rfl) (by rw [hb]; rfl) hnames
    (Body.rested_of_kind (by simp [Body.kind])) fun q => ?_
  rw [hb]
  simp only [Body.refs, Variable.refs, Ledger.plus_apply]
  omega

/-- A value is put into a captured variable, and the old one given up. -/
theorem Valid.of_setVariable {v : Value} (hv : h.Valid (x.plus v.ref?.toList))
    (hnames : h.Names v.typedRef?.toList) (e : HeapM.setVariable r v h = .ok (u, h')) :
    Rests x h h' ∧ (h'.contains r = true → h'.variableValue r = .ok v) := by
  obtain ⟨id, slot, hvar, e⟩ | ⟨old, hvar, e⟩ := setVariable_eq_ok e
  · obtain ⟨hv', hk, f, hf, hlocal⟩ := hv.of_setLocal hnames e
    refine ⟨⟨hv', .of_keeps hk⟩, fun hlive => ?_⟩
    have hvar' := captured?_iff_body?.mpr (hk.body_of_contains hlive (captured?_iff_body?.mp hvar))
    simp only [variableValue, hvar', hf, hlocal]
  · obtain ⟨hs₁, hre⟩ := hv.sound.putVariable hnames hvar
    obtain ⟨hs', hk⟩ := hs₁.of_freeValue e
    have hun : Unedited h _ := .of_others hre.after (fun q b' hq hb' => by rw [← hre.others q hq, hb']) rfl
    refine ⟨(hv.rests_of_unedited hs₁ hun).keeps ⟨hs', hk⟩, fun hlive => ?_⟩
    have hvar' := captured?_iff_body?.mpr (hk.body_of_contains hlive hre.after)
    simp only [variableValue, hvar']

/-! ## Reading -/

theorem Valid.of_dupValue {v v' : Value} (hv : h.Valid x) (e : HeapM.dupValue v h = .ok (v', h')) :
    Rests (x.plus v'.ref?.toList) h h' := by
  obtain ⟨rfl, hs', hk, _⟩ := hv.sound.dupValue e
  exact hv.rests ⟨hs', hk⟩

theorem Valid.of_getVariable {v : Value} (hv : h.Valid x) (e : HeapM.getVariable r h = .ok (v, h')) :
    Rests (x.plus v.ref?.toList) h h' := by
  obtain ⟨w, _, e₁, e⟩ := HeapM.bind_eq_ok e
  obtain ⟨_, he⟩ := HeapM.read_eq_ok e₁
  rw [he] at e
  exact hv.of_dupValue e

/-- What a counted read gives is the ledger's. -/
theorem Valid.of_readSlot {i : Nat} {v : Option Value} (hv : h.Valid x)
    (e : HeapM.readSlot r i h = .ok (v, h')) : Rests (x.plus (v.bind Value.ref?).toList) h h' := by
  unfold HeapM.readSlot at e
  rw [HeapM.get_bind] at e
  cases ho : h.object? r with
  | none =>
    rw [ho] at e
    obtain ⟨rfl, rfl⟩ := HeapM.pure_eq_ok e
    simpa using hv.rests_refl
  | some o =>
    rw [ho] at e
    dsimp only at e
    cases hp : o.properties[i]? with
    | none =>
      rw [hp] at e
      obtain ⟨rfl, rfl⟩ := HeapM.pure_eq_ok e
      simpa using hv.rests_refl
    | some p =>
      rw [hp] at e
      cases p with
      | value w =>
        obtain ⟨v', h₁, e₁, e⟩ := HeapM.bind_eq_ok e
        obtain ⟨rfl, rfl⟩ := HeapM.pure_eq_ok e
        exact hv.of_dupValue e₁
      | captured s =>
        obtain ⟨v', h₁, e₁, e⟩ := HeapM.bind_eq_ok e
        obtain ⟨rfl, rfl⟩ := HeapM.pure_eq_ok e
        exact hv.of_getVariable e₁
      | accessor getter setter =>
        obtain ⟨rfl, rfl⟩ := HeapM.pure_eq_ok e
        simpa using hv.rests_refl

theorem Valid.of_getProperty {atom : Atom} {v : Value} (hv : h.Valid x)
    (e : HeapM.getProperty r atom h = .ok (v, h')) : Rests (x.plus v.ref?.toList) h h' := by
  unfold HeapM.getProperty at e
  rw [HeapM.get_bind] at e
  cases hl : h.lookup? r atom with
  | none =>
    rw [hl] at e
    obtain ⟨rfl, rfl⟩ := HeapM.pure_eq_ok e
    simpa [Value.ref?] using hv.rests_refl
  | some l =>
    rw [hl] at e
    obtain ⟨w, h₁, e₁, e⟩ := HeapM.bind_eq_ok e
    obtain ⟨rfl, rfl⟩ := HeapM.pure_eq_ok e
    have hread := hv.of_readSlot e₁
    cases w <;> simpa [Value.ref?] using hread

theorem Valid.of_getLocal {slot : Nat} {v : Option Value} (hv : h.Valid x)
    (e : HeapM.getLocal id slot h = .ok (v, h')) : Rests (x.plus (v.bind Value.ref?).toList) h h' := by
  unfold HeapM.getLocal at e
  rw [HeapM.get_bind] at e
  cases hw : (h.frames.get? id).bind fun f => f.locals[slot]? with
  | none =>
    rw [hw] at e
    obtain ⟨rfl, rfl⟩ := HeapM.pure_eq_ok e
    simpa using hv.rests_refl
  | some w =>
    rw [hw] at e
    obtain ⟨v', h₁, e₁, e⟩ := HeapM.bind_eq_ok e
    obtain ⟨rfl, rfl⟩ := HeapM.pure_eq_ok e
    exact hv.of_dupValue e₁

end Heap

end ObjectMemory
