import ObjectMemory.Proofs.Prototypes
set_option autoImplicit false

/-!
# Arrays and realms

The length of an array is written over whatever its slot held, without giving that up: of a new array
this is nothing, but a client may have stored a reference there.  Such a reference stays counted, and
the ledger keeps it for good.

A realm is made in steps.  Each step hands on the cells made so far (`Heap.Made`), and if memory runs
out they are given up.
-/

namespace ObjectMemory

/-- The objects a realm starts with, each with its prototype. -/
def Realm.intrinsics (c : Realm) : List (Handle × Option Handle) :=
  [(c.objectProto, none), (c.functionProto, some c.objectProto), (c.arrayProto, some c.objectProto),
    (c.globalObject, some c.objectProto)]

namespace Heap

variable {x y : Ledger} {n : Nat} {h h₁ h₂ h' : Heap} {r s : Handle} {o : Object} {u : Unit}
  {ps : List (Handle × Kind)}

/-! ## Arrays -/

/-- The record of an array after its length was written, if it has one. -/
def writeLength (h : Heap) (r : Handle) (k : Nat) (d : Record) : Record :=
  (h.findOwn? r .length).elim d fun place => d.edit place.1 fun c => (c.1, .value (.smi (Int32.ofNat k)))

/-- The references in the slot that the length of an array is written into. -/
def lengthRefs (h : Heap) (r : Handle) : List Handle :=
  ((h.findOwn? r .length).bind fun place => (h.object? r).bind fun o => o.properties[place.1]?).elim []
    Property.refs

theorem lengthRefs_eq (ho : h.body? r = some (.object o)) :
    h.lengthRefs r =
      ((h.findOwn? r .length).bind fun place => o.properties[place.1]?).elim [] Property.refs := by
  unfold lengthRefs
  rw [object?_iff_body?.mpr ho]
  rfl

/-- An object whose properties hold no references has none in its length slot. -/
theorem lengthRefs_of_bare (ho : h.body? r = some (.object o))
    (hbare : ∀ q ∈ o.properties.toList, q.refs = []) : h.lengthRefs r = [] := by
  rw [lengthRefs_eq ho]
  cases hq : (h.findOwn? r .length).bind fun place => o.properties[place.1]? with
  | none => rfl
  | some q =>
    obtain ⟨place, _, hq⟩ := Option.bind_eq_some_iff.mp hq
    exact hbare q (Array.mem_toList_iff.mpr (Array.mem_of_getElem? hq))

/-- What the length is written over stays with the ledger. -/
theorem Valid.of_setLength {k : Nat} (hv : h.Valid x) (e : HeapM.setLength r k h = .ok (u, h')) :
    h'.Valid (x.plus (h.lengthRefs r)) ∧ Alters r (h.writeLength r k) h h' := by
  obtain ⟨s, _, e₁, e⟩ := HeapM.bind_eq_ok e
  obtain ⟨o, ho, rfl, rfl⟩ := objectShape_eq_ok e₁
  rw [HeapM.get_bind] at e
  rw [lengthRefs_eq ho]
  unfold writeLength
  rw [findOwn?_of_object ho]
  cases hfind : h.findProperty? o.shape .length with
  | none =>
    rw [hfind] at e
    obtain ⟨_, rfl⟩ := HeapM.pure_eq_ok e
    exact ⟨by simpa using hv, .of_apart (.refl [] _) ho⟩
  | some found =>
    rw [hfind] at e
    obtain ⟨o', _, e₂, e⟩ := HeapM.bind_eq_ok e
    obtain ⟨ho', rfl⟩ := object_eq_ok e₂
    rw [ho] at ho'
    cases ho'
    split at e
    · rename_i hlt
      have hnone : (Property.value (.smi (Int32.ofNat k))).refs = [] := rfl
      rw [Option.bind_some, Array.getElem?_eq_getElem hlt]
      exact Valid.setProperty (x := x) (p := .value (.smi (Int32.ofNat k)))
        (by rw [hnone, Ledger.plus_nil]; exact hv) ho (Array.getElem?_eq_getElem hlt)
        (fun a ha => by cases ha) e
    · exact (HeapM.fault_eq_ok e).elim

theorem steady_of_setLength {k : Nat} (e : HeapM.setLength r k h = .ok (u, h')) : Steady x h h' := by
  obtain ⟨s, _, e₁, e⟩ := HeapM.bind_eq_ok e
  obtain ⟨_, _, _, rfl⟩ := objectShape_eq_ok e₁
  rw [HeapM.get_bind] at e
  generalize Heap.findProperty? _ s .length = found at e
  cases found with
  | none =>
    obtain ⟨_, rfl⟩ := HeapM.pure_eq_ok e
    exact .refl x _
  | some place =>
    obtain ⟨o, _, e₂, e⟩ := HeapM.bind_eq_ok e
    obtain ⟨_, rfl⟩ := object_eq_ok e₂
    split at e
    · exact steady_of_modifyObject e
    · exact (HeapM.fault_eq_ok e).elim

/-- A new object may be changed at once. -/
theorem Introduces.alter {d : Record} {f : Record → Record} (e : Introduces x r d h h₁)
    (hv : h'.Valid (x.plus [r])) (halt : Alters r f h₁ h') (hsteady : Steady x h₁ h')
    (hkind : h'.kind? r = some .object) : Introduces x r (f d) h h' := by
  obtain ⟨o, ho⟩ := hv.sound.object_of_kind hkind
  obtain ⟨t, _, hd⟩ := hv.sound.exists_record ho
  obtain ⟨d₁, hd₁, he⟩ := halt.record hd
  rw [e.seen] at hd₁
  cases hd₁
  exact ⟨hv, e.fresh, he ▸ hd, e.apart.trans halt.others, e.steady.trans hsteady⟩

/-- The layout of a new array has its length in the one place it has. -/
theorem Valid.length_of_array {d : Record} (hv : h.Valid x) (hd : h.record? r = some d)
    {q : Property} (hcol : d.columns = [(⟨.length, AllocM.lengthFlags⟩, q)]) :
    h.findOwn? r .length = some (0, AllocM.lengthFlags) := by
  have hloc := hv.locates (h := h) hd (show Atom.length.isNull = false by decide)
  cases hfind : h.findOwn? r .length with
  | none =>
    rw [hfind] at hloc
    exact absurd rfl (hloc (⟨.length, AllocM.lengthFlags⟩, q) (by simp [hcol]))
  | some place =>
    obtain ⟨i, flags⟩ := place
    obtain ⟨p, hi⟩ := hv.located hd hfind
    rw [hcol] at hi
    cases i with
    | zero =>
      cases hi
      rfl
    | succ i => cases hi

/-- An array of a realm has the layout the realm has for arrays. -/
theorem Valid.of_newArray {ctx : Handle} {res : Except OutOfMemory Handle} (hv : h.Valid x)
    (e : (AllocM.newArray ctx).run h = .ok (res, h')) :
    (∃ r c proto entries d, res = .ok r ∧ h.drawing? ctx = some (.realm c proto entries) ∧
        Introduces x r d h h' ∧ (entries = #[⟨.length, AllocM.lengthFlags⟩] →
          d = ⟨proto, true, [(⟨.length, AllocM.lengthFlags⟩, .value (.smi 0))]⟩)) ∨
      (∃ err, res = .error err) ∧ GivesUp x h h' := by
  obtain ⟨c, _, e₁, e⟩ := AllocM.lift_bind_eq_ok e
  obtain ⟨hc, he⟩ := HeapM.read_eq_ok e₁
  rw [he] at e
  cases hrealm : h.realm? ctx with
  | none =>
    rw [hrealm] at hc
    cases hc
  | some c' =>
    rw [hrealm] at hc
    cases hc
    obtain ⟨cell, hcell, hb⟩ := realm?_eq_some_iff.mp hrealm
    have hbody := body?_eq_some_iff.mpr ⟨cell, hcell, hb⟩
    obtain ⟨t, ht⟩ := hv.sound.shape_of_kind (hv.sound.names hbody (c.arrayShape, .shape) (by
      simp [Body.typedRefs]))
    have hdraw : h.drawing? ctx = some (.realm c t.proto t.entries) :=
      drawing?_eq_some_iff.mpr ⟨_, _, t, hbody, rfl, ht, rfl⟩
    obtain ⟨_, h₁, e₂, e⟩ := AllocM.lift_bind_eq_ok e
    obtain ⟨hs₁, hk₁, _⟩ := hv.sound.retain e₂
    have hl₁ := hv.rests ⟨hs₁, hk₁⟩
    rcases AllocM.bind_eq_ok e with ⟨r, h₂, e₃, e⟩ | ⟨err, e₃, rfl⟩
    · rcases Valid.of_newObjectFromShape (.array #[] 0) hl₁.valid (fun a ha => by cases ha) e₃ with
        ⟨r', t', capacity, hres, ht', hnew⟩ | ⟨⟨_, he⟩, _⟩
      · cases hres
        obtain ⟨_, h₃, e₄, e⟩ := AllocM.lift_bind_eq_ok e
        obtain ⟨rfl, rfl⟩ := AllocM.pure_eq_ok e
        cases ht.symm.trans (hk₁.body? ht')
        obtain ⟨hv₃, halt⟩ := hnew.valid.of_setLength e₄
        have hbare := lengthRefs_of_bare hnew.body (by
          intro q hq
          simp only [Array.toList_replicate, List.mem_replicate] at hq
          rw [hq.2]
          rfl)
        rw [hbare, Ledger.plus_nil] at hv₃
        have hint := hnew.introduces hl₁.apart hl₁.steady (HeapM.Shifting.retain _ _ _ _ e₂).evolves
          (AllocM.tracks_newObjectFromShape _ _ _ _ _ e₃) (by omega) ht'
        have hkind : h'.Names [(r, .object)] := by
          refine (HeapM.Shifting.setLength r 0 _ _ _ e₄).evolves.names (by omega) hv₃.sound (fun a ha => ?_) rfl
          rw [List.mem_singleton.mp ha, kind?_eq_map, hnew.body]
          rfl
        refine .inl ⟨r, c, t.proto, t.entries, _, rfl, hdraw,
          hint.alter hv₃ halt (steady_of_setLength e₄) (hkind (r, .object) (by simp)), fun hlength => ?_⟩
        have hplace := hnew.valid.length_of_array (q := .undefined) hint.seen (by
          simp only [Object.record, hlength]
          rfl)
        unfold writeLength
        rw [hplace]
        simp only [Object.record, hlength]
        rfl
      · cases he
    · rcases Valid.of_newObjectFromShape (.array #[] 0) hl₁.valid (fun a ha => by cases ha) e₃ with
        ⟨_, _, _, hres, _⟩ | ⟨_, hl⟩
      · cases hres
      · exact .inr ⟨⟨err, rfl⟩, hl.after hl₁.apart (fun _ => (unchanged_of_retain e₂).agree x) hl₁.steady⟩

/-- An object that was edited and kept its shape has the properties it had, where they were. -/
theorem Rewrites.findOwn? {o' : Object} {atom : Atom} (hre : Rewrites r (.object o) (.object o') h h')
    (hs : h.Sound x n) (hsame : o'.shape = o.shape) : h'.findOwn? r atom = h.findOwn? r atom := by
  obtain ⟨t, ht, _⟩ := hs.exists_record hre.before
  have hne : o.shape ≠ r := by
    intro hr
    rw [hr, hre.before] at ht
    cases ht
  rw [findOwn?_of_object hre.after, findOwn?_of_object hre.before, hsame]
  unfold findProperty? Heap.shape?
  rw [hre.others _ hne]

theorem SameBodies.findOwn? (e : SameBodies h h') (r : Handle) (atom : Atom) :
    h'.findOwn? r atom = h.findOwn? r atom := by
  unfold Heap.findOwn? findProperty? object? Heap.shape?
  simp only [e.body]

/-- An edit of the payload leaves layout and properties. -/
theorem Valid.of_setPayload {g : Payload → Payload} (hv : h.Valid x) (ho : h.body? r = some (.object o))
    (hnames : h.Names (g o.payload).typedRefs)
    (hbal : ∀ q, y q + (g o.payload).refs.count q = x q + o.payload.refs.count q)
    (e : HeapM.modifyObject r (fun o => { o with payload := g o.payload }) h = .ok (u, h')) :
    Leaves y h h' ∧ h'.body? r = some (.object { o with payload := g o.payload }) ∧
      ∀ atom, h'.findOwn? r atom = h.findOwn? r atom := by
  have hall := hv.sound.names ho
  have hrefs : h.Names (Body.object { o with payload := g o.payload }).typedRefs := by
    intro a ha
    simp only [Body.typedRefs, Object.typedRefs, List.mem_append, List.mem_singleton] at ha
    rcases ha with (ha | ha) | ha
    · exact hall a (by simp only [Body.typedRefs, Object.typedRefs, List.mem_append]; exact .inl (.inl ha))
    · exact hnames a ha
    · exact hall a (by
        simp only [Body.typedRefs, Object.typedRefs, List.mem_append, List.mem_singleton]
        exact .inr ha)
  obtain ⟨hv', hre⟩ := hv.of_modifyObject (y := y) (g := fun o => { o with payload := g o.payload }) ho
    rfl rfl hrefs (fun q => by
      have hq := hbal q
      simp only [Object.refs, List.count_append]
      omega) e
  exact ⟨⟨hv', (hre.alters hv.sound hv' rfl fun _ => rfl).apart⟩, hre.after,
    fun _ => hre.findOwn? hv.sound rfl⟩

/-- The element an array gets takes its references over. -/
theorem Valid.of_pushPayload {elements : Array Value} {capacity : Nat} {v : Value}
    (hv : h.Valid (x.plus v.ref?.toList)) (hnames : h.Names v.typedRef?.toList)
    (ho : h.body? r = some (.object o)) (hp : o.payload = .array elements capacity)
    (e : HeapM.modifyObject r (fun o => { o with
      payload := match o.payload with
        | .array elements capacity => .array (elements.push v) capacity
        | p => p }) h = .ok (u, h')) :
    Leaves x h h' ∧ h'.body? r = some (.object { o with payload := .array (elements.push v) capacity }) ∧
      ∀ atom, h'.findOwn? r atom = h.findOwn? r atom := by
  have hrefs : h.Names (Payload.array (elements.push v) capacity).typedRefs := by
    intro a ha
    simp only [Payload.typedRefs, Array.toList_push, List.filterMap_append, List.mem_append] at ha
    rcases ha with ha | ha
    · refine hv.sound.names ho a ?_
      simp only [Body.typedRefs, Object.typedRefs, hp, Payload.typedRefs, List.mem_append]
      exact .inl (.inr ha)
    · obtain ⟨w, hw, ha⟩ := mem_filterMap_typedRef?.mp ha
      rw [List.mem_singleton.mp hw] at ha
      exact hnames a ha
  obtain ⟨hl, ho', hfind⟩ := hv.of_setPayload (y := x) (g := fun
    | .array elements capacity => .array (elements.push v) capacity
    | p => p) ho (by rw [hp]; exact hrefs) (fun q => by
      simp only [hp, Payload.refs, Array.toList_push, List.filterMap_append, List.count_append,
        Ledger.plus_apply, filterMap_ref? [v], List.flatMap_cons, List.flatMap_nil, List.append_nil]
      omega) e
  rw [hp] at ho'
  exact ⟨hl, ho', hfind⟩

/-- The room of an array holds no references. -/
theorem Valid.of_growPayload {elements : Array Value} {capacity target : Nat} (hv : h.Valid x)
    (ho : h.body? r = some (.object o)) (hp : o.payload = .array elements capacity)
    (e : HeapM.modifyObject r (fun o => { o with
      payload := match o.payload with
        | .array elements _ => .array elements target
        | p => p }) h = .ok (u, h')) :
    Leaves x h h' ∧ h'.body? r = some (.object { o with payload := .array elements target }) ∧
      ∀ atom, h'.findOwn? r atom = h.findOwn? r atom := by
  have hrefs : h.Names (Payload.array elements target).typedRefs := by
    intro a ha
    refine hv.sound.names ho a ?_
    simp only [Body.typedRefs, Object.typedRefs, hp, List.mem_append]
    exact .inl (.inr ha)
  obtain ⟨hl, ho', hfind⟩ := hv.of_setPayload (y := x) (g := fun
    | .array es _ => .array es target
    | p => p) ho (by rw [hp]; exact hrefs) (fun q => by rw [hp]; rfl) e
  rw [hp] at ho'
  exact ⟨hl, ho', hfind⟩

/-- An element is added, and the length written over what its slot held. -/
theorem Valid.of_pushElement {elements : Array Value} {capacity k : Nat} {v : Value}
    (hv : h.Valid (x.plus v.ref?.toList)) (hnames : h.Names v.typedRef?.toList)
    (ho : h.body? r = some (.object o)) (hp : o.payload = .array elements capacity)
    (e₁ : HeapM.modifyObject r (fun o => { o with
      payload := match o.payload with
        | .array elements capacity => .array (elements.push v) capacity
        | p => p }) h = .ok (u, h₁))
    (e₂ : HeapM.setLength r k h₁ = .ok (u, h')) :
    h'.Valid (x.plus (h.lengthRefs r)) ∧ Steady x h h' ∧ Alters r (h.writeLength r k) h h' := by
  obtain ⟨hl₁, ho₁, hfind⟩ := hv.of_pushPayload hnames ho hp e₁
  obtain ⟨hv', halt⟩ := hl₁.valid.of_setLength e₂
  rw [lengthRefs_eq ho₁, hfind, ← lengthRefs_eq ho] at hv'
  refine ⟨hv', (steady_of_modifyObject e₁).trans (steady_of_setLength e₂), .after_apart hl₁.apart ?_⟩
  unfold writeLength at halt ⊢
  rw [← hfind]
  exact halt

/-- Pushing an element consumes it. -/
theorem Valid.of_arrayPush {v : Value} {res : Except OutOfMemory Unit}
    (hv : h.Valid (x.plus v.ref?.toList)) (hnames : h.Names v.typedRef?.toList)
    (e : (AllocM.arrayPush r v).run h = .ok (res, h')) :
    ((∃ u, res = .ok u) ∧ ∃ k, h'.Valid (x.plus (h.lengthRefs r)) ∧ Steady x h h' ∧
        Alters r (h.writeLength r k) h h') ∨
      (∃ err, res = .error err) ∧ GivesUp x h h' := by
  obtain ⟨⟨size, capacity⟩, _, e₁, e⟩ := AllocM.lift_bind_eq_ok e
  obtain ⟨o, _, e₀, e₁⟩ := HeapM.bind_eq_ok e₁
  obtain ⟨ho, rfl⟩ := object_eq_ok e₀
  cases hp : o.payload with
  | ordinary =>
    rw [hp] at e₁
    cases e₁
  | closure bytecode captured home =>
    rw [hp] at e₁
    cases e₁
  | array elements capacity' =>
    rw [hp] at e₁
    obtain ⟨hpair, rfl⟩ := HeapM.pure_eq_ok e₁
    cases hpair
    dsimp only at e
    split at e
    · rcases AllocM.bind_eq_ok e with ⟨_, h₁, e₂, e⟩ | ⟨err, e₂, rfl⟩
      · rcases AllocM.tryCatch_eq_ok e₂ with ⟨_, e₂, _⟩ | ⟨_, _, _, e₂⟩
        · obtain ⟨c, hc, _⟩ := body?_eq_some_iff.mp ho
          rcases hv.sound.of_growCell hc e₂ with ⟨_, hs₁, hsame⟩ | ⟨⟨_, he⟩, _⟩
          · obtain ⟨_, h₂, e₃, e⟩ := AllocM.lift_bind_eq_ok e
            obtain ⟨_, h₃, e₄, e⟩ := AllocM.lift_bind_eq_ok e
            obtain ⟨u, e₅, hres⟩ := AllocM.lift_eq_ok e
            have hv₁ : h₁.Valid (x.plus v.ref?.toList) := ⟨hs₁, hv.laid.of_same hsame⟩
            have ho₁ : h₁.body? r = some (.object o) := (hsame.body r).trans ho
            have hnames₁ : h₁.Names v.typedRef?.toList := fun a ha => by
              rw [kind?_eq_map, hsame.body, ← kind?_eq_map]
              exact hnames a ha
            obtain ⟨hl₂, ho₂, hfind₂⟩ := hv₁.of_growPayload ho₁ hp e₃
            have hnames₂ :=
              (HeapM.Shifting.modifyObject r _ _ _ _ e₃).evolves.names (by omega) hl₂.valid.sound hnames₁
              v.toList_typedRef?
            obtain ⟨hv', hsteady, halt⟩ := hl₂.valid.of_pushElement hnames₂ ho₂ rfl e₄ e₅
            rw [lengthRefs_eq ho₂, hfind₂, hsame.findOwn?, ← lengthRefs_eq ho] at hv'
            have hsteady₂ := (Steady.of_unedited (x := x) (.of_same hsame)).trans
              (steady_of_modifyObject e₃)
            unfold writeLength at halt
            rw [hfind₂, hsame.findOwn?] at halt
            exact .inl ⟨⟨u, hres⟩, elements.size + 1, hv', hsteady₂.trans hsteady, .after_apart
              (Apart.trans (.of_unedited (.of_same hsame)) hl₂.apart) halt⟩
          · cases he
        · obtain ⟨_, _, _, e₂⟩ := AllocM.lift_bind_eq_ok e₂
          cases e₂
      · rcases AllocM.tryCatch_eq_ok e₂ with ⟨_, _, hres⟩ | ⟨_, h₁, e₃, e₄⟩
        · cases hres
        · obtain ⟨_, h₂, e₄, e₅⟩ := AllocM.lift_bind_eq_ok e₄
          obtain ⟨_, rfl⟩ := AllocM.throw_eq_ok e₅
          obtain ⟨c, hc, _⟩ := body?_eq_some_iff.mp ho
          rcases hv.sound.of_growCell hc e₃ with ⟨he, _⟩ | ⟨_, rfl⟩
          · cases he
          · exact .inr ⟨⟨err, rfl⟩, hv.givesUp_refl.releaseAll e₄⟩
    · obtain ⟨_, h₁, e₂, e⟩ := AllocM.lift_bind_eq_ok e
      obtain ⟨u, e₃, hres⟩ := AllocM.lift_eq_ok e
      obtain ⟨hv', hsteady, halt⟩ := hv.of_pushElement hnames ho hp e₂ e₃
      exact .inl ⟨⟨u, hres⟩, _, hv', hsteady, halt⟩

/-! ## Realms -/

/-- Cells made so far since `h₀`: the ledger owns one reference to each of `ps`, and the objects of `ds`
among them are new and have their prototype and no property. -/
structure Made (x : Ledger) (k : Nat) (ds : List (Handle × Option Handle)) (ps : List (Handle × Kind))
    (h₀ h : Heap) : Prop where
  valid : h.Valid (x.plus (ps.map (·.1)))
  names : h.Names ps
  objects : ∀ p ∈ ds, (p.1, Kind.object) ∈ ps
  evolves : Evolves k h₀ h
  apart : Apart (ds.map (·.1)) h₀ h
  fresh : ∀ p ∈ ds, h₀.contains p.1 = false
  seen : ∀ p ∈ ds, h.record? p.1 = some ⟨p.2, true, []⟩
  agree : h₀.Quiet → Agree x h₀ h
  steady : Steady x h₀ h
  acyclic : h₀.Acyclic → h.Acyclic

/-- Nothing has been made yet. -/
theorem Valid.made (hv : h.Valid x) : Made x 0 [] [] h h :=
  ⟨by simpa using hv, by simp [Names], by simp, .refl h, .refl _ h, by simp, by simp,
    fun _ => (Unchanged.refl h).agree x, .refl x h, id⟩

theorem Made.agree_then {k : Nat} {ds : List (Handle × Option Handle)} {h₀ : Heap}
    (hm : Made x k ds ps h₀ h) (hagree : h.Quiet → Agree x h h') (hq : h₀.Quiet) : Agree x h₀ h' :=
  (hm.agree hq).trans (hagree ((hm.agree hq).calm.quiet hq))

/-- What was made so far is bare. -/
theorem Made.grows {k : Nat} {ds : List (Handle × Option Handle)} (hm : Made x k ds ps h h₁) :
    Grows h h₁ := by
  intro q v hv
  by_cases hq : q ∈ ds.map (·.1)
  · obtain ⟨p, hp, rfl⟩ := List.mem_map.mp hq
    rw [record?_eq_some_iff.mp (hm.seen p hp)] at hv
    cases hv
    exact .inr rfl
  · exact .inl (hm.apart q v hq hv)

/-- Objects that the ledger owns are seen as they were. -/
theorem Apart.record {d : Record} {rs : List Handle} (e : Apart rs h h') (hv : h'.Valid x) (hr : r ∉ rs)
    (hkind : h'.kind? r = some .object) (hd : h.record? r = some d) : h'.record? r = some d := by
  obtain ⟨o, ho⟩ := hv.sound.object_of_kind hkind
  obtain ⟨t, _, hd'⟩ := hv.sound.exists_record ho
  have hback := record?_eq_some_iff.mpr (e r _ hr (record?_eq_some_iff.mp hd'))
  rw [hd] at hback
  rw [hd', hback]

/-- One more cell is made that is not seen; some of what was made before may be given for it. -/
theorem Made.leave {k m : Nat} {ds : List (Handle × Option Handle)} {qs : List (Handle × Kind)} {kind : Kind}
    {h₀ : Heap} (hm : Made x k ds qs h₀ h) (hsub : ps ⊆ qs) (hobjects : ∀ p ∈ ds, (p.1, Kind.object) ∈ ps)
    (hl : Leaves ((x.plus (ps.map (·.1))).plus [s]) h h') (hkind : h'.kind? s = some kind)
    (hagree : h.Quiet → Agree x h h') (hsteady : Steady x h h') (ev : Evolves m h h')
    (hk : m < 4294967295) : Made x (k + m) ds (ps ++ [(s, kind)]) h₀ h' := by
  have hnames : h'.Names ps := ev.names hk (hl.valid.sound.of_eq fun q => by rw [Ledger.plus_comm])
    (fun p hp => hm.names p (hsub hp)) rfl
  refine ⟨?_, Names.append_iff.mpr ⟨hnames, ?_⟩, fun p hp => List.mem_append_left _ (hobjects p hp),
    hm.evolves.trans ev, hm.apart.trans (hl.apart.weaken _), hm.fresh, fun p hp => ?_, hm.agree_then hagree,
    hm.steady.trans hsteady, fun ha => (hm.acyclic ha).of_apart hl.apart⟩
  · rw [List.map_append, Ledger.plus_append]
    exact hl.valid
  · intro q hq
    rw [List.mem_singleton.mp hq]
    exact hkind
  · exact hl.apart.record hl.valid (by simp) (hnames _ (hobjects p hp)) (hm.seen p hp)

/-- One more object is made. -/
theorem Made.introduce {k m : Nat} {ds : List (Handle × Option Handle)} {proto : Option Handle} {h₀ : Heap}
    (hm : Made x k ds ps h₀ h) (hi : Introduces (x.plus (ps.map (·.1))) r ⟨proto, true, []⟩ h h')
    (hproto : ∀ p ∈ proto, h.contains p = true) (hagree : h.Quiet → Agree x h h') (ev : Evolves m h h')
    (hk : k + m < 4294967295) : Made x (k + m) (ds ++ [(r, proto)]) (ps ++ [(r, .object)]) h₀ h' := by
  obtain ⟨o, ho, _⟩ := Option.bind_eq_some_iff.mp hi.seen
  have ho := object?_iff_body?.mp ho
  have hnames : h'.Names ps := ev.names (by omega) (hi.valid.sound.of_eq fun q => by rw [Ledger.plus_comm])
    hm.names rfl
  have hfresh := hm.evolves.fresh ev hk hi.fresh (contains_of_body? ho)
  refine ⟨?_, Names.append_iff.mpr ⟨hnames, ?_⟩, ?_, hm.evolves.trans ev, ?_, ?_, ?_, hm.agree_then hagree,
    hm.steady.trans hi.steady.of_plus, fun ha => (hm.acyclic ha).of_introduces hm.valid hi hproto⟩
  · rw [List.map_append, Ledger.plus_append]
    exact hi.valid
  · intro q hq
    rw [List.mem_singleton.mp hq, kind?_eq_map, ho]
    rfl
  · intro p hp
    rcases List.mem_append.mp hp with hp | hp
    · exact List.mem_append_left _ (hm.objects p hp)
    · rw [List.mem_singleton.mp hp]
      simp
  · rw [List.map_append]
    exact (hm.apart.mono (List.subset_append_left _ _)).trans (hi.apart.mono (List.subset_append_right _ _))
  · intro p hp
    rcases List.mem_append.mp hp with hp | hp
    · exact hm.fresh p hp
    · rw [List.mem_singleton.mp hp]
      exact hfresh
  · intro p hp
    rcases List.mem_append.mp hp with hp | hp
    · have hne : p.1 ≠ r := by
        intro hpr
        have hlive := hm.names.contains (hm.objects p hp)
        rw [hpr, hi.fresh] at hlive
        cases hlive
      exact hi.apart.record hi.valid (by simpa using hne) (hnames _ (hm.objects p hp)) (hm.seen p hp)
    · rw [List.mem_singleton.mp hp]
      exact hi.seen

theorem names_of_proto {proto : Option Handle} (hproto : ∀ q ∈ proto, h.kind? q = some .object) :
    h.Names (proto.toList.map (·, .object)) := by
  intro q hq
  obtain ⟨r, hr, rfl⟩ := List.mem_map.mp hq
  exact hproto r (Option.mem_toList.mp hr)

/-- The next object is one whose prototype was made before. -/
theorem Made.of_newObject {k : Nat} {ds : List (Handle × Option Handle)} {proto : Option Handle} {h₀ : Heap}
    (hm : Made x k ds ps h₀ h) (hproto : ∀ q ∈ proto, (q, .object) ∈ ps) (hk : k < 100)
    (hi : Introduces (x.plus (ps.map (·.1))) r ⟨proto, true, []⟩ h h')
    (e : (AllocM.newObject proto).run h = .ok (.ok r, h')) :
    Made x (k + 2) (ds ++ [(r, proto)]) (ps ++ [(r, .object)]) h₀ h' := by
  have hnames := names_of_proto fun q hq => hm.names _ (hproto q hq)
  exact hm.introduce hi (fun q hq => hm.names.contains (hproto q hq))
    (fun hq => (hq.agree_of_newObject hm.valid hnames e).of_plus) (AllocM.tracks_newObject proto _ _ _ e)
    (by omega)

/-- Memory ran out on the way: what is seen was seen before or is bare, and a quiet heap has
what holds up on `x`. -/
structure Abandons (x : Ledger) (h h' : Heap) : Prop where
  valid : h'.Valid x
  grows : Grows h h'
  agree : h.Quiet → Agree x h h'
  steady : Steady x h h'
  acyclic : h.Acyclic → h'.Acyclic

theorem Made.abandons {k : Nat} {ds : List (Handle × Option Handle)} {h₀ : Heap} (hm : Made x k ds ps h₀ h)
    (e : GivesUp x h h') : Abandons x h₀ h' :=
  ⟨e.valid, hm.grows.trans e.apart.grows, hm.agree_then e.agree, hm.steady.trans e.steady,
    fun ha => (hm.acyclic ha).of_apart e.apart⟩

/-- A guarded step ended, or what was owned was given up. -/
theorem guarding_eq_ok {α : Type} {owned : List Handle} {act : AllocM α} {res : Except OutOfMemory α}
    (e : (AllocM.guarding owned act).run h = .ok (res, h')) :
    (∃ a, res = .ok a ∧ act.run h = .ok (.ok a, h')) ∨
      ∃ err h₁, res = .error err ∧ act.run h = .ok (.error err, h₁) ∧
        HeapM.releaseAll owned.reverse h₁ = .ok ((), h') := by
  rcases AllocM.tryCatch_eq_ok e with ⟨a, e₁, hres⟩ | ⟨err, h₁, e₁, e₂⟩
  · exact .inl ⟨a, hres, e₁⟩
  · obtain ⟨_, h₂, e₂, e₃⟩ := AllocM.lift_bind_eq_ok e₂
    obtain ⟨hres, rfl⟩ := AllocM.throw_eq_ok e₃
    exact .inr ⟨err, h₁, hres, e₁, e₂⟩

/-- A guarded step goes on; if memory runs out, nothing is owned of what was made before. -/
theorem Made.guarding {α β : Type} {k : Nat} {ds : List (Handle × Option Handle)} {h₀ : Heap}
    {act : AllocM α} {owned : List Handle} {next : α → AllocM β} {res : Except OutOfMemory β}
    {Q : α → Heap → Prop} (hm : Made x k ds ps h₀ h)
    (hact : ∀ res h₁, act.run h = .ok (res, h₁) →
      (∃ a, res = .ok a ∧ Q a h₁) ∨ (∃ err, res = .error err) ∧ GivesUp (x.plus owned) h h₁)
    (e : (AllocM.guarding owned act >>= next).run h = .ok (res, h')) :
    (∃ a h₁, Q a h₁ ∧ (next a).run h₁ = .ok (res, h')) ∨
      (∃ err, res = .error err) ∧ Abandons x h₀ h' := by
  rcases AllocM.bind_eq_ok e with ⟨a, h₁, e₁, e⟩ | ⟨err, e₁, rfl⟩
  · rcases guarding_eq_ok e₁ with ⟨_, hres, e₁⟩ | ⟨_, _, hres, _⟩
    · cases hres
      rcases hact _ _ e₁ with ⟨_, hres, hq⟩ | ⟨⟨_, hres⟩, _⟩
      · cases hres
        exact .inl ⟨a, h₁, hq, e⟩
      · cases hres
    · cases hres
  · rcases guarding_eq_ok e₁ with ⟨_, hres, _⟩ | ⟨_, h₁, _, e₁, e₂⟩
    · cases hres
    · rcases hact _ _ e₁ with ⟨_, hres, _⟩ | ⟨_, hgave⟩
      · cases hres
      · rw [← Ledger.plus_perm _ owned.reverse_perm] at hgave
        exact .inr ⟨⟨err, rfl⟩, hm.abandons (hgave.releaseAll e₂)⟩

/-- A prototype object is made on the way. -/
theorem Made.newObject {α : Type} {k : Nat} {ds : List (Handle × Option Handle)} {h₀ : Heap}
    {proto : Option Handle} {next : Handle → AllocM α} {res : Except OutOfMemory α}
    (hm : Made x k ds ps h₀ h) (hproto : ∀ q ∈ proto, (q, .object) ∈ ps) (hk : k < 100)
    (e : (AllocM.guarding (ps.map (·.1)) (AllocM.newObject proto) >>= next).run h = .ok (res, h')) :
    (∃ r h₁, Made x (k + 2) (ds ++ [(r, proto)]) (ps ++ [(r, .object)]) h₀ h₁ ∧
        (next r).run h₁ = .ok (res, h')) ∨
      (∃ err, res = .error err) ∧ Abandons x h₀ h' := by
  refine Made.guarding hm (fun res h₁ e₁ => ?_) e
  rcases hm.valid.of_newObject (names_of_proto fun q hq => hm.names _ (hproto q hq)) e₁ with ⟨r, hres, hi⟩ | herr
  · exact .inl ⟨r, hres, hm.of_newObject hproto hk hi (hres ▸ e₁)⟩
  · exact .inr herr

theorem kind?_of_shape {t : Shape} (hb : h.body? s = some (.shape t)) : h.kind? s = some .shape := by
  rw [kind?_eq_map, hb]
  rfl

/-- Realm `r` is new, with all its parts. -/
structure Founds (x : Ledger) (r : Handle) (c : Realm) (h h' : Heap) : Prop where
  valid : h'.Valid (x.plus [r])
  fresh : ∀ q ∈ r :: c.intrinsics.map (·.1), h.contains q = false
  apart : Apart (r :: c.intrinsics.map (·.1)) h h'
  layout : h'.drawing? r = some (.realm c (some c.arrayProto) #[⟨.length, AllocM.lengthFlags⟩])
  seen : ∀ p ∈ c.intrinsics, h'.record? p.1 = some ⟨p.2, true, []⟩
  steady : Steady x h h'
  acyclic : h.Acyclic → h'.Acyclic

/-- The realm itself comes last, and owns all that was made before. -/
theorem Made.install {k : Nat} {h₀ : Heap} {c : Realm} {t : Shape} {res : Except OutOfMemory Handle}
    (hm : Made x k c.intrinsics (c.intrinsics.map (fun p => (p.1, .object)) ++ [(c.arrayShape, .shape)]) h₀ h)
    (ht : h.body? c.arrayShape = some (.shape t)) (hproto : t.proto = some c.arrayProto)
    (hentries : t.entries = #[⟨.length, AllocM.lengthFlags⟩]) (hk : k < 100)
    (e : (do
      let p ← AllocM.guarding
        ([c.objectProto, c.functionProto, c.arrayProto, c.globalObject] ++ [c.arrayShape])
        (AllocM.reserve Size.cell)
      HeapM.install p (.realm c) true : AllocM Handle).run h = .ok (res, h')) :
    (∃ r, res = .ok r ∧ Founds x r c h₀ h') ∨ (∃ err, res = .error err) ∧ Abandons x h₀ h' := by
  have hv : h.Valid (x.plus
      ([c.objectProto, c.functionProto, c.arrayProto, c.globalObject] ++ [c.arrayShape]).reverse) := by
    rw [Ledger.plus_perm _ (List.reverse_perm _)]
    exact hm.valid
  have hperm : ([c.objectProto, c.functionProto, c.arrayProto, c.globalObject] ++
      [c.arrayShape]).reverse.Perm (Body.realm c).refs := by
    refine List.perm_iff_count.mpr fun q => ?_
    simp only [Body.refs, Realm.refs, List.cons_append, List.nil_append, List.reverse_cons,
      List.reverse_nil, List.count_cons, List.count_nil]
    omega
  have hnames : h.Names (Body.realm c).typedRefs := by
    intro q hq
    refine hm.names q ?_
    simp only [Body.typedRefs, Realm.intrinsics, List.map_cons, List.map_nil, List.cons_append,
      List.nil_append, List.mem_cons, List.not_mem_nil, or_false] at hq ⊢
    tauto
  have ev := AllocM.Tracks.bind (.reserveOr Size.cell _) (fun p => .install p (.realm c) true) _ _ _ e
  rcases hv.of_make _ hperm hnames (Body.rested_of_kind (by simp [Body.kind])) rfl rfl
    (by simp [Body.kind]) (fun _ _ hb => by cases hb) e with ⟨r, hres, hnew⟩ | ⟨herr, hl⟩
  · have hfresh := hm.evolves.fresh ev (by omega) hnew.fresh (contains_of_body? hnew.body)
    have hapart : Apart [r] h h' := .of_others hnew.body hnew.others (by simp [Body.kind])
    have hlive := hnew.valid.sound.names hnew.body
    refine .inl ⟨r, hres, hnew.valid, ?_, ?_, ?_, fun p hp => ?_,
      hm.steady.trans (.of_others hnew.body hnew.others (by simp [Body.kind])), fun ha => ?_⟩
    · intro q hq
      rcases List.mem_cons.mp hq with rfl | hq
      · exact hfresh
      · obtain ⟨p, hp, rfl⟩ := List.mem_map.mp hq
        exact hm.fresh p hp
    · exact (hm.apart.mono (List.subset_cons_self _ _)).trans (hapart.mono (by simp))
    · obtain ⟨t', ht'⟩ := hnew.valid.sound.shape_of_kind (hlive (c.arrayShape, .shape) (by
        simp [Body.typedRefs]))
      have hne : c.arrayShape ≠ r := by
        intro hr
        rw [hr, hnew.body] at ht'
        cases ht'
      have hback := hnew.others _ _ hne ht'
      rw [ht] at hback
      cases hback
      refine drawing?_eq_some_iff.mpr ⟨_, _, t, hnew.body, rfl, ht', ?_⟩
      rw [Body.draw?, hproto, hentries]
    · have hkind : h'.kind? p.1 = some .object := by
        refine hlive (p.1, .object) ?_
        simp only [Realm.intrinsics, List.mem_cons, List.not_mem_nil, or_false] at hp
        simp only [Body.typedRefs, List.mem_cons, List.not_mem_nil, or_false]
        rcases hp with rfl | rfl | rfl | rfl <;> simp
      have hne : p.1 ≠ r := by
        intro hpr
        have := hm.names.contains (hm.objects p hp)
        rw [hpr, hnew.fresh] at this
        cases this
      exact hapart.record hnew.valid (by simpa using hne) hkind (hm.seen p hp)
    · refine (hm.acyclic ha).of_fewer fun q s hp => hapart.proto? (fun hq => ?_) hp
      -- the realm itself is no object
      obtain ⟨d, hd, _⟩ := proto?_eq_some_iff.mp hp
      rw [List.mem_singleton.mp hq, record?, object?, hnew.body] at hd
      cases hd
  · exact .inr ⟨herr, hm.abandons hl⟩

/-- Once the objects of a realm are made, its array shape and the realm itself follow: the empty shape
made for arrays gives way to one with a length. -/
theorem Made.realm {k : Nat} {h₀ : Heap} {a b c d : Handle} {res : Except OutOfMemory Handle}
    (hm : Made x k [(a, none), (b, some a), (c, some a), (d, some a)]
      [(a, .object), (b, .object), (c, .object), (d, .object)] h₀ h) (hk : k < 90)
    (e : (do
      let emptyShape ← AllocM.guarding [a, b, c, d] (AllocM.shapeForNewObject (some c))
      let (arrayShape, _) ← AllocM.guarding ([a, b, c, d] ++ [emptyShape])
        (AllocM.addProperty emptyShape .length AllocM.lengthFlags)
      let p ← AllocM.guarding ([a, b, c, d] ++ [arrayShape]) (AllocM.reserve Size.cell)
      HeapM.install p (.realm ⟨d, a, b, c, arrayShape⟩) true : AllocM Handle).run h = .ok (res, h')) :
    (∃ r c, res = .ok r ∧ Founds x r c h₀ h') ∨ (∃ err, res = .error err) ∧ Abandons x h₀ h' := by
  have hproto : h.Names ((some c).toList.map (·, .object)) := by
    intro q hq
    rw [List.mem_singleton.mp hq]
    exact hm.names _ (by simp)
  have hempty := Made.guarding (Q := fun s h₁ => ∃ t, h₁.body? s = some (.shape t) ∧
      t.proto = some c ∧ t.entries = #[] ∧ Made x (k + 1) [(a, none), (b, some a), (c, some a), (d, some a)]
        ([(a, .object), (b, .object), (c, .object), (d, .object)] ++ [(s, .shape)]) h₀ h₁) hm
    (fun res h₁ e₁ => by
      rcases hm.valid.of_shapeForNewObject hproto e₁ with ⟨s, t, hres, hl₁, hp, he, _⟩ | herr
      · exact .inl ⟨s, hres, t, hl₁.shape, hp, he, hm.leave (fun _ hp => hp) hm.objects hl₁.toLeaves
          (kind?_of_shape hl₁.shape)
          (fun hq => (hq.agree_of_shapeForNewObject hm.valid.sound hproto e₁).of_plus) hl₁.steady.of_plus
          (AllocM.Tracks.shapeForNewObject _ _ _ _ e₁) (by omega)⟩
      · exact .inr herr) e
  rcases hempty with ⟨s, h₁, ⟨t, ht, hp, he, hm₁⟩, e₁⟩ | herr
  · have hv₁ : h₁.Valid ((x.plus [a, b, c, d]).plus [s]) := by
      rw [← Ledger.plus_append]
      exact hm₁.valid
    have hlength := Made.guarding (Q := fun q h₂ => ∃ t, h₂.body? q.1 = some (.shape t) ∧
        t.proto = some c ∧ t.entries = #[⟨.length, AllocM.lengthFlags⟩] ∧
        Made x (k + 1 + 1) [(a, none), (b, some a), (c, some a), (d, some a)]
          ([(a, .object), (b, .object), (c, .object), (d, .object)] ++ [(q.1, .shape)]) h₀ h₂) hm₁
      (fun res h₂ e₂ => by
        rcases hv₁.of_addProperty e₂ with ⟨s', i, t₀, t', hres, hl₂, ht₀, hext⟩ | ⟨herr, hl₂⟩
        · rw [ht] at ht₀
          cases ht₀
          refine .inl ⟨(s', i), hres, t', hl₂.shape, hext.proto.trans hp, by rw [hext.entries, he]; rfl, ?_⟩
          exact hm₁.leave (List.subset_append_left _ _) hm.objects hl₂.toLeaves (kind?_of_shape hl₂.shape)
            (fun hq => (hq.agree_of_addProperty_owned hv₁.sound e₂).of_plus) hl₂.steady.of_plus
            (AllocM.tracks_addProperty _ _ _ _ _ _ e₂) (by omega)
        · rw [← Ledger.plus_append] at hl₂
          exact .inr ⟨herr, hl₂⟩) e₁
    rcases hlength with ⟨⟨s', i⟩, h₂, ⟨t', ht', hp', he', hm₂⟩, e₂⟩ | herr
    · rcases hm₂.install (c := ⟨d, a, b, c, s'⟩) ht' hp' he' (by omega) e₂ with ⟨r, hres, hfound⟩ | herr
      · exact .inl ⟨r, _, hres, hfound⟩
      · exact .inr herr
    · exact .inr herr
  · exact .inr herr

/-- The realm takes over what was made for it. -/
theorem Valid.of_newRealm {res : Except OutOfMemory Handle} (hv : h.Valid x)
    (e : AllocM.newRealm.run h = .ok (res, h')) :
    (∃ r c, res = .ok r ∧ Founds x r c h h') ∨ (∃ err, res = .error err) ∧ Abandons x h h' := by
  rcases AllocM.bind_eq_ok e with ⟨a, h₁, e₁, e₂⟩ | ⟨err, e₁, rfl⟩
  · rcases hv.of_newObject (fun _ hq => by cases hq) e₁ with ⟨_, hres, hi⟩ | ⟨⟨_, hres⟩, _⟩
    · cases hres
      have hm₁ := hv.made.of_newObject (by simp) (by omega) (by simpa using hi) e₁
      rcases hm₁.newObject (by simp) (by omega) e₂ with ⟨b, h₂, hm₂, e₃⟩ | herr
      · rcases hm₂.newObject (by simp) (by omega) e₃ with ⟨c, h₃, hm₃, e₄⟩ | herr
        · rcases hm₃.newObject (by simp) (by omega) e₄ with ⟨d, h₄, hm₄, e₅⟩ | herr
          · exact hm₄.realm (by omega) e₅
          · exact .inr herr
        · exact .inr herr
      · exact .inr herr
    · cases hres
  · rcases hv.of_newObject (fun _ hq => by cases hq) e₁ with ⟨_, hres, _⟩ | ⟨_, hl⟩
    · cases hres
    · exact .inr ⟨⟨err, rfl⟩, hv.made.abandons hl⟩

end Heap

end ObjectMemory
