import ObjectMemory.Proofs.Holding
import ObjectMemory.Proofs.Layouts
set_option autoImplicit false

/-!
# Changing shapes

What the operations on shapes do to a sound heap.  A shape that is edited in place keeps its prototype,
its count and, as far as the table goes, its hash (`Heap.Reshapes`); everything else is as before.

A shape that has other owners is not edited but replaced.  The new shape is made first, in a heap that
stays sound (`Heap.Replaces`); what is left to do then, giving up the old shape and entering the new one
into the table, is the same whatever the object that is to take the new shape looks like
(`Heap.Concludes`).
-/

namespace ObjectMemory

/-- Growing makes room and leaves the rest. -/
theorem Shape.grow_fields (t : Shape) (capacity : Nat) : (t.grow capacity).proto = t.proto ∧
    (t.grow capacity).entries = t.entries ∧ (t.grow capacity).isHashed = t.isHashed ∧
    (t.grow capacity).hash = t.hash ∧ (t.grow capacity).holes = t.holes := by
  unfold Shape.grow
  dsimp only
  split <;> exact ⟨rfl, rfl, rfl, rfl, rfl⟩

namespace Heap

variable {x y z : Ledger} {n m k : Nat} {h h₁ h₂ h' : Heap} {r s : Handle} {c c' : Cell} {t t₁ t' : Shape}
  {ss : List Handle} {u : Unit}

/-! ## What stays -/

/-- Every body that is there after, but for those under `ss`, was there before, and what `x` holds keeps
its kind. -/
structure Spares (x : Ledger) (ss : List Handle) (h h' : Heap) : Prop where
  bodies : ∀ r b, r ∉ ss → h'.body? r = some b → h.body? r = some b
  kinds : ∀ r k, 0 < x r → h.kind? r = some k → h'.kind? r = some k

/-- The heaps have the same bodies with the same counts. -/
structure SameBodies (h h' : Heap) : Prop where
  calm : Calm h h'
  body : ∀ r, h'.body? r = h.body? r
  count : ∀ r, h'.refCount? r = h.refCount? r

/-- The body `b` under `s` has become `b'`; all else is as it was. -/
structure Rewrites (s : Handle) (b b' : Body) (h h' : Heap) : Prop where
  calm : Calm h h'
  before : h.body? s = some b
  after : h'.body? s = some b'
  others : ∀ r, r ≠ s → h'.body? r = h.body? r
  count : ∀ r, h'.refCount? r = h.refCount? r

/-- The shape `t` under `s` has become `t'`. -/
abbrev Reshapes (s : Handle) (t t' : Shape) (h h' : Heap) : Prop :=
  Rewrites s (.shape t) (.shape t') h h'

theorem kind?_eq_map (h : Heap) (r : Handle) : h.kind? r = (h.body? r).map Body.kind := by
  unfold Heap.kind? Heap.body?
  cases h.cell? r <;> rfl

theorem contains_eq_isSome (h : Heap) (r : Handle) : h.contains r = (h.body? r).isSome := by
  unfold Heap.contains Heap.body?
  cases h.cell? r <;> rfl

theorem contains_of_body? {b : Body} (hb : h.body? r = some b) : h.contains r = true := by
  rw [contains_eq_isSome, hb]
  rfl

/-- A cell that is there after has the body it had. -/
theorem Keeps.body_of_contains (hk : Keeps h h') (hc : h'.contains r = true) {b : Body}
    (hb : h.body? r = some b) : h'.body? r = some b := by
  rw [contains_eq_isSome] at hc
  obtain ⟨b', hb'⟩ := Option.isSome_iff_exists.mp hc
  have := hk.body? hb'
  rw [hb] at this
  rw [hb', ← this]

theorem Keeps.kind_of_contains (hk : Keeps h h') (hc : h'.contains r = true) {k : Kind}
    (hr : h.kind? r = some k) : h'.kind? r = some k := by
  rw [kind?_eq_map] at hr ⊢
  obtain ⟨b, hb, rfl⟩ := Option.map_eq_some_iff.mp hr
  rw [hk.body_of_contains hc hb]
  rfl

namespace Spares

theorem trans (e₁ : Spares x ss h h₁) (e₂ : Spares x ss h₁ h') : Spares x ss h h' :=
  ⟨fun r b hr hb => e₁.bodies r b hr (e₂.bodies r b hr hb),
    fun r k hr hk => e₂.kinds r k hr (e₁.kinds r k hr hk)⟩

theorem mono {tt : List Handle} (e : Spares x ss h h') (hle : ∀ r, 0 < y r → 0 < x r) (hsub : ss ⊆ tt) :
    Spares y tt h h' :=
  ⟨fun r b hr hb => e.bodies r b (fun hs => hr (hsub hs)) hb, fun r k hr hk => e.kinds r k (hle r hr) hk⟩

theorem of_keeps (hk : Keeps h h') (hs : h'.Sound y n) (hle : ∀ r, 0 < x r → 0 < y r) (ss : List Handle) :
    Spares x ss h h' := by
  refine ⟨fun r b _ hb => hk.body? hb, fun r k hr hkind => ?_⟩
  exact hk.kind_of_contains (hs.coherent.counted.owned r (hle r hr)) hkind

theorem of_makes {b : Body} (hm : Makes s b h h') (x : Ledger) : Spares x [s] h h' := by
  refine ⟨fun r b hr hb => ?_, fun r k _ hk => ?_⟩
  · obtain ⟨c', hc', rfl⟩ := body?_eq_some_iff.mp hb
    obtain ⟨c, hc, he⟩ := hm.others r c' (by simpa using hr) hc'
    exact body?_eq_some_iff.mpr ⟨c, hc, he.symm⟩
  · obtain ⟨c, hc, rfl⟩ := kind?_eq_some_iff.mp hk
    obtain ⟨c', hc'⟩ := contains_iff.mp (hm.olds r (contains_of_cell? hc))
    have hrs : r ≠ s := by
      rintro rfl
      rw [hm.fresh] at hc
      cases hc
    obtain ⟨d, hd, he⟩ := hm.others r c' hrs hc'
    rw [hc] at hd
    cases hd
    exact kind?_eq_some_iff.mpr ⟨c', hc', congrArg Body.kind he⟩

theorem of_rewrites {b b' : Body} (e : Rewrites s b b' h h') (hkind : b'.kind = b.kind) (x : Ledger) :
    Spares x [s] h h' := by
  refine ⟨fun r b hr hb => ?_, fun r k _ hk => ?_⟩
  · rw [← e.others r (by simpa using hr), hb]
  · rw [kind?_eq_map] at hk ⊢
    by_cases hr : r = s
    · subst hr
      rw [e.before] at hk
      rw [e.after, ← hk, Option.map_some, Option.map_some, hkind]
    · rw [e.others r hr]
      exact hk

end Spares

/-! ## Layouts -/

/-- The layout `t` may stand under `s`: its entries are in their buckets, and if it is to be shared, its
hash is right and no other shared shape is the same. -/
structure Admits (h : Heap) (s : Handle) (t : Shape) : Prop where
  wired : t.Wired
  consed : t.isHashed = true → t.Consed
  sole : t.isHashed = true → ∀ q t', q ≠ s → h.body? q = some (.shape t') → t'.isHashed = true →
    t'.proto = t.proto → t'.entries ≠ t.entries

/-- Every object has one property per entry of its shape, and every shape is a layout that may stand
where it stands. -/
structure Laid (h : Heap) : Prop where
  fits : ∀ r o t, h.body? r = some (.object o) → h.body? o.shape = some (.shape t) →
    t.entries.size = o.properties.size
  shapes : ∀ s t, h.body? s = some (.shape t) → h.Admits s t

theorem admits_of_unshared (hw : t.Wired) (hreg : t.isHashed = false) : h.Admits s t := by
  refine ⟨hw, fun hshared => ?_, fun hshared => ?_⟩
  · rw [hreg] at hshared
    cases hshared
  · rw [hreg] at hshared
    cases hshared

theorem Admits.mono (ha : h.Admits s t)
    (hshapes : ∀ q t', q ≠ s → h'.body? q = some (.shape t') → h.body? q = some (.shape t')) :
    h'.Admits s t :=
  ⟨ha.wired, ha.consed, fun hreg q t' hq ht' => ha.sole hreg q t' hq (hshapes q t' hq ht')⟩

/-- Layouts stay right as long as no object or shape is made or edited. -/
theorem Laid.of_bodies (hl : h.Laid)
    (hobjects : ∀ r o, h'.body? r = some (.object o) → h.body? r = some (.object o))
    (hshapes : ∀ s t, h'.body? s = some (.shape t) → h.body? s = some (.shape t)) : h'.Laid :=
  ⟨fun r o t ho ht => hl.fits r o t (hobjects r o ho) (hshapes _ t ht),
    fun s t ht => (hl.shapes s t (hshapes s t ht)).mono fun q t' _ => hshapes q t'⟩

theorem Laid.of_keeps (hl : h.Laid) (hk : Keeps h h') : h'.Laid :=
  hl.of_bodies (fun _ _ ho => hk.body? ho) fun _ _ ht => hk.body? ht

theorem Laid.of_same (hl : h.Laid) (e : SameBodies h h') : h'.Laid :=
  hl.of_bodies (fun r _ ho => by rw [← e.body r, ho]) fun s _ ht => by rw [← e.body s, ht]

/-- One shape may be made or edited, if it may stand where it stands. -/
theorem Laid.admits (hl : h.Laid)
    (hback : ∀ q t', q ≠ s → h'.body? q = some (.shape t') → h.body? q = some (.shape t'))
    (ht : h'.body? s = some (.shape t)) (hok : h.Admits s t) :
    ∀ q t', h'.body? q = some (.shape t') → h'.Admits q t' := by
  intro q t' ht'
  by_cases hq : q = s
  · subst hq
    rw [ht] at ht'
    cases ht'
    exact hok.mono hback
  · have hold := hl.shapes q t' (hback q t' hq ht')
    refine ⟨hold.wired, hold.consed, fun hreg q' t'' hq' ht'' hreg' hproto hentries => ?_⟩
    by_cases hq's : q' = s
    · -- of two shared shapes that are the same, one is the shape at hand
      subst hq's
      rw [ht] at ht''
      cases ht''
      exact hok.sole hreg' q t' hq (hback q t' hq ht') hreg hproto.symm hentries.symm
    · exact hold.sole hreg q' t'' hq' (hback q' t'' hq's ht'') hreg' hproto hentries

/-- A new or edited shape has to fit the objects that have it. -/
theorem Laid.of_shape (hl : h.Laid) (e : Spares x [s] h h') (ht : h'.body? s = some (.shape t))
    (hok : h.Admits s t)
    (hfit : ∀ r o, h.body? r = some (.object o) → h'.body? r = some (.object o) → o.shape = s →
      t.entries.size = o.properties.size) : h'.Laid := by
  have hback : ∀ q b, q ≠ s → h'.body? q = some b → h.body? q = some b := fun q b hq =>
    e.bodies q b (by simpa using hq)
  refine ⟨fun r o t' ho ht' => ?_, hl.admits (fun q _ hq => hback q _ hq) ht hok⟩
  have hrs : r ≠ s := by
    rintro rfl
    rw [ht] at ho
    cases ho
  by_cases hos : o.shape = s
  · rw [hos, ht] at ht'
    cases ht'
    exact hfit r o (hback r _ hrs ho) ho hos
  · exact hl.fits r o t' (hback r _ hrs ho) (hback _ _ hos ht')

/-! ## Shapes that are not in the table -/

theorem Tabled.mem_candidates (htab : h.Tabled) (ht : h.body? s = some (.shape t))
    (hreg : t.isHashed = true) : s ∈ h.table.candidates t.hash := by
  have hhash : h.hashOf? s = some t.hash := by simp [hashOf?, ht, Body.hash?, hreg]
  have hmem := htab.tidy.mem_bucket ((htab.mem_iff _ _).mpr hhash)
  exact List.mem_filterMap.mpr ⟨_, hmem, by simp⟩

/-- What is found in the table is shared. -/
theorem Tabled.isHashed_of_candidate {hash : UInt32} (htab : h.Tabled) (ht : h.body? s = some (.shape t))
    (hmem : s ∈ h.table.candidates hash) : t.isHashed = true := by
  obtain ⟨⟨hash', r⟩, hbucket, hr⟩ := List.mem_filterMap.mp hmem
  simp only [Option.ite_none_right_eq_some, Option.some.injEq] at hr
  obtain ⟨rfl, rfl⟩ := hr
  have hhash := (htab.mem_iff _ _).mp (ShapeTable.mem_toList_of_bucket hbucket)
  rw [hashOf?, ht, Option.bind_some, Body.hash?, Option.ite_none_right_eq_some] at hhash
  exact hhash.1

/-- A longer shape that is not found is not shared. -/
theorem Laid.not_extended {atom : Atom} {flags : Flags} (hl : h.Laid) (htab : h.Tabled)
    (ht : h.body? s = some (.shape t)) (hreg : t.isHashed = true)
    (hnone : h.sharedTransition? t atom flags = none) {q : Handle} (ht' : h.body? q = some (.shape t'))
    (hreg' : t'.isHashed = true) (hproto : t'.proto = t.proto) :
    t'.entries ≠ t.entries.push ⟨atom, flags⟩ := by
  intro hentries
  have hhash : t'.hash = Shape.transitionHash t.hash atom flags := by
    rw [((hl.shapes q t' ht').consed hreg').hash, Shape.layoutHash_push hproto hentries,
      ((hl.shapes s t ht).consed hreg).hash]
  have hmem := htab.mem_candidates ht' hreg'
  rw [hhash] at hmem
  have htest := List.find?_eq_none.mp hnone q hmem
  simp [shape?_iff_body?.mpr ht', Shape.isExtendedBy, hproto, hentries] at htest

/-- An empty shape that is not found is not shared. -/
theorem Laid.not_empty {proto : Option Handle} (hl : h.Laid) (htab : h.Tabled)
    (hnone : h.sharedEmpty? proto = none) {q : Handle} (ht' : h.body? q = some (.shape t'))
    (hreg' : t'.isHashed = true) (hproto : t'.proto = proto) : t'.entries ≠ #[] := by
  intro hentries
  have hhash : t'.hash = Shape.initialHash proto := by
    rw [((hl.shapes q t' ht').consed hreg').hash, Shape.layoutHash, hproto, hentries]
    rfl
  have hmem := htab.mem_candidates ht' hreg'
  rw [hhash] at hmem
  have htest := List.find?_eq_none.mp hnone q hmem
  simp [shape?_iff_body?.mpr ht', Shape.isEmpty, hproto, hentries] at htest

/-- Two cells have a share each in a total. -/
theorem add_le_total {f : Cell → Nat} {i j : Nat} (hij : i ≠ j) (hc : h.tenant? i = some c)
    (hc' : h.tenant? j = some c') : f c + f c' ≤ h.total f := by
  rw [total_eq_sum]
  have hsub : ({i, j} : Finset Nat) ⊆ Finset.range h.slots.size := by
    intro k hk
    rcases Finset.mem_insert.mp hk with rfl | hk
    · exact Finset.mem_range.mpr (lt_size_of_tenant hc)
    · rw [Finset.mem_singleton.mp hk]
      exact Finset.mem_range.mpr (lt_size_of_tenant hc')
  calc f c + f c' = ∑ k ∈ ({i, j} : Finset Nat), (h.tenant? k).elim 0 f := by
        rw [Finset.sum_pair hij, hc, hc']
        rfl
    _ ≤ _ := Finset.sum_le_sum_of_subset hsub

/-- Two cells that refer to a third one count. -/
theorem Counted.two_le (hx : h.Counted x) {q : Handle} {d : Cell} (hd : h.cell? s = some d)
    (hc : h.cell? r = some c) (hc' : h.cell? q = some c') (hrq : r ≠ q) (hr : s ∈ c.body.refs)
    (hq : s ∈ c'.body.refs) : x s + 2 ≤ d.refCount := by
  have hij : r.index ≠ q.index := by
    intro hi
    have := handle_eq_of_cell? hc
    rw [hi, handle_eq_of_cell? hc'] at this
    exact hrq this.symm
  have hle : c.body.refs.count s + c'.body.refs.count s ≤ h.heldByCells s :=
    add_le_total (f := fun c => c.body.refs.count s) hij (tenant?_of_cell? hc) (tenant?_of_cell? hc')
  have h₁ := List.count_pos_iff.mpr hr
  have h₂ := List.count_pos_iff.mpr hq
  have hcount := hx.counts s d hd
  unfold held at hcount
  omega

/-- A cell with one reference, which is held outside, is in no body. -/
theorem Counted.unheld (hx : h.Counted (x.plus [s])) (hone : h.refCount? s = some 1) {b : Body}
    (hb : h.body? r = some b) : s ∉ b.refs := by
  intro hmem
  obtain ⟨d, hd, hd1⟩ := refCount?_eq_some_iff.mp hone
  obtain ⟨c, hc, rfl⟩ := body?_eq_some_iff.mp hb
  have hcount := hx.counts s d hd
  have hpos := held_pos_of_mem_refs (tenant?_of_cell? hc) hmem
  simp only [Ledger.plus_apply, List.count_singleton_self, held] at hcount
  omega

/-- A cell with one reference, which is in one body, is in no other. -/
theorem Counted.sole (hx : h.Counted x) (hone : h.refCount? s = some 1) {q : Handle} {b d : Body}
    (hb : h.body? r = some b) (hmem : s ∈ b.refs) (hd : h.body? q = some d) (hq : s ∈ d.refs) : q = r := by
  by_contra hne
  obtain ⟨c, hc, hc1⟩ := refCount?_eq_some_iff.mp hone
  obtain ⟨cr, hcr, rfl⟩ := body?_eq_some_iff.mp hb
  obtain ⟨cq, hcq, rfl⟩ := body?_eq_some_iff.mp hd
  have := hx.two_le hc hcr hcq (Ne.symm hne) hmem hq
  omega

theorem Object.shape_mem_refs (o : Object) : o.shape ∈ (Body.object o).refs := by
  simp [Body.refs, Object.refs]

namespace Rewrites

variable {b b₁ b' : Body}

theorem refl (hb : h.body? s = some b) : Rewrites s b b h h :=
  ⟨.refl h, hb, hb, fun _ _ => rfl, fun _ => rfl⟩

theorem trans (e₁ : Rewrites s b b₁ h h₁) (e₂ : Rewrites s b₁ b' h₁ h') : Rewrites s b b' h h' :=
  ⟨e₁.calm.trans e₂.calm, e₁.before, e₂.after, fun r hr => (e₂.others r hr).trans (e₁.others r hr),
    fun r => (e₂.count r).trans (e₁.count r)⟩

theorem of_same (e : SameBodies h h') (hb : h.body? s = some b) : Rewrites s b b h h' :=
  ⟨e.calm, hb, (e.body s).trans hb, fun r _ => e.body r, e.count⟩

theorem of_updates (hu : Updates s (some { c with body := b' }) h h') (hc : h.cell? s = some c)
    (hb : c.body = b) (hcalm : Calm h h') : Rewrites s b b' h h' := by
  refine ⟨hcalm, body?_eq_some_iff.mpr ⟨c, hc, hb⟩, hu.body_self, fun r hr => hu.body_other hr, fun r => ?_⟩
  unfold Heap.refCount?
  rw [hu.cell]
  split
  · rename_i hr
    rw [hr, hc]
    rfl
  · rfl

end Rewrites

/-- The shape a step starts from is the one the step before ended with. -/
theorem Rewrites.before_eq (e₁ : Reshapes s t t₁ h h₁) {t₂ : Shape} (e₂ : Reshapes s t₂ t' h₁ h') :
    t₂ = t₁ := by
  have := e₂.before
  rw [e₁.after] at this
  cases this
  rfl

theorem SameBodies.of_updates {size : Nat} (hu : Updates s (some { c with size := size }) h h')
    (hc : h.cell? s = some c) (hcalm : Calm h h') : SameBodies h h' := by
  have hcell : ∀ r, (h'.cell? r).map (fun c => (c.body, c.refCount)) =
      (h.cell? r).map fun c => (c.body, c.refCount) := by
    intro r
    rw [hu.cell]
    split
    · rename_i hr
      rw [hr, hc]
      rfl
    · rfl
  refine ⟨hcalm, ?_, ?_⟩
  · intro r
    simpa [Heap.body?, Function.comp_def] using congrArg (Option.map Prod.fst) (hcell r)
  · intro r
    simpa [Heap.refCount?, Function.comp_def] using congrArg (Option.map Prod.snd) (hcell r)

/-! ## Steps on one shape -/

theorem Updates.modifyShapeAt (hc : h.cell? s = some c) (hb : c.body = .shape t) (f : Shape → Shape) :
    Updates s (some { c with body := .shape (f t) }) h (h.modifyShapeAt s.index f) := by
  have hu : Updates s _ h (h.modifyShapeAt s.index f) := Updates.modifyCell hc _
  simp only [hb] at hu
  exact hu

theorem Rewrites.of_modifyShape {f : Shape → Shape} (e : HeapM.modifyShape s f h = .ok (u, h')) :
    ∃ t, Reshapes s t (f t) h h' := by
  obtain ⟨t, c, hc, hb, rfl⟩ := modifyShape_eq_ok e
  exact ⟨t, .of_updates (Updates.modifyShapeAt hc hb f) hc hb (.modifyCell _ _ _)⟩

/-- A shape may be edited as long as its prototype and its place in the table stay. -/
theorem Sound.of_modifyShape {f : Shape → Shape} (hs : h.Sound x n)
    (hf : ∀ t, h.body? s = some (.shape t) →
      (f t).proto = t.proto ∧ (Body.shape (f t)).hash? = (Body.shape t).hash?)
    (e : HeapM.modifyShape s f h = .ok (u, h')) : h'.Sound x n ∧ ∃ t, Reshapes s t (f t) h h' := by
  refine ⟨?_, Rewrites.of_modifyShape e⟩
  obtain ⟨t, c, hc, hb, rfl⟩ := modifyShape_eq_ok e
  obtain ⟨hproto, hhash⟩ := hf t (body?_eq_some_iff.mpr ⟨c, hc, hb⟩)
  have hnames := hs.coherent.counted.bodies s c hc
  rw [hb] at hnames
  refine hs.rebody hc (by simp [hb, Body.kind]) (by simp [hb, Body.isZombie]) (by simp [hb, Body.frame?])
    (by simp [hb, hhash]) ?_ ?_ fun r => ?_
  · simp only [hb, Body.typedRefs, hproto]
    exact hnames
  · simp only [hb]
    exact Body.rested_of_kind (by simp [Body.kind])
  · simp [hb, Body.refs, hproto]

/-- A shape may enter or leave the table. -/
theorem Sound.retable (hs : h.Sound x n) (hc : h.cell? s = some c) (hb : c.body = .shape t)
    (hu : Updates s (some { c with body := .shape t' }) h h') (hproto : t'.proto = t.proto)
    (hrest : h' = { h with slots := h'.slots, table := h'.table }) (htab : h'.Tabled) :
    h'.Sound x n := by
  refine ⟨hs.coherent.retable hu (by rw [hrest]) (by rw [hrest]) hc (by simp [hb, Body.kind]) ?_ ?_ ?_ rfl
    rfl htab (by rw [hrest]) (by rw [hrest]), by rw [hrest]; exact hs.idle,
    by rw [hrest]; exact hs.noneWaiting, hu.forall_tenants (fun d hd => ?_) hs.settled⟩
  · simp [hb, Body.typedRefs, hproto]
  · simp [hb, Body.frame?]
  · exact Body.rested_of_kind (by simp [Body.kind])
  · cases hd
    refine (hs.settled _ c (tenant?_of_cell? hc)).rebody rfl ?_
    rw [hb]
    rfl

theorem Rewrites.of_register (e : HeapM.register s h = .ok (u, h')) :
    ∃ t, t.isHashed = false ∧ Reshapes s t { t with isHashed := true } h h' := by
  obtain ⟨t, c, hc, hb, hreg, rfl⟩ := register_eq_ok e
  have hu := Updates.modifyShapeAt hc hb fun t => { t with isHashed := true }
  exact ⟨t, hreg, .of_updates (hu.then_slots rfl) hc hb
    ⟨rfl, rfl, rfl, rfl, rfl, fun _ => rfl, fun _ => rfl⟩⟩

theorem Sound.of_register (hs : h.Sound x n) (e : HeapM.register s h = .ok (u, h')) :
    h'.Sound x n ∧ ∃ t, t.isHashed = false ∧ Reshapes s t { t with isHashed := true } h h' := by
  refine ⟨?_, Rewrites.of_register e⟩
  obtain ⟨t, c, hc, hb, hreg, rfl⟩ := register_eq_ok e
  have hu : Updates s (some { c with body := .shape { t with isHashed := true } }) h
      { h.modifyShapeAt s.index fun t => { t with isHashed := true } with
        table := h.table.insert t.hash s } :=
    (Updates.modifyShapeAt hc hb fun t => { t with isHashed := true }).then_slots rfl
  refine hs.retable hc hb hu rfl rfl ?_
  refine hs.coherent.tabled.insert ?_ rfl hu.hashOf?_eq
  rw [hashOf?_of_cell? hc, hb]
  simp [Body.hash?, hreg]

theorem Rewrites.of_unregister (e : HeapM.unregister s h = .ok (u, h')) :
    ∃ t, t.isHashed = true ∧ Reshapes s t { t with isHashed := false } h h' := by
  obtain ⟨t, c, table, hc, hb, hreg, _, rfl⟩ := unregister_eq_ok e
  have hu := Updates.modifyShapeAt hc hb fun t => { t with isHashed := false }
  exact ⟨t, hreg, .of_updates (hu.then_slots rfl) hc hb
    ⟨rfl, rfl, rfl, rfl, rfl, fun _ => rfl, fun _ => rfl⟩⟩

theorem Sound.of_unregister (hs : h.Sound x n) (e : HeapM.unregister s h = .ok (u, h')) :
    h'.Sound x n ∧ ∃ t, t.isHashed = true ∧ Reshapes s t { t with isHashed := false } h h' := by
  refine ⟨?_, Rewrites.of_unregister e⟩
  obtain ⟨t, c, table, hc, hb, hreg, herase, rfl⟩ := unregister_eq_ok e
  have hu : Updates s (some { c with body := .shape { t with isHashed := false } }) h
      { h.modifyShapeAt s.index fun t => { t with isHashed := false } with table := table } :=
    (Updates.modifyShapeAt hc hb fun t => { t with isHashed := false }).then_slots rfl
  obtain ⟨htidy, hperm⟩ := hs.coherent.tabled.tidy.of_erase? herase
  refine hs.retable hc hb hu rfl rfl ?_
  refine hs.coherent.tabled.erase ?_ htidy hperm hu.hashOf?_eq
  rw [hashOf?_of_cell? hc, hb]
  simp [Body.hash?, hreg]

/-! ## Sizes -/

/-- The account follows the size of a cell. -/
theorem Sound.resize {size : Nat} (hs : h.Sound x n) (hc : h.cell? s = some c)
    (hu : Updates s (some { c with size := size }) h h')
    (hrest : h' = { h with slots := h'.slots, used := h'.used })
    (hused : h'.used + c.size = h.used + size) : h'.Sound x n := by
  refine hs.edit hu ⟨by rw [hrest], by rw [hrest], by rw [hrest]⟩ hc rfl rfl rfl
    (hs.coherent.counted.bodies s c hc) (hs.coherent.rested s c hc) rfl
    (fun r _ => rfl) (by dsimp only; omega) (by rw [hrest]) ?_ (by rw [hrest]) (by rw [hrest])
  have hset := hs.settled _ c (tenant?_of_cell? hc)
  exact ⟨hset.counted, hset.mark, hset.body, hset.place, hset.unlisted⟩

theorem Sound.of_growCell {arrays : List Request} {res : Except OutOfMemory Unit} (hs : h.Sound x n)
    (hc : h.cell? s = some c) (e : (AllocM.growCell s k arrays).run h = .ok (res, h')) :
    (res = .ok () ∧ h'.Sound x n ∧ SameBodies h h') ∨ (∃ err, res = .error err) ∧ h' = h := by
  obtain ⟨-, hrun⟩ | ⟨err, hrun⟩ := growCell_cases (tenant?_of_cell? hc) k arrays
  · rw [hrun] at e
    cases e
    have hu : Updates s (some { c with size := c.size + k }) h
        (({ h with used := h.used + k } : Heap).modifyCell s.index fun c =>
          { c with size := c.size + k }) :=
      (Updates.modifyCell hc fun c => { c with size := c.size + k }).then_slots rfl
    refine .inl ⟨rfl, hs.resize hc hu rfl ?_,
      .of_updates hu hc ⟨rfl, rfl, rfl, rfl, rfl, fun _ => rfl, fun _ => rfl⟩⟩
    simp only [Heap.modifyCell]
    omega
  · rw [hrun] at e
    cases e
    exact .inr ⟨⟨err, rfl⟩, rfl⟩

theorem Sound.of_unchargeCell (hs : h.Sound x n) (e : HeapM.unchargeCell s k h = .ok (u, h'))
    (hlive : h.contains s = true) : h'.Sound x n ∧ SameBodies h h' := by
  obtain ⟨c, hc⟩ := contains_iff.mp hlive
  unfold HeapM.unchargeCell at e
  obtain ⟨_, h₁, e₁, e⟩ := HeapM.bind_eq_ok e
  obtain ⟨hle, rfl⟩ := uncharge_eq_ok e₁
  obtain ⟨d, h₂, e₂, e⟩ := HeapM.bind_eq_ok e
  obtain ⟨hd, he⟩ := HeapM.read_eq_ok e₂
  subst h₂
  have ht : h.tenant? s.index = some d := cellAt_eq_ok_iff.mp hd
  rw [tenant?_of_cell? hc] at ht
  cases ht
  split at e
  · cases e
  · rename_i hsize
    cases HeapM.modify_eq_ok e
    have hu : Updates s (some { c with size := c.size - k }) h
        (({ h with used := h.used - k } : Heap).modifyCell s.index fun c =>
          { c with size := c.size - k }) :=
      (Updates.modifyCell hc fun c => { c with size := c.size - k }).then_slots rfl
    refine ⟨hs.resize hc hu rfl ?_, .of_updates hu hc ⟨rfl, rfl, rfl, rfl, rfl, fun _ => rfl, fun _ => rfl⟩⟩
    simp only [Heap.modifyCell]
    omega

/-! ## Extending a shape -/

theorem Sound.of_growShape {count : Nat} {res : Except OutOfMemory Unit} (hs : h.Sound x n)
    (e : (AllocM.growShape s count).run h = .ok (res, h')) :
    (res = .ok () ∧ h'.Sound x n ∧ ∃ t capacity, Reshapes s t (t.grow capacity) h h') ∨
      (∃ err, res = .error err) ∧ h' = h := by
  unfold AllocM.growShape at e
  obtain ⟨t, h₁, e₁, e⟩ := AllocM.lift_bind_eq_ok e
  obtain ⟨ht, rfl⟩ := shape_eq_ok e₁
  obtain ⟨c, hc, _⟩ := body?_eq_some_iff.mp ht
  rcases AllocM.bind_eq_ok e with ⟨_, h₂, e₂, e⟩ | ⟨err, e₂, rfl⟩
  · rcases hs.of_growCell hc e₂ with ⟨_, hs₂, hsame⟩ | ⟨⟨err, he⟩, _⟩
    · obtain ⟨_, e₃, rfl⟩ := AllocM.lift_eq_ok e
      obtain ⟨hs', t', hre⟩ := hs₂.of_modifyShape (fun t _ => by
        obtain ⟨hproto, _, hreg, hhash⟩ := t.grow_fields (Shape.grownCapacity _ count)
        exact ⟨hproto, by simp only [Body.hash?, hreg, hhash]⟩) e₃
      have hfirst := Rewrites.of_same hsame ht
      obtain rfl := hfirst.before_eq hre
      exact .inl ⟨rfl, hs', t', _, hfirst.trans hre⟩
    · cases he
  · rcases hs.of_growCell hc e₂ with ⟨he, _⟩ | ⟨_, rfl⟩
    · cases he
    · exact .inr ⟨⟨err, rfl⟩, rfl⟩

/-- The last step of an extension adds the entry. -/
theorem Sound.of_push {atom : Atom} {flags : Flags} (hs : h.Sound x n)
    (e : HeapM.modifyShape s (·.push atom flags) h = .ok (u, h')) :
    h'.Sound x n ∧ ∃ t, Reshapes s t (t.push atom flags) h h' :=
  hs.of_modifyShape (fun _ _ => ⟨rfl, rfl⟩) e

/-- A shape that was in the table goes back under its new hash, and then gets its entry. -/
theorem Sound.of_rehash {atom : Atom} {flags : Flags} {hash : UInt32} {count : Nat}
    {res : Except OutOfMemory Nat} (hs : h.Sound x n) (ht : h.body? s = some (.shape t))
    (hreg : t.isHashed = false)
    (e : ((liftM (HeapM.modifyShape s fun t => { t with hash := hash }) : AllocM Unit) >>= fun _ =>
      (liftM (HeapM.register s) : AllocM Unit) >>= fun _ =>
      (liftM (HeapM.modifyShape s (·.push atom flags)) : AllocM Unit) >>= fun _ => pure count).run h =
      .ok (res, h')) :
    res = .ok count ∧ h'.Sound x n ∧
      Reshapes s t ({ t with hash := hash, isHashed := true }.push atom flags) h h' := by
  obtain ⟨_, h₁, e₁, e⟩ := AllocM.lift_bind_eq_ok e
  obtain ⟨_, h₂, e₂, e⟩ := AllocM.lift_bind_eq_ok e
  obtain ⟨_, h₃, e₃, e⟩ := AllocM.lift_bind_eq_ok e
  obtain ⟨hs₁, t₁, hre₁⟩ := hs.of_modifyShape (fun t' ht' => by
    rw [ht] at ht'
    cases ht'
    exact ⟨rfl, by simp [Body.hash?, hreg]⟩) e₁
  obtain ⟨hs₂, t₂, _, hre₂⟩ := hs₁.of_register e₂
  obtain ⟨hs₃, t₃, hre₃⟩ := hs₂.of_push e₃
  obtain ⟨rfl, rfl⟩ := AllocM.pure_eq_ok e
  obtain rfl := (Rewrites.refl ht).before_eq hre₁
  obtain rfl := hre₁.before_eq hre₂
  obtain rfl := hre₂.before_eq hre₃
  exact ⟨rfl, hs₃, (hre₁.trans hre₂).trans hre₃⟩

/-- A shape that is not in the table just gets its entry. -/
theorem Sound.of_push_pure {atom : Atom} {flags : Flags} {count : Nat} {res : Except OutOfMemory Nat}
    (hs : h.Sound x n) (ht : h.body? s = some (.shape t))
    (e : ((liftM (HeapM.modifyShape s (·.push atom flags)) : AllocM Unit) >>= fun _ => pure count).run h =
      .ok (res, h')) : res = .ok count ∧ h'.Sound x n ∧ Reshapes s t (t.push atom flags) h h' := by
  obtain ⟨_, h₁, e₁, e⟩ := AllocM.lift_bind_eq_ok e
  obtain ⟨hs₁, t₁, hre₁⟩ := hs.of_push e₁
  obtain ⟨rfl, rfl⟩ := AllocM.pure_eq_ok e
  obtain rfl := (Rewrites.refl ht).before_eq hre₁
  exact ⟨rfl, hs₁, hre₁⟩

/-- `t'` is `t` with one more entry, and in the table if `t` was. -/
structure Extended (atom : Atom) (flags : Flags) (t t' : Shape) : Prop where
  proto : t'.proto = t.proto
  entries : t'.entries = t.entries.push ⟨atom, flags⟩
  isHashed : t'.isHashed = t.isHashed

/-- The entry was added in place, and the hash follows if it is one to be shared under. -/
structure Stretched (atom : Atom) (flags : Flags) (t t' : Shape) : Prop extends
    Extended atom flags t t' where
  holes : t'.holes = t.holes
  wired : t.Wired → t'.Wired
  hash : t'.hash = if t.isHashed then Shape.transitionHash t.hash atom flags else t.hash

theorem Stretched.of_grow {atom : Atom} {flags : Flags} {capacity : Nat}
    (hext : Stretched atom flags (t.grow capacity) t') : Stretched atom flags t t' := by
  obtain ⟨hproto, hentries, hreg, hhash, hholes⟩ := t.grow_fields capacity
  refine ⟨⟨hext.proto.trans hproto, hentries ▸ hext.entries, hext.isHashed.trans hreg⟩,
    hext.holes.trans hholes, fun hw => hext.wired (hw.grow capacity), ?_⟩
  rw [hext.hash, hreg, hhash]

/-- A shape outside the table just gets the entry. -/
theorem stretched_push (atom : Atom) (flags : Flags) (hreg : t.isHashed = false) :
    Stretched atom flags t (t.push atom flags) := by
  refine ⟨⟨rfl, rfl, rfl⟩, rfl, fun hw => hw.push atom flags, ?_⟩
  simp [Shape.push, hreg]

/-- A shape that was taken out of the table, and grown maybe, goes back under the new hash. -/
theorem stretched_rehash {atom : Atom} {flags : Flags} (hreg : t.isHashed = true) (hproto : t₁.proto = t.proto)
    (hentries : t₁.entries = t.entries) (hholes : t₁.holes = t.holes) (hw : t.Wired → t₁.Wired) :
    Stretched atom flags t (({ t₁ with
      hash := Shape.transitionHash t.hash atom flags, isHashed := true } : Shape).push atom flags) := by
  refine ⟨⟨hproto, ?_, hreg.symm⟩, hholes, fun hwt => ?_, ?_⟩
  · rw [← hentries]
    rfl
  · refine Shape.Wired.push ?_ atom flags
    exact (hw hwt).of_eq rfl rfl
  · simp [Shape.push, hreg]

/-- A shape gets one more entry, or memory runs out and it is as it was. -/
theorem Sound.of_extendShape {atom : Atom} {flags : Flags} {res : Except OutOfMemory Nat}
    (hs : h.Sound x n) (e : (AllocM.extendShape s atom flags).run h = .ok (res, h')) :
    h'.Sound x n ∧ ∃ t, (∃ t', res = .ok t.entries.size ∧ Reshapes s t t' h h' ∧ Stretched atom flags t t') ∨
      (∃ err, res = .error err) ∧ Reshapes s t t h h' := by
  obtain ⟨t, h₁, e₁, e⟩ := AllocM.lift_bind_eq_ok e
  obtain ⟨ht, rfl⟩ := shape_eq_ok e₁
  dsimp only at e
  generalize hcount : t.entries.size = count at e
  cases hreg : t.isHashed with
  | false =>
    simp only [hreg, Bool.false_eq_true, if_false] at e
    split at e
    · rcases AllocM.bind_eq_ok e with ⟨_, h₂, e₂, e⟩ | ⟨err, e₂, rfl⟩
      · rcases AllocM.tryCatch_eq_ok e₂ with ⟨_, e₃, _⟩ | ⟨_, _, _, e₃⟩
        · rcases hs.of_growShape e₃ with ⟨_, hs₂, t₂, capacity, hre⟩ | ⟨⟨err, he⟩, _⟩
          · obtain rfl := (Rewrites.refl ht).before_eq hre
            obtain ⟨rfl, hs', hre'⟩ := hs₂.of_push_pure hre.after e
            refine ⟨hs', t₂, .inl ⟨_, hcount ▸ rfl, hre.trans hre', .of_grow (stretched_push _ _ ?_)⟩⟩
            exact (t₂.grow_fields capacity).2.2.1.trans hreg
          · cases he
        · cases e₃
      · rcases AllocM.tryCatch_eq_ok e₂ with ⟨_, _, hres⟩ | ⟨err', h₃, e₃, e₄⟩
        · cases hres
        · obtain ⟨_, rfl⟩ := AllocM.throw_eq_ok e₄
          rcases hs.of_growShape e₃ with ⟨he, _⟩ | ⟨_, rfl⟩
          · cases he
          · exact ⟨hs, t, .inr ⟨⟨err, rfl⟩, .refl ht⟩⟩
    · obtain ⟨rfl, hs', hre'⟩ := hs.of_push_pure ht e
      exact ⟨hs', t, .inl ⟨_, hcount ▸ rfl, hre', stretched_push _ _ hreg⟩⟩
  | true =>
    simp only [hreg, if_true] at e
    obtain ⟨_, h₂, e₂, e⟩ := AllocM.lift_bind_eq_ok e
    obtain ⟨hs₂, t₂, _, hre₂⟩ := hs.of_unregister e₂
    obtain rfl := (Rewrites.refl ht).before_eq hre₂
    split at e
    · rcases AllocM.bind_eq_ok e with ⟨_, h₃, e₃, e⟩ | ⟨err, e₃, rfl⟩
      · rcases AllocM.tryCatch_eq_ok e₃ with ⟨_, e₄, _⟩ | ⟨_, _, _, e₄⟩
        · rcases hs₂.of_growShape e₄ with ⟨_, hs₃, t₃, capacity, hre₃⟩ | ⟨⟨err, he⟩, _⟩
          · obtain rfl := hre₂.before_eq hre₃
            obtain ⟨hproto, hentries, hhashed, _, hholes⟩ :=
              ({ t₂ with isHashed := false } : Shape).grow_fields capacity
            obtain ⟨rfl, hs', hre'⟩ := hs₃.of_rehash hre₃.after hhashed e
            refine ⟨hs', t₂, .inl ⟨_, hcount ▸ rfl, (hre₂.trans hre₃).trans hre',
              stretched_rehash hreg hproto hentries hholes fun hw => ?_⟩⟩
            exact (hw.of_eq rfl rfl : ({ t₂ with isHashed := false } : Shape).Wired).grow capacity
          · cases he
        · obtain ⟨_, _, _, e₄⟩ := AllocM.lift_bind_eq_ok e₄
          cases e₄
      · rcases AllocM.tryCatch_eq_ok e₃ with ⟨_, _, hres⟩ | ⟨_, h₄, e₄, e₅⟩
        · cases hres
        · obtain ⟨_, h₅, e₅, e₆⟩ := AllocM.lift_bind_eq_ok e₅
          obtain ⟨_, rfl⟩ := AllocM.throw_eq_ok e₆
          rcases hs₂.of_growShape e₄ with ⟨he, _⟩ | ⟨_, rfl⟩
          · cases he
          · obtain ⟨hs', t₅, _, hre₅⟩ := hs₂.of_register e₅
            obtain rfl := hre₂.before_eq hre₅
            have hback := hre₂.trans hre₅
            refine ⟨hs', t₂, .inr ⟨⟨err, rfl⟩, ?_⟩⟩
            have hsame : ({ t₂ with isHashed := true } : Shape) = t₂ := by rw [← hreg]
            rw [← hsame] at hback ⊢
            exact hback
    · obtain ⟨rfl, hs', hre'⟩ := hs₂.of_rehash hre₂.after rfl e
      exact ⟨hs', t₂, .inl ⟨_, hcount ▸ rfl, hre₂.trans hre',
        stretched_rehash hreg rfl rfl rfl fun hw => hw.of_eq rfl rfl⟩⟩

/-- An extended shape may stand anywhere if it was not shared yet. -/
theorem Stretched.admits {atom : Atom} {flags : Flags} (hext : Stretched atom flags t t') (hl : h.Laid)
    (htab : h.Tabled) (ht : h.body? s = some (.shape t))
    (hnone : t.isHashed = true → h.sharedTransition? t atom flags = none) {r : Handle} :
    h.Admits r t' := by
  have hold := hl.shapes s t ht
  refine ⟨hext.wired hold.wired, fun hreg' => ?_, fun hreg' q t'' _ ht'' hreg'' hproto hentries => ?_⟩
  · have hreg : t.isHashed = true := hext.isHashed ▸ hreg'
    refine ⟨?_, hext.holes.trans (hold.consed hreg).whole⟩
    rw [hext.hash, if_pos hreg, (hold.consed hreg).hash, Shape.layoutHash_push hext.proto hext.entries]
  · have hreg : t.isHashed = true := hext.isHashed ▸ hreg'
    exact hl.not_extended htab ht hreg (hnone hreg) ht'' hreg'' (hproto.trans hext.proto)
      (hentries.trans hext.entries)

/-! ## Making a shape -/

/-- The ledger owns the shape `t` under `s`, which was there before or is nobody else's; all else is as
before or gone. -/
structure Provides (x : Ledger) (n : Nat) (s : Handle) (t : Shape) (h h' : Heap) : Prop where
  sound : h'.Sound (x.plus [s]) n
  shape : h'.body? s = some (.shape t)
  spares : Spares x [s] h h'
  laid : h.Laid → h'.Laid
  sole : h.body? s = some (.shape t) ∨ h'.refCount? s = some 1

/-- The shape is new, and nobody else has it. -/
structure Creates (x : Ledger) (n : Nat) (s : Handle) (t : Shape) (h h' : Heap) : Prop where
  sound : h'.Sound (x.plus [s]) n
  shape : h'.body? s = some (.shape t)
  spares : Spares x [s] h h'
  count : h'.refCount? s = some 1

namespace Creates

theorem laid (e : Creates x n s t h h') (hl : h.Laid) (hok : h.Admits s t) : h'.Laid :=
  hl.of_shape e.spares e.shape hok fun _ o _ ho hos =>
    absurd (hos ▸ Object.shape_mem_refs o) (e.sound.coherent.counted.unheld e.count ho)

theorem provides (e : Creates x n s t h h') (hok : h.Laid → h.Admits s t) : Provides x n s t h h' :=
  ⟨e.sound, e.shape, e.spares, fun hl => e.laid hl (hok hl), .inr e.count⟩

/-- A new shape may be edited. -/
theorem reshape (e : Creates x n s t h h₁) (hre : Reshapes s t t' h₁ h')
    (hs : h'.Sound (x.plus [s]) n) : Creates x n s t' h h' :=
  ⟨hs, hre.after, e.spares.trans (.of_rewrites hre rfl x), (hre.count s).trans e.count⟩

end Creates

/-- Taking references makes no cell and frees none. -/
theorem contains_retainOption {o : Option Handle} (e : HeapM.retainOption o h = .ok (u, h')) (r : Handle) :
    h'.contains r = h.contains r := by
  cases o with
  | none =>
    obtain ⟨_, rfl⟩ := HeapM.pure_eq_ok e
    rfl
  | some s =>
    have e : HeapM.retain s h = .ok (u, h') := e
    unfold HeapM.retain at e
    split at e
    · rename_i c hc
      cases e
      exact (Updates.modifyCell hc fun c => { c with refCount := c.refCount + 1 }).contains hc r
    · cases e

/-- A shape is made of bytes set apart and of a reference to its prototype. -/
theorem Sound.installShape {p : Reservation} (hs : h.Sound x (n + p.size)) (hreg : t.isHashed = false)
    (hproto : h.Names (t.proto.toList.map (·, .object)))
    (e₁ : HeapM.retainOption t.proto h = .ok (u, h₁))
    (e₂ : HeapM.install p (.shape t) true h₁ = .ok (s, h')) :
    Creates x n s t h h' ∧ ∀ r b, h.body? r = some b → r ≠ s ∧ h'.body? r = some b := by
  obtain ⟨hs₁, hk₁, hlive⟩ := hs.retainOption e₁
  have hnames : h₁.Names (Body.shape t).typedRefs := by
    intro q hq
    obtain ⟨r, hr, rfl⟩ := List.mem_map.mp hq
    refine hk₁.kind_of_contains (hs₁.coherent.counted.owned r ?_) (hproto _ hq)
    have := List.count_pos_iff.mpr hr
    simp only [Ledger.plus_apply]
    omega
  obtain ⟨hs', hm⟩ := Sound.install (z := x) (.shape t) hs₁ hnames
    (Body.rested_of_kind (by simp [Body.kind])) rfl rfl (by simp [Body.hash?, hreg]) e₂
  have hsp := (Spares.of_keeps hk₁ hs₁ (fun r hr => by simp; omega) [s]).trans (.of_makes hm x)
  refine ⟨⟨hs', hm.body, hsp, hm.count⟩, fun r b hb => ?_⟩
  have hr : h₁.contains r = true := by
    rw [contains_retainOption e₁, contains_eq_isSome, hb]
    rfl
  have hrs : r ≠ s := by
    rintro rfl
    simp [Heap.contains, hm.fresh] at hr
  refine ⟨hrs, ?_⟩
  have hafter := hm.olds r hr
  rw [contains_eq_isSome] at hafter
  obtain ⟨b', hb'⟩ := Option.isSome_iff_exists.mp hafter
  have := hsp.bodies r b' (by simpa using hrs) hb'
  rw [hb] at this
  rw [hb', ← this]

theorem Sound.of_newShape {proto : Option Handle} {res : Except OutOfMemory Handle} (hs : h.Sound x n)
    (hproto : h.Names (proto.toList.map (·, .object)))
    (e : (AllocM.newShape proto).run h = .ok (res, h')) :
    (∃ s, res = .ok s ∧ Creates x n s { Shape.initial proto with isHashed := true } h h') ∨
      (∃ err, res = .error err) ∧ h'.Sound x n ∧ Keeps h h' := by
  rcases AllocM.bind_eq_ok e with ⟨p, h₁, e₁, e⟩ | ⟨err, e₁, rfl⟩
  · obtain ⟨hk₁, ⟨q, he, hsize, hs₁⟩ | ⟨⟨err, he⟩, _⟩⟩ := hs.of_reserve e₁
    · cases he
      obtain ⟨_, h₂, e₂, e⟩ := AllocM.lift_bind_eq_ok e
      obtain ⟨s, h₃, e₃, e⟩ := AllocM.lift_bind_eq_ok e
      obtain ⟨_, h₄, e₄, e⟩ := AllocM.lift_bind_eq_ok e
      obtain ⟨rfl, rfl⟩ := AllocM.pure_eq_ok e
      obtain ⟨_, _, hlive⟩ := hs₁.retainOption e₂
      have hproto₁ : h₁.Names ((Shape.initial proto).proto.toList.map (·, .object)) := by
        intro q hq
        obtain ⟨r, hr, rfl⟩ := List.mem_map.mp hq
        exact hk₁.kind_of_contains (hlive r (Option.mem_toList.mp hr)) (hproto _ hq)
      rw [← hsize] at hs₁
      obtain ⟨hnew, _⟩ := hs₁.installShape (t := .initial proto) rfl hproto₁ e₂ e₃
      obtain ⟨hs₄, t, _, hre⟩ := hnew.sound.of_register e₄
      have ht := hre.before
      rw [hnew.shape] at ht
      cases ht
      have hwhole := hnew.reshape hre hs₄
      exact .inl ⟨s, rfl, hwhole.sound, hwhole.shape,
        (Spares.of_keeps hk₁ hs₁ (fun _ hr => hr) [s]).trans hwhole.spares, hwhole.count⟩
    · cases he
  · obtain ⟨hk₁, ⟨q, he, _⟩ | ⟨_, hs₁⟩⟩ := hs.of_reserve e₁
    · cases he
    · exact .inr ⟨⟨err, rfl⟩, hs₁, hk₁⟩

/-- A shape without entries is found in the table or made. -/
theorem Sound.of_shapeForNewObject {proto : Option Handle} {res : Except OutOfMemory Handle}
    (hs : h.Sound x n) (hproto : h.Names (proto.toList.map (·, .object)))
    (e : (AllocM.shapeForNewObject proto).run h = .ok (res, h')) :
    (∃ s t, res = .ok s ∧ t.proto = proto ∧ t.entries = #[] ∧ t.isHashed = true ∧ Provides x n s t h h') ∨
      (∃ err, res = .error err) ∧ h'.Sound x n ∧ Keeps h h' := by
  unfold AllocM.shapeForNewObject at e
  rw [AllocM.get_bind] at e
  cases hfound : h.sharedEmpty? proto with
  | some s =>
    rw [hfound] at e
    obtain ⟨_, h₁, e₁, e⟩ := AllocM.lift_bind_eq_ok e
    obtain ⟨rfl, rfl⟩ := AllocM.pure_eq_ok e
    obtain ⟨hs₁, hk₁, hlive⟩ := hs.retain e₁
    have htest := List.find?_some hfound
    cases ht : h.shape? s with
    | none => simp [ht] at htest
    | some t =>
      simp only [ht, Shape.isEmpty, Bool.and_eq_true, beq_iff_eq, Array.isEmpty_iff] at htest
      have hkind := hk₁.body_of_contains (hs₁.coherent.counted.owned s (by simp)) (shape?_iff_body?.mp ht)
      have hreg := hs.coherent.tabled.isHashed_of_candidate (shape?_iff_body?.mp ht)
        (List.mem_of_find?_eq_some hfound)
      exact .inl ⟨s, t, rfl, htest.1, htest.2, hreg, hs₁, hkind,
        .of_keeps hk₁ hs₁ (fun _ hr => by simp; omega) _, fun hl => hl.of_keeps hk₁,
        .inl (shape?_iff_body?.mp ht)⟩
  | none =>
    rw [hfound] at e
    rcases hs.of_newShape hproto e with ⟨s, rfl, hnew⟩ | herr
    · refine .inl ⟨s, _, rfl, rfl, rfl, rfl, hnew.provides fun hl => ?_⟩
      refine ⟨(Shape.wired_initial proto).of_eq rfl rfl, fun _ => ⟨rfl, rfl⟩, fun _ q t' _ ht' hreg' hp => ?_⟩
      exact hl.not_empty hs.coherent.tabled hfound ht' hreg' hp
    · exact .inr herr

end Heap

end ObjectMemory
