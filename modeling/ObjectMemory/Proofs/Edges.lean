import ObjectMemory.Proofs.Freeing
import ObjectMemory.Heap.Collector
set_option autoImplicit false

/-!
# The graph of the tracked cells

The collector walks edges, which are the references of a body without those to attached variables
(`Heap.edges_perm`).  Seen by slot, the edges of all tracked cells make up what cells hold of each other
(`Heap.count_flatMap_kids`), so a count without them is what is held outside (`Heap.outside`).

The passes of a collection that only move counts, marks and places leave a heap that `Heap.Shadows` the
one they started from: same bodies, same handles, same edges.
-/

namespace ObjectMemory.Heap

variable {x : Ledger} {n : Nat} {h₀ h h₁ h' : Heap} {r : Handle} {c d : Cell} {i j : Nat}

/-! ## Edges are references -/

/-- The handle is not one of an attached variable. -/
def isTracked (h : Heap) (r : Handle) : Bool := (h.frameOf? r).isNone

theorem isTracked_of_kind {k : Kind} (hr : h.kind? r = some k) (hk : k ≠ .captured) :
    h.isTracked r = true := by
  obtain ⟨c, hc, hck⟩ := kind?_eq_some_iff.mp hr
  have hframe : c.body.frame? = none := Body.frame?_eq_none_of_kind (by rw [← hck] at hk; exact hk)
  simp [isTracked, frameOf?_of_cell? hc, hframe]

/-- References to cells of other kinds than variables are all edges. -/
theorem filter_isTracked {ps : List (Handle × Kind)} (hn : h.Names ps)
    (hk : ∀ p ∈ ps, p.2 ≠ .captured) : (ps.map (·.1)).filter h.isTracked = ps.map (·.1) := by
  rw [List.filter_eq_self]
  intro r hr
  obtain ⟨p, hp, rfl⟩ := List.mem_map.mp hr
  exact isTracked_of_kind (hn p hp) (hk p hp)

theorem isDetached_eq (hr : h.kind? r = some .captured) (hz : ∀ c, h.cell? r = some c →
    c.body.isZombie = false) : h.isDetached r = h.isTracked r := by
  obtain ⟨c, hc, hk⟩ := kind?_eq_some_iff.mp hr
  have hbody := hz c hc
  unfold Cell.kind at hk
  unfold isDetached isTracked
  rw [frameOf?_of_cell? hc]
  cases hb : c.body with
  | captured v =>
    rw [captured?_eq_some_iff.mpr ⟨c, hc, hb⟩]
    cases v <;> rfl
  | zombie k =>
    rw [hb] at hbody
    cases hbody
  | _ =>
    rw [hb] at hk
    cases hk

/-- No cell is finalized. -/
def NoZombies (h : Heap) : Prop := ∀ r c, h.cell? r = some c → c.body.isZombie = false

theorem Names.append_iff {ps qs : List (Handle × Kind)} :
    h.Names (ps ++ qs) ↔ h.Names ps ∧ h.Names qs := by
  unfold Names
  simp only [List.mem_append, or_imp, forall_and]

theorem typedRef?_kind {v : Value} {p : Handle × Kind} (hp : v.typedRef? = some p) :
    p.2 ≠ .captured := by
  cases v <;> simp only [Value.typedRef?, Option.some.injEq, reduceCtorEq] at hp <;> subst hp <;>
    simp

theorem filterMap_typedRef?_kind {vs : List Value} {p : Handle × Kind}
    (hp : p ∈ vs.filterMap Value.typedRef?) : p.2 ≠ .captured := by
  obtain ⟨v, _, hv⟩ := List.mem_filterMap.mp hp
  exact typedRef?_kind hv

theorem propertyEdges_eq {p : Property} (hz : h.NoZombies) (hn : h.Names p.typedRefs) :
    h.propertyEdges p = p.refs.filter h.isTracked := by
  rw [← Property.map_typedRefs]
  cases p with
  | value v =>
    rw [filter_isTracked hn, Property.map_typedRefs]
    · rfl
    · intro q hq
      exact typedRef?_kind (Option.mem_toList.mp hq)
  | accessor getter setter =>
    rw [filter_isTracked hn, Property.map_typedRefs]
    · rfl
    · intro q hq
      obtain ⟨s, _, rfl⟩ := List.mem_map.mp hq
      simp
  | captured r =>
    have hr : h.kind? r = some .captured := hn (r, .captured) (List.mem_singleton.mpr rfl)
    simp [propertyEdges, isDetached_eq hr (hz r), Property.typedRefs, List.filter_cons]

theorem payloadEdges_eq {p : Payload} (hz : h.NoZombies) (hn : h.Names p.typedRefs) :
    h.payloadEdges p = p.refs.filter h.isTracked := by
  cases p with
  | ordinary => rfl
  | array elements capacity =>
    rw [← Payload.map_typedRefs, filter_isTracked hn, Payload.map_typedRefs]
    · rfl
    · exact fun q hq => filterMap_typedRef?_kind hq
  | closure bytecode captured home =>
    have hcode := hn (bytecode, .bytecode) List.mem_cons_self
    have hrest : h.Names (captured.toList.map (·, Kind.captured) ++ home.toList.map (·, Kind.object)) :=
      fun q hq => hn q (List.mem_cons_of_mem _ hq)
    obtain ⟨hcap, hhome⟩ := Names.append_iff.mp hrest
    have hcaptured : captured.toList.filter h.isDetached = captured.toList.filter h.isTracked := by
      refine List.filter_congr fun r hr => isDetached_eq ?_ (hz r)
      exact hcap (r, .captured) (List.mem_map.mpr ⟨r, hr, rfl⟩)
    have hh : home.toList.filter h.isTracked = home.toList := by
      rw [List.filter_eq_self]
      intro r hr
      exact isTracked_of_kind (hhome (r, .object) (List.mem_map.mpr ⟨r, hr, rfl⟩)) (by simp)
    simp [payloadEdges, Payload.refs, isTracked_of_kind hcode, hcaptured, hh]

/-- The edges of a body are its references to tracked cells. -/
theorem edges_perm {b : Body} (hz : h.NoZombies) (hn : h.Names b.typedRefs) (hrest : b.Rested) :
    (h.edges b).Perm (b.refs.filter h.isTracked) := by
  -- a body that refers to no variable has all its references for edges
  have hplain : (∀ p ∈ b.typedRefs, p.2 ≠ .captured) → b.refs.filter h.isTracked = b.refs := by
    intro hk
    rw [← Body.map_typedRefs]
    exact filter_isTracked hn hk
  cases b with
  | object o =>
    have hno : h.Names o.typedRefs := hn
    unfold Object.typedRefs at hno
    obtain ⟨hno, hshape⟩ := Names.append_iff.mp hno
    obtain ⟨hprops, hpay⟩ := Names.append_iff.mp hno
    have hs := isTracked_of_kind (hshape (o.shape, .shape) (List.mem_singleton.mpr rfl)) (by simp)
    have hpe : o.properties.toList.flatMap h.propertyEdges =
        (o.properties.toList.flatMap Property.refs).filter h.isTracked := by
      rw [List.filter_flatMap]
      refine List.flatMap_congr fun p hp => propertyEdges_eq hz fun q hq => hprops q ?_
      exact List.mem_flatMap.mpr ⟨p, hp, hq⟩
    simp only [edges, Body.refs, Object.refs, List.filter_append, ← hpe, ← payloadEdges_eq hz hpay]
    simp only [List.filter_cons, hs, if_true, List.filter_nil]
    exact (List.perm_append_singleton _ _).symm
  | bytecode b =>
    rw [hplain]
    · exact .refl _
    · intro p hp
      rcases List.mem_append.mp hp with hp | hp
      · exact filterMap_typedRef?_kind hp
      · obtain ⟨s, _, rfl⟩ := List.mem_map.mp hp
        simp
  | captured v =>
    rw [hplain]
    · exact .refl _
    · intro p hp
      cases v with
      | attached id slot => cases hp
      | detached v => exact typedRef?_kind (Option.mem_toList.mp hp)
  | suspension s =>
    rw [hplain fun p hp => filterMap_typedRef?_kind hp]
    simp only [edges, Body.refs, Suspension.refs, Suspension.contents, suspensionEdges]
    rw [← List.cons_append, List.filterMap_append]
    by_cases hactive : s.active = true
    · rw [if_pos hactive]
    · rw [if_neg hactive, hrest s rfl (by simpa using hactive)]
  | shape s =>
    rw [hplain]
    · exact .refl _
    · intro p hp
      obtain ⟨s, _, rfl⟩ := List.mem_map.mp hp
      simp
  | realm r =>
    rw [hplain]
    · simp only [edges, Body.refs, Realm.refs]
      refine .cons _ ?_
      exact (List.perm_append_comm : ([r.objectProto] ++ _).Perm _)
    · intro p hp
      simp only [Body.typedRefs, List.mem_cons, List.not_mem_nil, or_false] at hp
      rcases hp with rfl | rfl | rfl | rfl | rfl <;> simp
  | zombie k => exact .refl _

/-! ## Edges by slot -/

/-- The slots at the other end of the edges of the cell in a slot. -/
def kids (h : Heap) (i : Nat) : List Nat :=
  (h.tenant? i).elim [] fun c => (h.edges c.body).map (·.index)

/-- The count of the cell in a slot. -/
def countAt (h : Heap) (i : Nat) : Nat := (h.tenant? i).elim 0 (·.refCount)

/-- The cell in a slot is marked. -/
def markAt (h : Heap) (i : Nat) : Bool := (h.tenant? i).elim false (·.mark)

theorem countAt_of_tenant (hc : h.tenant? i = some c) : h.countAt i = c.refCount := by
  rw [countAt, hc]
  rfl

theorem markAt_of_tenant (hc : h.tenant? i = some c) : h.markAt i = c.mark := by
  rw [markAt, hc]
  rfl

theorem placeAt?_of_tenant (hc : h.tenant? i = some c) : h.placeAt? i = some c.place := by
  rw [placeAt?_eq, hc]
  rfl

theorem childrenAt_eq (hc : h.tenant? i = some c) : h.childrenAt i = .ok (h.kids i) := by
  unfold childrenAt kids
  rw [cellAt_eq_ok_iff.mpr hc, hc]
  rfl

/-- The references of a list to one cell, counted by handle and by slot. -/
theorem count_map_index {rs : List Handle} (hlive : ∀ r ∈ rs, h.contains r = true) (i : Nat) :
    (rs.map (·.index)).count i = rs.count (h.handle i) := by
  induction rs with
  | nil => rfl
  | cons r rest ih =>
    obtain ⟨c, hc⟩ := contains_iff.mp (hlive r List.mem_cons_self)
    have hr := handle_eq_of_cell? hc
    rw [List.map_cons, List.count_cons, List.count_cons,
      ih fun s hs => hlive s (List.mem_cons_of_mem _ hs)]
    congr 1
    by_cases hi : r.index = i
    · subst hi
      simp [hr]
    · have hne : r ≠ h.handle i := fun he => hi (by rw [he]; rfl)
      simp [hi, hne]

/-- The edges of one cell to another, counted by handle. -/
theorem Coherent.count_kids (hx : h.Coherent x n) (hz : h.NoZombies) (hc : h.tenant? j = some c)
    (i : Nat) : (h.kids j).count i =
      if h.isTracked (h.handle i) then c.body.refs.count (h.handle i) else 0 := by
  have hcell : h.cell? (h.handle j) = some c := by rw [cell?_handle, hc]
  have hnames := hx.counted.bodies _ c hcell
  have hperm := edges_perm hz hnames (hx.rested _ c hcell)
  have hlive : ∀ r ∈ h.edges c.body, h.contains r = true := by
    intro r hr
    obtain ⟨k, hk⟩ := Body.typed_of_mem_refs (List.mem_of_mem_filter (hperm.mem_iff.mp hr))
    exact hnames.contains hk
  unfold kids
  rw [hc, Option.elim_some, count_map_index hlive, hperm.count_eq]
  split
  · rename_i ht
    exact List.count_filter ht
  · rename_i ht
    exact List.count_eq_zero.mpr fun hmem => ht (List.mem_filter.mp hmem).2

/-- The slots in which a heap tracks cells. -/
structure Tracks (h : Heap) (order : List Nat) : Prop where
  nodup : order.Nodup
  mem_iff : ∀ i, i ∈ order ↔ ∃ c, h.tenant? i = some c ∧ c.body.frame? = none

/-- A sum over a list of slots that leaves out only slots without a share is one over all slots. -/
theorem sum_map_eq_total {order : List Nat} {f : Cell → Nat} (hnd : order.Nodup)
    (hsub : ∀ i ∈ order, i < h.slots.size)
    (hout : ∀ i, i ∉ order → (h.tenant? i).elim 0 f = 0) :
    (order.map fun i => (h.tenant? i).elim 0 f).sum = h.total f := by
  rw [total_eq_sum, ← List.sum_toFinset _ hnd]
  refine Finset.sum_subset (fun i hi => ?_) fun i _ hi => ?_
  · exact Finset.mem_range.mpr (hsub i (List.mem_toFinset.mp hi))
  · exact hout i fun hmem => hi (List.mem_toFinset.mpr hmem)

/-- The edges to a tracked cell are what cells hold of it; an attached variable has none. -/
theorem Coherent.count_flatMap_kids (hx : h.Coherent x n) (hz : h.NoZombies) {order : List Nat}
    (ht : h.Tracks order) (i : Nat) : (order.flatMap h.kids).count i =
      if h.isTracked (h.handle i) then h.heldByCells (h.handle i) else 0 := by
  rw [List.count_flatMap]
  have hshare : ∀ j ∈ order, (List.count i ∘ h.kids) j = if h.isTracked (h.handle i) then
      (h.tenant? j).elim 0 (fun c => c.body.refs.count (h.handle i)) else 0 := by
    intro j hj
    obtain ⟨c, hc, _⟩ := (ht.mem_iff j).mp hj
    rw [Function.comp, hx.count_kids hz hc, hc]
    rfl
  rw [List.map_congr_left hshare]
  split
  · refine sum_map_eq_total ht.nodup (fun j hj => ?_) fun j hj => ?_
    · obtain ⟨c, hc, _⟩ := (ht.mem_iff j).mp hj
      exact lt_size_of_tenant hc
    · cases hc : h.tenant? j with
      | none => rfl
      | some c =>
        -- a cell that is not tracked is an attached variable, which refers to nothing
        cases hframe : c.body.frame? with
        | none => exact absurd ((ht.mem_iff j).mpr ⟨c, hc, hframe⟩) hj
        | some id => simp [Body.refs_of_frame? hframe]
  · simp

/-! ## Heaps that differ in counts, marks and places -/

/-- `h` is `h₀` but for the counts, marks and places of cells. -/
structure Shadows (h₀ h : Heap) : Prop where
  rest : { h with slots := h₀.slots, lists := h₀.lists, nextTicket := h₀.nextTicket } = h₀
  frees : ∀ i, h.frees i = h₀.frees i
  cells : ∀ i, (h.tenant? i).map (fun c => (c.size, c.body)) =
    (h₀.tenant? i).map fun c => (c.size, c.body)

namespace Shadows

theorem refl (h : Heap) : Shadows h h := ⟨rfl, fun _ => rfl, fun _ => rfl⟩

theorem modifyCell (hs : Shadows h₀ h) (i : Nat) {g : Cell → Cell}
    (hg : ∀ c, (g c).size = c.size ∧ (g c).body = c.body) : Shadows h₀ (h.modifyCell i g) := by
  refine ⟨hs.rest, fun j => by rw [frees_modifyCell, hs.frees], fun j => ?_⟩
  rw [← hs.cells, tenant?_modifyCell]
  split
  · cases h.tenant? j with
    | none => rfl
    | some c => simp [hg c]
  · rfl

theorem setPlace (hs : Shadows h₀ h) (i : Nat) (old new : Place) : Shadows h₀ (h.setPlace i old new) :=
  have hm := hs.modifyCell i (g := fun c => { c with place := new }) fun _ => ⟨rfl, rfl⟩
  ⟨hm.rest, hm.frees, hm.cells⟩

theorem joinLive (hs : Shadows h₀ h) (i : Nat) (old : Place) : Shadows h₀ (h.joinLive i old) :=
  have hm := hs.setPlace i old (.live h.nextTicket)
  ⟨hm.rest, hm.frees, hm.cells⟩

theorem setRefCount (hs : Shadows h₀ h) (i k : Nat) : Shadows h₀ (h.setRefCount i k) :=
  hs.modifyCell i fun _ => ⟨rfl, rfl⟩

/-- A cell of either heap is in the other, with the same size and body. -/
theorem tenant (hs : Shadows h₀ h) (hc : h₀.tenant? i = some c) :
    ∃ d, h.tenant? i = some d ∧ d.size = c.size ∧ d.body = c.body := by
  have hi := hs.cells i
  rw [hc] at hi
  obtain ⟨d, hd, he⟩ := Option.map_eq_some_iff.mp hi
  obtain ⟨hsize, hbody⟩ := Prod.mk.inj he
  exact ⟨d, hd, hsize, hbody⟩

theorem tenant_before (hs : Shadows h₀ h) (hc : h.tenant? i = some c) :
    ∃ d, h₀.tenant? i = some d ∧ d.size = c.size ∧ d.body = c.body := by
  have hi := hs.cells i
  rw [hc] at hi
  obtain ⟨d, hd, he⟩ := Option.map_eq_some_iff.mp hi.symm
  obtain ⟨hsize, hbody⟩ := Prod.mk.inj he
  exact ⟨d, hd, hsize, hbody⟩

theorem cell_before (hs : Shadows h₀ h) (hc : h.cell? r = some c) :
    ∃ d, h₀.cell? r = some d ∧ d.size = c.size ∧ d.body = c.body := by
  obtain ⟨ht, hg⟩ := cell?_eq_some_iff.mp hc
  obtain ⟨d, hd, he⟩ := hs.tenant_before ht
  exact ⟨d, cell?_eq_some_iff.mpr ⟨hd, by rw [← hs.frees]; exact hg⟩, he⟩

theorem body? (hs : Shadows h₀ h) (r : Handle) : h.body? r = h₀.body? r := by
  have hcell : (h.cell? r).map (fun c => (c.size, c.body)) =
      (h₀.cell? r).map fun c => (c.size, c.body) := by
    apply Option.ext
    intro p
    simp only [Option.map_eq_some_iff, cell?_eq_some_iff, hs.frees]
    constructor
    · rintro ⟨c, ⟨hc, hg⟩, rfl⟩
      obtain ⟨d, hd, h₁, h₂⟩ := hs.tenant_before hc
      exact ⟨d, ⟨hd, hg⟩, by rw [h₁, h₂]⟩
    · rintro ⟨c, ⟨hc, hg⟩, rfl⟩
      obtain ⟨d, hd, h₁, h₂⟩ := hs.tenant hc
      exact ⟨d, ⟨hd, hg⟩, by rw [h₁, h₂]⟩
  have hsnd := congrArg (Option.map Prod.snd) hcell
  simpa [Heap.body?, Function.comp_def] using hsnd

theorem edges (hs : Shadows h₀ h) (b : Body) : h.edges b = h₀.edges b := by
  have hd : h.isDetached = h₀.isDetached := by
    funext r
    unfold isDetached captured?
    rw [hs.body?]
  have hp : h.propertyEdges = h₀.propertyEdges := by
    funext p
    unfold propertyEdges
    rw [hd]
  cases b with
  | object o =>
    unfold Heap.edges payloadEdges
    rw [hd, hp]
  | _ => rfl

/-- The walks of a collection follow the edges of the heap it started from. -/
theorem kids (hs : Shadows h₀ h) (i : Nat) : h.kids i = h₀.kids i := by
  unfold Heap.kids
  have hi := hs.cells i
  cases hc : h₀.tenant? i with
  | none =>
    rw [hc, Option.map_none, Option.map_eq_none_iff] at hi
    rw [hi]
    rfl
  | some c =>
    obtain ⟨d, hd, _, hbody⟩ := hs.tenant hc
    rw [hd, Option.elim_some, Option.elim_some, hbody, hs.edges]

theorem childrenAt (hs : Shadows h₀ h) (hc : h₀.tenant? i = some c) :
    h.childrenAt i = .ok (h₀.kids i) := by
  obtain ⟨d, hd, _⟩ := hs.tenant hc
  rw [childrenAt_eq hd, hs.kids]

end Shadows

/-! ## Views by slot -/

/-- What a change of one cell does to the counts. -/
theorem Updates.countAt {s : Handle} (hu : Updates s (some c) h h') (j : Nat) :
    h'.countAt j = if j = s.index then c.refCount else h.countAt j := by
  unfold Heap.countAt
  rw [hu.tenant]
  split <;> rfl

theorem Updates.markAt {s : Handle} (hu : Updates s (some c) h h') (j : Nat) :
    h'.markAt j = if j = s.index then c.mark else h.markAt j := by
  unfold Heap.markAt
  rw [hu.tenant]
  split <;> rfl

theorem Updates.placeAt? {s : Handle} (hu : Updates s (some c) h h') (j : Nat) :
    h'.placeAt? j = if j = s.index then some c.place else h.placeAt? j := by
  rw [placeAt?_eq, placeAt?_eq, hu.tenant]
  split <;> rfl

theorem Updates.countAt_same {s : Handle} (hu : Updates s (some c) h h') (hc : h.cell? s = some d)
    (hsame : c.refCount = d.refCount) (j : Nat) : h'.countAt j = h.countAt j := by
  rw [hu.countAt]
  split
  · rename_i hj
    rw [hj, countAt_of_tenant (tenant?_of_cell? hc), hsame]
  · rfl

theorem Updates.markAt_same {s : Handle} (hu : Updates s (some c) h h') (hc : h.cell? s = some d)
    (hsame : c.mark = d.mark) (j : Nat) : h'.markAt j = h.markAt j := by
  rw [hu.markAt]
  split
  · rename_i hj
    rw [hj, markAt_of_tenant (tenant?_of_cell? hc), hsame]
  · rfl

theorem Updates.placeAt?_same {s : Handle} (hu : Updates s (some c) h h') (hc : h.cell? s = some d)
    (hsame : c.place = d.place) (j : Nat) : h'.placeAt? j = h.placeAt? j := by
  rw [hu.placeAt?]
  split
  · rename_i hj
    rw [hj, placeAt?_of_tenant (tenant?_of_cell? hc), hsame]
  · rfl

/-- A slot with a count has a cell. -/
theorem tenant_of_countAt (hi : h.countAt i ≠ 0) : ∃ c, h.tenant? i = some c ∧ h.countAt i = c.refCount := by
  cases hc : h.tenant? i with
  | none => simp [Heap.countAt, hc] at hi
  | some c => exact ⟨c, rfl, countAt_of_tenant hc⟩

/-- The live list holds each cell on it once. -/
theorem nodup_liveOrder (h : Heap) : h.liveOrder.Nodup := by
  unfold liveOrder
  have hperm := (List.mergeSort_perm h.liveTickets fun a b => decide (a.1 ≤ b.1)).map (·.2)
  refine hperm.nodup_iff.mpr ?_
  unfold liveTickets
  rw [List.map_filterMap]
  refine List.Nodup.filterMap (fun i j k hi hj => ?_) List.nodup_range
  simp only [Option.mem_def, Option.map_eq_some_iff, Option.map_map] at hi hj
  obtain ⟨_, _, rfl⟩ := hi
  obtain ⟨_, _, he⟩ := hj
  exact he.symm

theorem mem_liveOrder : i ∈ h.liveOrder ↔ ∃ t, h.placeAt? i = some (.live t) := by
  unfold liveOrder liveTickets
  rw [((List.mergeSort_perm _ _).map _).mem_iff, List.map_filterMap, List.mem_filterMap]
  constructor
  · rintro ⟨j, _, hj⟩
    cases hp : h.placeAt? j with
    | none => simp [hp] at hj
    | some p =>
      cases p with
      | live t =>
        simp only [hp, Option.bind_some, Place.ticket?, Option.map_some, Option.some.injEq] at hj
        exact ⟨t, hj ▸ hp⟩
      | _ => simp [hp, Place.ticket?] at hj
  · rintro ⟨t, ht⟩
    refine ⟨i, List.mem_range.mpr ?_, by simp [ht, Place.ticket?]⟩
    rw [placeAt?_eq] at ht
    obtain ⟨c, hc, _⟩ := Option.map_eq_some_iff.mp ht
    exact lt_size_of_tenant hc

end ObjectMemory.Heap
