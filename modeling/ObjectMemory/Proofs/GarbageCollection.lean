import ObjectMemory.Proofs.Clients
set_option autoImplicit false

/-!
# What a collection keeps and what it frees

A collection first releases the dropped roots and then frees every cell that no reference from outside
leads to.  What is left is the part of the heap that the references of the client and the locals of
frames lead to: with the bodies it had, and with counts that are lower by the references that came from
cells that went (`Client.collection_keeps_reachable`).  Nothing else is left, neither of cells nor in
the open lists of frames, so that a second collection finds nothing to do, and a heap that nobody refers
to becomes empty (`Client.collection_frees_unreachable`).
-/

namespace ObjectMemory

namespace Heap

variable {x : Ledger} {n k : Nat} {h h₁ h' : Heap} {r : Handle} {c c' : Cell} {i : Nat} {id : FrameId}
  {root : Handle → Prop}

/-! ## References from cells that went -/

/-- The references for `r` from cells of `h` that are gone in `h'`. -/
def edgesFromFreed (h h' : Heap) (r : Handle) : Nat :=
  ∑ i ∈ Finset.range h.slots.size,
    if h'.contains (h.handle i) then 0 else (h.tenant? i).elim 0 (·.body.refs.count r)

/-- A slot that is taken later was taken by the same cell before. -/
theorem Keeps.tenant (hk : Keeps h h') (hc' : h'.tenant? i = some c') :
    h'.contains (h.handle i) = true ∧ ∃ c, h.tenant? i = some c ∧ c'.body = c.body := by
  rw [← cell?_handle] at hc'
  obtain ⟨c, hc, hb⟩ := hk _ _ hc'
  have he : h.handle i = h'.handle i := by
    simpa using handle_eq_of_cell? hc
  exact ⟨he ▸ contains_of_cell? hc', c, tenant?_of_cell? hc, hb⟩

/-- A slot whose cell went is vacant: nothing was made since. -/
theorem Keeps.tenant_eq_none (hk : Keeps h h') (hgone : h'.contains (h.handle i) ≠ true) :
    h'.tenant? i = none := by
  cases hc' : h'.tenant? i with
  | none => rfl
  | some c' => exact absurd (hk.tenant hc').1 hgone

theorem Keeps.heldByCells (hk : Keeps h h') (r : Handle) :
    h'.heldByCells r + edgesFromFreed h h' r = h.heldByCells r := by
  -- slot by slot: a cell that stays has its references in `h'`, one that goes among the lost ones
  have hslot : ∀ i, (h'.tenant? i).elim 0 (·.body.refs.count r) +
      (if h'.contains (h.handle i) then 0 else (h.tenant? i).elim 0 (·.body.refs.count r)) =
        (h.tenant? i).elim 0 (·.body.refs.count r) := by
    intro i
    split
    · rename_i hin
      obtain ⟨c', hc'⟩ := contains_iff.mp hin
      have ht' : h'.tenant? i = some c' := by simpa using tenant?_of_cell? hc'
      obtain ⟨_, c, hc, hb⟩ := hk.tenant ht'
      simp [ht', hc, hb]
    · rename_i hgone
      simp [hk.tenant_eq_none hgone]
  have hsize : ∀ i, h.slots.size ≤ i → h.tenant? i = none := by
    intro i hi
    simp [tenant?, hi]
  have hlost : edgesFromFreed h h' r = ∑ i ∈ Finset.range (max h.slots.size h'.slots.size),
      if h'.contains (h.handle i) then 0 else (h.tenant? i).elim 0 (·.body.refs.count r) := by
    refine Finset.sum_subset (Finset.range_subset_range.mpr (Nat.le_max_left _ _)) fun i _ hi => ?_
    simp [hsize i (by simpa using hi)]
  unfold Heap.heldByCells
  rw [total_eq_sum_of_le h' _ (Nat.le_max_right h.slots.size _), hlost, ← Finset.sum_add_distrib,
    Finset.sum_congr rfl fun i _ => hslot i, total_eq_sum_of_le h _ (Nat.le_max_left _ h'.slots.size)]

/-- A total over bodies only goes down. -/
theorem Keeps.total_le {f : Cell → Nat} (hk : Keeps h h')
    (hf : ∀ c c', c'.body = c.body → f c' = f c) : h'.total f ≤ h.total f := by
  rw [total_eq_sum_of_le h' f (Nat.le_max_right h.slots.size _),
    total_eq_sum_of_le h f (Nat.le_max_left _ h'.slots.size)]
  refine Finset.sum_le_sum fun i _ => ?_
  cases hc' : h'.tenant? i with
  | none => exact Nat.zero_le _
  | some c' =>
    obtain ⟨_, c, hc, hb⟩ := hk.tenant hc'
    rw [hc]
    exact Nat.le_of_eq (hf c c' hb)

theorem Keeps.total_eq {f : Cell → Nat} (hk : Keeps h h')
    (hf : ∀ c c', c'.body = c.body → f c' = f c)
    (hall : ∀ r, h.contains r = true → h'.contains r = true) : h'.total f = h.total f := by
  refine total_congr fun i => ?_
  cases hc : h.tenant? i with
  | none =>
    cases hc' : h'.tenant? i with
    | none => rfl
    | some c' =>
      obtain ⟨_, c, hc₀, _⟩ := hk.tenant hc'
      exact absurd (hc₀.symm.trans hc) (Option.some_ne_none c)
  | some c =>
    rw [← cell?_handle] at hc
    obtain ⟨c', hc'⟩ := contains_iff.mp (hall _ (contains_of_cell? hc))
    obtain ⟨d, hd, hb⟩ := hk _ c' hc'
    cases hd.symm.trans hc
    have ht' : h'.tenant? i = some c' := by simpa using tenant?_of_cell? hc'
    rw [ht']
    exact hf c c' hb

theorem queuedShare_of_body (hb : c'.body = c.body) : queuedShare c' = queuedShare c := by
  simp only [queuedShare, Cell.kind, hb]

/-- What counts lose when cells go are the references those cells had. -/
theorem Counted.refCount_of_freed (hx : h.Counted x) (hx' : h'.Counted x) (hk : Keeps h h')
    (hout : h'.outside x r = h.outside x r) (hc : h.cell? r = some c) (hc' : h'.cell? r = some c') :
    c'.refCount + edgesFromFreed h h' r = c.refCount := by
  rw [hx.refCount_eq hc, hx'.refCount_eq hc', hout, ← hk.heldByCells r, Nat.add_assoc]

/-! ## Frames as cells go -/

/-- The variables open in a frame after are those open before that are left. -/
theorem Keeps.open_iff (hk : Keeps h h') (hb : h.Bound) (hb' : h'.Bound) {f f' : Frame}
    (hf : h.frames.get? id = some f) (hf' : h'.frames.get? id = some f') :
    r ∈ f'.openVariables.toList ↔ r ∈ f.openVariables.toList ∧ h'.contains r = true := by
  constructor
  · intro hr
    have hid := hb'.attached id f' hf' r hr
    obtain ⟨b, hbody, _⟩ := Option.bind_eq_some_iff.mp hid
    have hid₀ : h.frameOf? r = some id := by
      rw [frameOf?, hk.body? hbody]
      rwa [frameOf?, hbody] at hid
    obtain ⟨g, hg, hmem⟩ := hb.listed r id hid₀
    cases hf.symm.trans hg
    exact ⟨hmem, contains_of_frameOf? hid⟩
  · rintro ⟨hr, hlive⟩
    obtain ⟨c', hc'⟩ := contains_iff.mp hlive
    obtain ⟨c, hc, hbody⟩ := hk r c' hc'
    have hid := hb.attached id f hf r hr
    rw [frameOf?_of_cell? hc, ← hbody, ← frameOf?_of_cell? hc'] at hid
    obtain ⟨g, hg, hmem⟩ := hb'.listed r id hid
    cases hf'.symm.trans hg
    exact hmem

/-- Frames that keep their locals lose just the open variables that went. -/
theorem Keeps.frame (hk : Keeps h h') (hframes : ∀ id, (h'.frames.get? id).map (fun f => (f.locals, f.size)) =
    (h.frames.get? id).map fun f => (f.locals, f.size)) (hb : h.Bound) (hb' : h'.Bound) {f : Frame}
    (hf : h.frames.get? id = some f) : ∃ f', h'.frames.get? id = some f' ∧ f'.locals = f.locals ∧
      ∀ r, r ∈ f'.openVariables.toList ↔ r ∈ f.openVariables.toList ∧ h'.contains r = true := by
  have hid := hframes id
  rw [hf] at hid
  obtain ⟨f', hf', he⟩ := Option.map_eq_some_iff.mp hid
  exact ⟨f', hf', (Prod.mk.inj he).1, fun r => hk.open_iff hb hb' hf hf'⟩

/-! ## Reachability as cells go -/

/-- What is left of a heap leads to the same cells, if the cells it starts from are left. -/
theorem Keeps.reachable_iff (hk : Keeps h h') (hx' : h'.Counted x)
    (hroot : ∀ r, root r → h'.contains r = true) : h.Reachable root r ↔ h'.Reachable root r := by
  constructor
  · intro hr
    induction hr with
    | root hr => exact .root hr
    | @step r s c _ hc hs ih =>
      obtain ⟨c', hc'⟩ := contains_iff.mp (hx'.contains_of_reachable hroot ih)
      obtain ⟨d, hd, hb⟩ := hk r c' hc'
      cases hd.symm.trans hc
      exact .step ih hc' (hb ▸ hs)
  · intro hr
    induction hr with
    | root hr => exact .root hr
    | @step r s c' _ hc' hs ih =>
      obtain ⟨c, hc, hb⟩ := hk r c' hc'
      exact .step ih hc (hb ▸ hs)

/-- What is left after a collection is what the references of the client and the locals lead to. -/
def Retained (x : Ledger) (h : Heap) : Handle → Prop :=
  h.Reachable fun r => 0 < x r + h.heldByFrames r

/-- If no root was dropped, these are the references from outside. -/
theorem held_iff_retained (hd : h.dropped.toList = []) : h.Held x r ↔ h.Retained x r := by
  simp [Retained, Held, outside, hd]

/-- As cells go, what the client and the frames hold stays. -/
theorem Keeps.retained_iff (hk : Keeps h h') (hlocals : ∀ r, h'.heldByFrames r = h.heldByFrames r)
    (hx' : h'.Counted x) : h.Retained x r ↔ h'.Retained x r := by
  unfold Retained
  simp only [hlocals]
  refine hk.reachable_iff hx' fun r hr => hx'.contains_of_outside ?_
  rw [outside, hlocals]
  omega

/-! ## A whole collection -/

/-- A collection: what it keeps, what it frees and what it tells. -/
structure Collects (x : Ledger) (h : Heap) (k : Nat) (h' : Heap) : Prop where
  keeps : Keeps h h'
  dropped : h'.dropped.toList = []
  frames : ∀ id, (h'.frames.get? id).map (fun f => (f.locals, f.size)) =
    (h.frames.get? id).map (fun f => (f.locals, f.size))
  locals : ∀ r, h'.heldByFrames r = h.heldByFrames r
  live_iff : ∀ r, h'.contains r = true ↔ h.Retained x r
  again : ∀ r, h'.contains r = true ↔ h'.Retained x r
  collected : h'.collected = h.collected + k

theorem Sound.collects (hs : h.Sound x n) : ∃ k h₁ h', HeapM.collect h = .ok (k, h') ∧
    HeapM.flushRoots h = .ok ((), h₁) ∧ h'.Sound x n ∧ Collects x h k h' ∧
      k + h'.total queuedShare = h₁.total queuedShare := by
  obtain ⟨k, h₁, h', hok, hflush, hs₁, hd₁, hs', hcol, hk⟩ := hs.collect
  have hempty : h₁.dropped.toList = [] := by
    rw [hd₁.calm.dropped]
    rfl
  have hkeeps₁ : Keeps h h₁ := hd₁.keeps hs₁
  have hkeeps' : Keeps h₁ h' := hcol.decays.keeps hs'
  have hlocals₁ : ∀ r, h₁.heldByFrames r = h.heldByFrames r := hd₁.calm.locals
  have hlocals' : ∀ r, h'.heldByFrames r = h₁.heldByFrames r := hcol.decays.calm.locals
  have hiff : ∀ r, h'.contains r = true ↔ h₁.Retained x r := fun r =>
    (hcol.contains_iff r).trans (held_iff_retained hempty)
  have hle := hkeeps'.total_le fun _ _ => queuedShare_of_body
  have hsum := hcol.collected
  have hfreed : h₁.collected = h.collected := hd₁.calm.collected
  refine ⟨k, h₁, h', hok, hflush, hs', ⟨hkeeps₁.trans hkeeps', ?_, ?_, ?_, ?_, ?_, ?_⟩, by omega⟩
  · rw [hcol.decays.calm.dropped]
    exact hempty
  · intro id
    exact (hcol.decays.calm.frames id).trans (hd₁.calm.frames id)
  · intro r
    rw [hlocals', hlocals₁]
  · intro r
    rw [hiff, hkeeps₁.retained_iff hlocals₁ hs₁.coherent.counted]
  · intro r
    rw [hiff, hkeeps'.retained_iff hlocals' hs'.coherent.counted]
  · omega

/-- Frames stay, each with its locals, and lose the open variables that went. -/
theorem Collects.frame (hcol : Collects x h k h') (hb : h.Bound) (hb' : h'.Bound) {f : Frame}
    (hf : h.frames.get? id = some f) : ∃ f', h'.frames.get? id = some f' ∧ f'.locals = f.locals ∧
      ∀ r, r ∈ f'.openVariables.toList ↔ r ∈ f.openVariables.toList ∧ h'.contains r = true :=
  hcol.keeps.frame hcol.frames hb hb' hf

/-- A heap that nobody refers to becomes empty. -/
theorem Collects.empty (hcol : Collects x h k h') (hs' : h'.Sound x 0) (hx : ∀ r, x r = 0)
    (hframes : ∀ id, h.frames.get? id = none) :
    h'.liveCells = 0 ∧ h'.used = 0 ∧ h'.sharedShapes = 0 := by
  have hframes' : ∀ id, h'.frames.get? id = none := fun id => by
    simpa [hframes id] using hcol.frames id
  have hnoframe : ∀ w, h'.frames.total w = 0 := by
    intro w
    by_contra hne
    obtain ⟨id, f, hf, _⟩ := FrameTable.exists_of_total_pos (Nat.pos_of_ne_zero hne)
    exact Option.some_ne_none f (hf.symm.trans (hframes' id))
  have hlocal : ∀ r, h'.heldByFrames r = 0 := fun r => hnoframe _
  -- there is nothing to start from
  have hnone : ∀ r, ¬ h'.Retained x r := by
    intro r hr
    induction hr with
    | root hr => simp [hx, hlocal] at hr
    | step _ _ _ ih => exact ih
  have hgone : ∀ r, h'.cell? r = none := by
    intro r
    cases hc : h'.cell? r with
    | none => rfl
    | some c => exact absurd ((hcol.again r).mp (contains_of_cell? hc)) (hnone r)
  have hnocell : ∀ f, h'.total f = 0 := by
    intro f
    by_contra hne
    obtain ⟨i, c, hc, _⟩ := exists_of_total_pos (Nat.pos_of_ne_zero hne)
    rw [← cell?_handle, hgone] at hc
    cases hc
  refine ⟨?_, ?_, ?_⟩
  · rw [hs'.coherent.accounted.cells, hnocell]
  · rw [hs'.coherent.accounted.used, hnocell, hnoframe]
  · rw [sharedShapes, hs'.coherent.tabled.tidy.count, List.length_eq_zero_iff,
      List.eq_nil_iff_forall_not_mem]
    rintro ⟨hash, r⟩ hmem
    have hr := contains_of_hashOf? ((hs'.coherent.tabled.mem_iff hash r).mp hmem)
    obtain ⟨c, hc⟩ := contains_iff.mp hr
    rw [hgone] at hc
    cases hc

/-- A second collection finds nothing. -/
theorem Collects.second (hcol : Collects x h k h') (hs' : h'.Sound x n) :
    ∃ h'', HeapM.collect h' = .ok (0, h'') ∧ ∀ r, h''.contains r = true ↔ h'.contains r = true := by
  obtain ⟨k₂, h₂, h'', hok, hflush, _, hcol₂, hcount⟩ := hs'.collects
  have hsame : ∀ r, h''.contains r = true ↔ h'.contains r = true := by
    intro r
    rw [hcol₂.live_iff, hcol.again]
  have hle := (hs'.of_flushRoots hflush).2.total_le fun _ _ => queuedShare_of_body
  have heq := hcol₂.keeps.total_eq (fun _ _ => queuedShare_of_body) fun r => (hsame r).mpr
  obtain rfl : k₂ = 0 := by omega
  exact ⟨h'', hok, hsame⟩

end Heap

/-! ## The heaps of clients -/

namespace Client

open Heap

variable {config : Config} {h : Heap} {x : Ledger}

/-- A heap whose counts are the references there are keeps the books of the client and nothing else. -/
theorem Reached.valid_of_exact {allowed : Operation → Prop} (hr : Reached allowed config h x)
    (hexact : ∀ r c, h.cell? r = some c →
      c.refCount = x r + h.heldByCells r + h.heldByFrames r + h.dropped.toList.count r) :
    h.Valid x := by
  obtain ⟨lost, _, hv⟩ := hr.valid
  have hx := hv.sound.coherent.counted
  refine hv.of_eq fun r => ?_
  cases hc : h.cell? r with
  | none =>
    have hzero := (hx.held_eq_zero hc).1
    rw [Ledger.plus_apply] at hzero ⊢
    omega
  | some c =>
    have hcount := hx.counts r c hc
    have hgiven := hexact r c hc
    rw [Heap.held] at hcount
    omega

/-- Of two objects the first is the client's; the second, which nobody owns, refers to both. -/
theorem reached_loop : ∃ h x, Reached (·.isPush = false) .default h x ∧ h.dropped.toList = [] ∧
    h.frames.slots.size = 0 ∧ ∀ r, x r = if r = ⟨1, 0⟩ then 1 else 0 := by
  obtain ⟨⟨reply₁, h₁⟩, e₁, hrest⟩ := ok_of_test (x := (Call.newObject none).perform (.new .default))
    (t := fun p => decide (p.1 = .handle ⟨1, 0⟩) &&
      passes ((Call.newObject none).perform p.2) fun p => decide (p.1 = .handle ⟨2, 0⟩) &&
      passes ((Call.retain ⟨1, 0⟩).perform p.2) fun p => decide (p.2.kind? ⟨1, 0⟩ = some .object) &&
      passes ((Call.setProperty ⟨2, 0⟩ ⟨300⟩ (.object ⟨1, 0⟩)).perform p.2) fun p =>
        decide (p.1 = .flag true ∧ p.2.kind? ⟨2, 0⟩ = some .object) &&
      passes ((Call.setProperty ⟨2, 0⟩ ⟨301⟩ (.object ⟨2, 0⟩)).perform p.2) fun p =>
        decide (p.1 = .flag true ∧ p.2.dropped.toList = [] ∧ p.2.frames.slots.size = 0))
    (by decide +kernel)
  obtain ⟨hfact₁, hrest⟩ := Bool.and_eq_true_iff.mp hrest
  obtain ⟨⟨reply₂, h₂⟩, e₂, hrest⟩ := ok_of_test hrest
  obtain ⟨hfact₂, hrest⟩ := Bool.and_eq_true_iff.mp hrest
  obtain ⟨⟨reply₃, h₃⟩, e₃, hrest⟩ := ok_of_test hrest
  obtain ⟨hfact₃, hrest⟩ := Bool.and_eq_true_iff.mp hrest
  obtain ⟨⟨reply₄, h₄⟩, e₄, hrest⟩ := ok_of_test hrest
  obtain ⟨hfact₄, hrest⟩ := Bool.and_eq_true_iff.mp hrest
  obtain ⟨⟨reply₅, h₅⟩, e₅, hfact₅⟩ := ok_of_test hrest
  obtain rfl := of_decide_eq_true hfact₁
  obtain rfl := of_decide_eq_true hfact₂
  have hkind₃ := of_decide_eq_true hfact₃
  obtain ⟨rfl, hkind₄⟩ := of_decide_eq_true hfact₄
  obtain ⟨rfl, hdropped, hframes⟩ := of_decide_eq_true hfact₅
  have hstart : Reached (·.isPush = false) .default (.new .default) .empty := .start
  have hr₁ := hstart.next (.call (.newObject none)) rfl (.of_nothing rfl rfl) e₁
  have hr₂ := hr₁.next (.call (.newObject none)) rfl (.of_nothing rfl rfl) e₂
  have hr₃ := hr₂.next (.call (.retain ⟨1, 0⟩)) rfl (.of_nothing rfl rfl) e₃
  have hr₄ := hr₃.next (.call (.setProperty ⟨2, 0⟩ ⟨300⟩ (.object ⟨1, 0⟩))) rfl ⟨fun r => ?_, ?_⟩ e₄
  have hr₅ := hr₄.next (.call (.setProperty ⟨2, 0⟩ ⟨301⟩ (.object ⟨2, 0⟩))) rfl ⟨fun r => ?_, ?_⟩ e₅
  · refine ⟨h₅, _, hr₅, hdropped, hframes, fun r => ?_⟩
    simp only [Operation.settle_apply, Operation.consumed, Operation.gained, Call.consumed, Call.gained,
      Reply.refs, Value.ref?, Ledger.empty_apply, Option.toList_some, List.count_cons, List.count_nil,
      beq_iff_eq]
    grind
  · simp only [Operation.settle_apply, Operation.consumed, Operation.gained, Call.consumed, Call.gained,
      Reply.refs, Value.ref?, Ledger.empty_apply, Option.toList_some, List.count_cons, List.count_nil,
      beq_iff_eq]
    grind
  · intro a ha
    cases List.mem_singleton.mp ha
    exact hkind₄
  · simp only [Operation.settle_apply, Operation.consumed, Operation.gained, Call.consumed, Call.gained,
      Reply.refs, Value.ref?, Ledger.empty_apply, Option.toList_some, List.count_cons, List.count_nil,
      beq_iff_eq]
    grind
  · intro a ha
    cases List.mem_singleton.mp ha
    exact hkind₃

/-- A collection of a heap without dropped roots keeps every cell that references of the client and
locals of frames lead to, with the body it had.  Its count goes down by the references it had from cells
that went. -/
theorem collection_keeps_reachable (hr : Reached (fun _ => True) config h x)
    (hdropped : h.dropped.toList = []) :
    ∃ n h', HeapM.collect h = .ok (n, h') ∧ ∀ r, h.Held x r →
      ∃ c c', h.cell? r = some c ∧ h'.cell? r = some c' ∧ c'.body = c.body ∧ c'.mark = false ∧
        c'.refCount + h.edgesFromFreed h' r = c.refCount := by
  obtain ⟨lost, _, hv⟩ := hr.valid
  obtain ⟨n, h₁, h', hok, _, hs', hcol, _⟩ := hv.sound.collects
  refine ⟨n, h', hok, fun r hheld => ?_⟩
  have hmore : h.Held (x.plus lost) r := hheld.mono fun r hpos => by
    simp only [outside, Ledger.plus_apply] at hpos ⊢
    omega
  obtain ⟨c', hc'⟩ := contains_iff.mp ((hcol.live_iff r).mpr ((held_iff_retained hdropped).mp hmore))
  obtain ⟨c, hc, hb⟩ := hcol.keeps r c' hc'
  refine ⟨c, c', hc, hc', hb, (hs'.settled _ _ (tenant?_of_cell? hc')).mark, ?_⟩
  refine hv.sound.coherent.counted.refCount_of_freed hs'.coherent.counted hcol.keeps ?_ hc hc'
  rw [outside, outside, hcol.locals, hcol.dropped, hdropped]

/-- The second object goes, and its reference for the first with it. -/
theorem collection_keeps_reachable_loop : ∃ h x, Reached (fun _ => True) .default h x ∧
    h.dropped.toList = [] ∧ h.Held x ⟨1, 0⟩ ∧ ∃ n h', HeapM.collect h = .ok (n, h') ∧
      ∃ c c', h.cell? ⟨1, 0⟩ = some c ∧ h'.cell? ⟨1, 0⟩ = some c' ∧ c'.body = c.body ∧ c'.mark = false ∧
        c'.refCount + h.edgesFromFreed h' ⟨1, 0⟩ = c.refCount := by
  obtain ⟨h, x, hr, hdropped, _, hx⟩ := reached_loop
  have hr' : Reached (fun _ => True) .default h x := hr.mono fun _ _ => trivial
  have hheld : h.Held x ⟨1, 0⟩ := .root (by simp [outside, hx])
  obtain ⟨n, h', hok, hkeep⟩ := collection_keeps_reachable hr' hdropped
  exact ⟨h, x, hr', hdropped, hheld, n, h', hok, hkeep _ hheld⟩

/-- With exact counts a collection frees every cell that neither references of the client nor locals of
frames lead to, and open variables that go leave the lists of their frames.  It answers with the number
of objects and functions it freed, those apart that went with the dropped roots.  A second collection
frees nothing, and of a heap that nobody refers to nothing is left. -/
theorem collection_frees_unreachable (hr : Reached (fun _ => True) config h x)
    (hexact : ∀ r c, h.cell? r = some c →
      c.refCount = x r + h.heldByCells r + h.heldByFrames r + h.dropped.toList.count r) :
    ∃ n h₁ h' h'', HeapM.flushRoots h = .ok ((), h₁) ∧ HeapM.collect h = .ok (n, h') ∧
      (∀ r, h'.contains r = true ↔ h.Retained x r) ∧
      (∀ id f, h.frames.get? id = some f → ∃ f', h'.frames.get? id = some f' ∧ f'.locals = f.locals ∧
        ∀ r, r ∈ f'.openVariables.toList ↔ r ∈ f.openVariables.toList ∧ h'.contains r = true) ∧
      n + h'.total queuedShare = h₁.total queuedShare ∧ h'.collected = h.collected + n ∧
      HeapM.collect h' = .ok (0, h'') ∧ (∀ r, h''.contains r = true ↔ h'.contains r = true) ∧
      ((∀ r, x r = 0) → (∀ id, h.frames.get? id = none) →
        h'.liveCells = 0 ∧ h'.used = 0 ∧ h'.sharedShapes = 0) := by
  have hv := hr.valid_of_exact hexact
  obtain ⟨n, h₁, h', hok, hflush, hs', hcol, hcount⟩ := hv.sound.collects
  obtain ⟨h'', hok₂, hsame⟩ := hcol.second hs'
  refine ⟨n, h₁, h', h'', hflush, hok, hcol.live_iff, fun id f hf => ?_, hcount, hcol.collected, hok₂,
    hsame, hcol.empty hs'⟩
  exact hcol.frame hv.sound.coherent.bound hs'.coherent.bound hf

/-- The client drops a root for the first object, and there is no other reference from outside. -/
theorem collection_frees_unreachable_loop : ∃ h x, Reached (fun _ => True) .default h x ∧
    h.dropped.toList = [⟨1, 0⟩] ∧ (∀ r, x r = 0) ∧ ∃ n h', HeapM.collect h = .ok (n, h') ∧
      h'.liveCells = 0 ∧ h'.used = 0 ∧ h'.sharedShapes = 0 := by
  obtain ⟨h, x, hr, hdropped, hframes, hx⟩ := reached_loop
  have hr' := hr.next (.call (.dropRoot ⟨⟨1, 0⟩⟩)) rfl ⟨fun r => ?_, nofun⟩ rfl
  · have hexact := hr'.valid_of_no_push.sound.coherent.counted.counts
    have hzero : ∀ r, Operation.settle x (.call (.dropRoot ⟨⟨1, 0⟩⟩)) .done r = 0 := by
      intro r
      rw [Operation.settle_apply, hx]
      simp only [Operation.consumed, Operation.gained, Call.consumed, Call.gained, Reply.refs,
        List.count_cons, List.count_nil, beq_iff_eq]
      grind
    obtain ⟨n, _, h', _, _, hok, _, _, _, _, _, _, hempty⟩ :=
      collection_frees_unreachable (hr'.mono fun _ _ => trivial) fun r c hc => by
        rw [hexact r c hc, Heap.held]
        omega
    refine ⟨_, _, hr'.mono fun _ _ => trivial, by rw [Queue.toList_push, hdropped]; rfl, hzero, n, h', hok,
      hempty hzero fun id => ?_⟩
    simp [FrameTable.get?, hframes]
  · rw [hx]
    simp only [Operation.consumed, Call.consumed, List.count_cons, List.count_nil, beq_iff_eq]
    grind

end Client

end ObjectMemory
