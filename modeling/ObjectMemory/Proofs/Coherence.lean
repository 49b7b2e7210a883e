import ObjectMemory.Proofs.Updates
set_option autoImplicit false

/-!
# Heaps that are in order

`Heap.Coherent x n h` says that the heap keeps its books: with `x` the references held outside,

* every count is the number of references, and every reference is for a live cell of the right kind
  (`Heap.Counted`);
* the variables attached to a frame are exactly those on its open list (`Heap.Bound`);
* the table of shapes lists exactly the registered ones (`Heap.Tabled`);
* the account is the sum of all sizes and of `n` bytes set apart (`Heap.Accounted`).

It says nothing of marks, places and queues, so it holds also in the middle of a collection, with the
references that are still to be given up counted in `x`.
-/

namespace ObjectMemory.Heap

/-- Every reference of the list is for a live cell of its kind. -/
def Names (h : Heap) (ps : List (Handle × Kind)) : Prop := ∀ p ∈ ps, h.kind? p.1 = some p.2

/-- The frame the variable under a handle is attached to. -/
def frameOf? (h : Heap) (r : Handle) : Option FrameId := (h.body? r).bind Body.frame?

/-- The hash the shape under a handle is registered under. -/
def hashOf? (h : Heap) (r : Handle) : Option UInt32 := (h.body? r).bind Body.hash?

/-- Counts are exact, and references are for live cells of the right kind. -/
structure Counted (x : Ledger) (h : Heap) : Prop where
  counts : ∀ r c, h.cell? r = some c → c.refCount = x r + h.held r
  owned : ∀ r, 0 < x r → h.contains r = true
  bodies : ∀ r c, h.cell? r = some c → h.Names c.body.typedRefs
  locals : ∀ id f, h.frames.get? id = some f → h.Names f.typedRefs
  roots : ∀ r ∈ h.dropped.toList, h.contains r = true

/-- Attached variables and open lists agree. -/
structure Bound (h : Heap) : Prop where
  tidy : h.frames.Tidy
  listed : ∀ r id, h.frameOf? r = some id →
    ∃ f, h.frames.get? id = some f ∧ r ∈ f.openVariables.toList
  nodup : ∀ id f, h.frames.get? id = some f → f.openVariables.toList.Nodup
  attached : ∀ id f, h.frames.get? id = some f → ∀ r ∈ f.openVariables.toList,
    h.frameOf? r = some id

/-- The table lists the registered shapes, each once. -/
structure Tabled (h : Heap) : Prop where
  tidy : h.table.Tidy
  nodup : h.table.toList.Nodup
  mem_iff : ∀ hash r, (hash, r) ∈ h.table.toList ↔ h.hashOf? r = some hash

/-- The account is the sum of the sizes and of `n` bytes set apart. -/
structure Accounted (n : Nat) (h : Heap) : Prop where
  used : h.used = h.total (·.size) + h.frames.total (·.size) + n
  cells : h.liveCells = h.total fun _ => 1

/-- The heap keeps its books. -/
structure Coherent (x : Ledger) (n : Nat) (h : Heap) : Prop where
  counted : Counted x h
  bound : Bound h
  tabled : Tabled h
  accounted : Accounted n h
  rested : ∀ r c, h.cell? r = some c → c.body.Rested

variable {x y : Ledger} {n m : Nat} {h h' : Heap} {r s : Handle} {c c' : Cell} {old new : Option Cell}
  {id : FrameId}

/-! ## What follows -/

theorem Names.contains {ps : List (Handle × Kind)} (hn : h.Names ps) {p : Handle × Kind}
    (hp : p ∈ ps) : h.contains p.1 = true := by
  obtain ⟨c, hc, _⟩ := kind?_eq_some_iff.mp (hn p hp)
  exact contains_iff.mpr ⟨c, hc⟩

theorem contains_of_cell? (hc : h.cell? r = some c) : h.contains r = true := contains_iff.mpr ⟨c, hc⟩

theorem frameOf?_of_cell? (hc : h.cell? r = some c) : h.frameOf? r = c.body.frame? := by
  simp [frameOf?, body?, hc]

theorem hashOf?_of_cell? (hc : h.cell? r = some c) : h.hashOf? r = c.body.hash? := by
  simp [hashOf?, body?, hc]

theorem frameOf?_of_vacant (hr : h.cell? r = none) : h.frameOf? r = none := by
  simp [frameOf?, body?, hr]

theorem hashOf?_of_vacant (hr : h.cell? r = none) : h.hashOf? r = none := by
  simp [hashOf?, body?, hr]

theorem contains_of_frameOf? (hf : h.frameOf? r = some id) : h.contains r = true := by
  obtain ⟨b, hb, _⟩ := Option.bind_eq_some_iff.mp hf
  obtain ⟨c, hc, _⟩ := body?_eq_some_iff.mp hb
  exact contains_of_cell? hc

theorem contains_of_hashOf? {hash : UInt32} (hf : h.hashOf? r = some hash) : h.contains r = true := by
  obtain ⟨b, hb, _⟩ := Option.bind_eq_some_iff.mp hf
  obtain ⟨c, hc, _⟩ := body?_eq_some_iff.mp hb
  exact contains_of_cell? hc

/-- A handle that names nothing is held by nobody. -/
theorem Counted.held_eq_zero (hx : h.Counted x) (hr : h.cell? r = none) :
    x r = 0 ∧ h.heldByCells r = 0 ∧ h.heldByFrames r = 0 ∧ h.dropped.toList.count r = 0 := by
  have hgone : h.contains r ≠ true := by simp [Heap.contains, hr]
  refine ⟨?_, ?_, ?_, ?_⟩
  · by_contra hpos
    exact hgone (hx.owned r (Nat.pos_of_ne_zero hpos))
  · by_contra hpos
    obtain ⟨i, c, hc, hcount⟩ := exists_of_total_pos (Nat.pos_of_ne_zero hpos)
    obtain ⟨k, hk⟩ := Body.typed_of_mem_refs (List.count_pos_iff.mp hcount)
    rw [← cell?_handle] at hc
    exact hgone ((hx.bodies _ c hc).contains hk)
  · by_contra hpos
    obtain ⟨id, f, hf, hcount⟩ := FrameTable.exists_of_total_pos (Nat.pos_of_ne_zero hpos)
    obtain ⟨k, hk⟩ := Frame.typed_of_mem_refs (List.count_pos_iff.mp hcount)
    exact hgone ((hx.locals id f hf).contains hk)
  · by_contra hpos
    exact hgone (hx.roots r (List.count_pos_iff.mp (Nat.pos_of_ne_zero hpos)))

theorem Counted.refCount_eq (hx : h.Counted x) (hc : h.cell? r = some c) :
    c.refCount = h.outside x r + h.heldByCells r := by
  have hcount := hx.counts r c hc
  unfold held at hcount
  unfold outside
  omega

/-- A reference from outside is for a live cell. -/
theorem Counted.contains_of_outside (hx : h.Counted x) (hr : 0 < h.outside x r) :
    h.contains r = true := by
  cases hc : h.cell? r with
  | some c => exact contains_of_cell? hc
  | none =>
    obtain ⟨h₁, _, h₂, h₃⟩ := hx.held_eq_zero hc
    unfold outside at hr
    omega

/-- The reference count of a cell that someone outside holds is not zero. -/
theorem Counted.pos_of_owned (hx : h.Counted x) (hc : h.cell? r = some c) (hr : 0 < x r) :
    c.refCount ≠ 0 := by
  have := hx.counts r c hc
  omega

/-! ## Changes outside the cells -/

/-- References move between the ledger, the frames and the dropped roots. -/
theorem Counted.of_same (hx : h.Counted x) (hs : SameCells h h')
    (hbal : ∀ r, y r + h'.heldByFrames r + h'.dropped.toList.count r =
      x r + h.heldByFrames r + h.dropped.toList.count r)
    (howned : ∀ r, 0 < y r → h.contains r = true)
    (hlocals : ∀ id f, h'.frames.get? id = some f → h.Names f.typedRefs)
    (hroots : ∀ r ∈ h'.dropped.toList, h.contains r = true) : h'.Counted y := by
  refine ⟨fun r c hc => ?_, fun r hr => ?_, fun r c hc p hp => ?_, fun id f hf p hp => ?_,
    fun r hr => ?_⟩
  · rw [hs.cell] at hc
    have hcount := hx.counts r c hc
    have hb := hbal r
    have hcells : h'.heldByCells r = h.heldByCells r := hs.total _
    unfold Heap.held at hcount ⊢
    omega
  · rw [hs.contains]
    exact howned r hr
  · rw [hs.cell] at hc
    rw [hs.kind?]
    exact hx.bodies r c hc p hp
  · rw [hs.kind?]
    exact hlocals id f hf p hp
  · rw [hs.contains]
    exact hroots r hr

theorem Bound.of_same (hb : h.Bound) (hs : ∀ r, h'.frameOf? r = h.frameOf? r)
    (hf : h'.frames = h.frames) : h'.Bound := by
  refine ⟨by rw [hf]; exact hb.tidy, fun r id hr => ?_, fun id f hid => ?_, fun id f hid r hr => ?_⟩
  · rw [hf]
    exact hb.listed r id (by rw [← hs, hr])
  · exact hb.nodup id f (by rw [← hf, hid])
  · rw [hs]
    exact hb.attached id f (by rw [← hf, hid]) r hr

theorem Tabled.of_same (ht : h.Tabled) (hs : ∀ r, h'.hashOf? r = h.hashOf? r)
    (he : h'.table = h.table) : h'.Tabled := by
  refine ⟨by rw [he]; exact ht.tidy, by rw [he]; exact ht.nodup, fun hash r => ?_⟩
  rw [he, hs]
  exact ht.mem_iff hash r

theorem SameCells.frameOf? (hs : SameCells h h') (r : Handle) : h'.frameOf? r = h.frameOf? r := by
  unfold Heap.frameOf?
  rw [hs.body?]

theorem SameCells.hashOf? (hs : SameCells h h') (r : Handle) : h'.hashOf? r = h.hashOf? r := by
  unfold Heap.hashOf?
  rw [hs.body?]

/-- Nothing of what the books are about has changed but the bytes set apart. -/
theorem Coherent.of_same (hx : h.Coherent x n) (hs : SameCells h h') (hf : h'.frames = h.frames)
    (ht : h'.table = h.table) (hd : h'.dropped = h.dropped) (hu : h'.used + n = h.used + m)
    (hl : h'.liveCells = h.liveCells) : h'.Coherent x m := by
  refine ⟨?_, hx.bound.of_same hs.frameOf? hf, hx.tabled.of_same hs.hashOf? ht, ?_, ?_⟩
  · refine hx.counted.of_same hs (fun r => ?_) hx.counted.owned (fun id f hid => ?_) fun r hr => ?_
    · unfold heldByFrames
      rw [hf, hd]
    · exact hx.counted.locals id f (by rw [← hf, hid])
    · exact hx.counted.roots r (by rw [← hd]; exact hr)
  · have hused := hx.accounted.used
    refine ⟨?_, by rw [hl, hs.total]; exact hx.accounted.cells⟩
    rw [hs.total, hf]
    omega
  · intro r c hc
    rw [hs.cell] at hc
    exact hx.rested r c hc

/-! ## Changing a cell -/

/-- The heaps agree on frames, table and dropped roots. -/
structure SameBooks (h h' : Heap) : Prop where
  frames : h'.frames = h.frames
  table : h'.table = h.table
  dropped : h'.dropped = h.dropped

/-- A cell that keeps its kind leaves every kind as it was. -/
theorem Updates.kind? (hu : Updates s (some c') h h') (hc : h.cell? s = some c)
    (hkind : c'.body.kind = c.body.kind) (r : Handle) : h'.kind? r = h.kind? r := by
  unfold Heap.kind?
  rw [hu.cell]
  split
  · rename_i hr
    rw [hr, hc]
    exact congrArg some hkind
  · rfl

theorem Updates.contains (hu : Updates s (some c') h h') (hc : h.cell? s = some c) (r : Handle) :
    h'.contains r = h.contains r := by
  unfold Heap.contains
  rw [hu.cell]
  split
  · rename_i hr
    rw [hr, hc]
    rfl
  · rfl

theorem Updates.frameOf?_eq (hu : Updates s new h h') (r : Handle) :
    h'.frameOf? r = if r = s then new.bind (·.body.frame?) else h.frameOf? r := by
  unfold Heap.frameOf? body?
  rw [hu.cell]
  split
  · cases new <;> rfl
  · rfl

theorem Updates.hashOf?_eq (hu : Updates s new h h') (r : Handle) :
    h'.hashOf? r = if r = s then new.bind (·.body.hash?) else h.hashOf? r := by
  unfold Heap.hashOf? body?
  rw [hu.cell]
  split
  · cases new <;> rfl
  · rfl

theorem Updates.frameOf?_same (hu : Updates s new h h')
    (hs : new.bind (·.body.frame?) = h.frameOf? s) (r : Handle) : h'.frameOf? r = h.frameOf? r := by
  rw [hu.frameOf?_eq]
  split
  · rename_i hr
    rw [hr, hs]
  · rfl

theorem Updates.hashOf?_same (hu : Updates s new h h')
    (hs : new.bind (·.body.hash?) = h.hashOf? s) (r : Handle) : h'.hashOf? r = h.hashOf? r := by
  rw [hu.hashOf?_eq]
  split
  · rename_i hr
    rw [hr, hs]
  · rfl

theorem Updates.frameOf? (hu : Updates s (some c') h h') (hc : h.cell? s = some c)
    (hframe : c'.body.frame? = c.body.frame?) (r : Handle) : h'.frameOf? r = h.frameOf? r := by
  refine hu.frameOf?_same ?_ r
  rw [frameOf?_of_cell? hc]
  exact hframe

theorem Updates.hashOf? (hu : Updates s (some c') h h') (hc : h.cell? s = some c)
    (hhash : c'.body.hash? = c.body.hash?) (r : Handle) : h'.hashOf? r = h.hashOf? r := by
  refine hu.hashOf?_same ?_ r
  rw [hashOf?_of_cell? hc]
  exact hhash

/-- The references for a handle change by those of the cell that changes. -/
theorem Updates.held (hu : Updates s new h h') (hc : h.cell? s = old) (hframes : h'.frames = h.frames)
    (hdropped : h'.dropped = h.dropped) (r : Handle) :
    h'.held r + old.elim 0 (·.body.refs.count r) = h.held r + new.elim 0 (·.body.refs.count r) := by
  have htotal := hu.total fun d => d.body.refs.count r
  rw [hc] at htotal
  unfold Heap.held heldByCells heldByFrames
  rw [hframes, hdropped]
  omega

/-- The account follows the cell that changes, as long as the bytes set apart make up for it. -/
theorem Accounted.update (ha : h.Accounted n) (hu : Updates s new h h') (hc : h.cell? s = old)
    (hframes : h'.frames.total (·.size) = h.frames.total (·.size))
    (hused : h'.used + n + old.elim 0 (·.size) = h.used + m + new.elim 0 (·.size))
    (hlive : h'.liveCells + old.elim 0 (fun _ => 1) = h.liveCells + new.elim 0 fun _ => 1) :
    h'.Accounted m := by
  have hbytes := hu.total (·.size)
  have hcells := hu.total fun _ => 1
  rw [hc] at hbytes hcells
  have hused₀ := ha.used
  have hcells₀ := ha.cells
  exact ⟨by omega, by omega⟩

/-- The references a cell held pass to the ledger, and those it holds now come from there. -/
theorem Counted.update (hx : h.Counted x) (hu : Updates s (some c') h h')
    (hframes : h'.frames = h.frames) (hdropped : h'.dropped = h.dropped)
    (hc : h.cell? s = some c) (hkind : c'.body.kind = c.body.kind)
    (hnames : h.Names c'.body.typedRefs)
    (hself : c'.refCount + x s + c.body.refs.count s = c.refCount + y s + c'.body.refs.count s)
    (hbal : ∀ r, r ≠ s → y r + c'.body.refs.count r = x r + c.body.refs.count r) : h'.Counted y := by
  have hheld : ∀ r, h'.held r + c.body.refs.count r = h.held r + c'.body.refs.count r :=
    hu.held hc hframes hdropped
  refine ⟨fun r d hd => ?_, fun r hr => ?_, fun r d hd p hp => ?_, fun id f hf p hp => ?_,
    fun r hr => ?_⟩
  · have hr := hheld r
    by_cases hrs : r = s
    · subst hrs
      rw [hu.cell_self] at hd
      cases hd
      have hcount := hx.counts r c hc
      omega
    · rw [hu.cell_other hrs] at hd
      have hcount := hx.counts r d hd
      have hbr := hbal r hrs
      omega
  · rw [hu.contains hc]
    by_cases hrs : r = s
    · subst hrs
      exact contains_of_cell? hc
    · have hbr := hbal r hrs
      by_cases hxr : 0 < x r
      · exact hx.owned r hxr
      · have hmem : r ∈ c.body.refs := List.count_pos_iff.mp (by omega)
        obtain ⟨k, hk⟩ := Body.typed_of_mem_refs hmem
        exact (hx.bodies s c hc).contains hk
  · rw [hu.kind? hc hkind]
    by_cases hrs : r = s
    · subst hrs
      rw [hu.cell_self] at hd
      cases hd
      exact hnames p hp
    · rw [hu.cell_other hrs] at hd
      exact hx.bodies r d hd p hp
  · rw [hu.kind? hc hkind]
    rw [hframes] at hf
    exact hx.locals id f hf p hp
  · rw [hu.contains hc]
    rw [hdropped] at hr
    exact hx.roots r hr

/-- A cell may be edited: what it held passes to the ledger, what it holds now comes from there, and the
account follows its size. -/
theorem Coherent.edit (hx : h.Coherent x n) (hu : Updates s (some c') h h') (hb : SameBooks h h')
    (hc : h.cell? s = some c) (hkind : c'.body.kind = c.body.kind)
    (hframe : c'.body.frame? = c.body.frame?) (hhash : c'.body.hash? = c.body.hash?)
    (hnames : h.Names c'.body.typedRefs) (hrest : c'.body.Rested)
    (hself : c'.refCount + x s + c.body.refs.count s = c.refCount + y s + c'.body.refs.count s)
    (hbal : ∀ r, r ≠ s → y r + c'.body.refs.count r = x r + c.body.refs.count r)
    (hused : h'.used + n + c.size = h.used + m + c'.size) (hlive : h'.liveCells = h.liveCells) :
    h'.Coherent y m := by
  refine ⟨hx.counted.update hu hb.frames hb.dropped hc hkind hnames hself hbal,
    hx.bound.of_same (hu.frameOf? hc hframe) hb.frames,
    hx.tabled.of_same (hu.hashOf? hc hhash) hb.table,
    hx.accounted.update hu hc (by rw [hb.frames]) hused (congrArg (· + 1) hlive),
    hu.forall_cells (fun d hd => ?_) hx.rested⟩
  cases hd
  exact hrest

/-- A cell may change in its count, mark and place. -/
theorem Coherent.recount (hx : h.Coherent x n) (hu : Updates s (some c') h h') (hb : SameBooks h h')
    (hc : h.cell? s = some c) (hbody : c'.body = c.body) (hsize : c'.size = c.size)
    (hself : c'.refCount + x s = c.refCount + y s) (hbal : ∀ r, r ≠ s → y r = x r)
    (hused : h'.used = h.used) (hlive : h'.liveCells = h.liveCells) : h'.Coherent y n := by
  refine hx.edit hu hb hc (by rw [hbody]) (by rw [hbody]) (by rw [hbody])
    (by rw [hbody]; exact hx.counted.bodies s c hc) (by rw [hbody]; exact hx.rested s c hc) ?_
    (fun r hr => by rw [hbody, hbal r hr]) (by omega) hlive
  rw [hbody]
  omega

/-! ## Vacating a slot -/

/-- A cell that nobody refers to may go; what it held passes to the ledger. -/
theorem Counted.vacate (hx : h.Counted x) (hu : Updates s none h h') (hframes : h'.frames = h.frames)
    (hdropped : h'.dropped = h.dropped) (hc : h.cell? s = some c) (hzero : c.refCount = 0) :
    h'.Counted (x.plus c.body.refs) := by
  have hcount := hx.counts s c hc
  unfold held at hcount
  have hheld : ∀ r, h'.held r + c.body.refs.count r = h.held r := hu.held hc hframes hdropped
  -- no reference is for the cell, so the kinds of all references stay
  have hbodies : ∀ r d, h.cell? r = some d → s ∉ d.body.refs := fun r d hd hmem => by
    have := held_pos_of_mem_refs (tenant?_of_cell? hd) hmem
    omega
  have hlocals : ∀ id f, h.frames.get? id = some f → s ∉ f.refs := fun id f hf hmem => by
    have hpos := List.count_pos_iff.mpr hmem
    have hle : f.refs.count s ≤ h.heldByFrames s :=
      FrameTable.le_total (w := fun f => f.refs.count s) hf
    omega
  have hkind : ∀ p : Handle × Kind, p.1 ≠ s → h'.kind? p.1 = h.kind? p.1 := fun p hp => by
    unfold Heap.kind?
    rw [hu.cell_other hp]
  have hcontains : ∀ r, r ≠ s → h'.contains r = h.contains r := fun r hr => by
    unfold Heap.contains
    rw [hu.cell_other hr]
  refine ⟨fun r d hd => ?_, fun r hr => ?_, fun r d hd p hp => ?_, fun id f hf p hp => ?_,
    fun r hr => ?_⟩
  · have hrs : r ≠ s := by
      rintro rfl
      rw [hu.cell_self] at hd
      cases hd
    rw [hu.cell_other hrs] at hd
    have h₁ := hx.counts r d hd
    have h₂ := hheld r
    simp only [Ledger.plus_apply]
    omega
  · simp only [Ledger.plus_apply] at hr
    have hrs : r ≠ s := by
      rintro rfl
      have := List.count_eq_zero.mpr (hbodies r c hc)
      omega
    rw [hcontains r hrs]
    by_cases hxr : 0 < x r
    · exact hx.owned r hxr
    · obtain ⟨k, hk⟩ := Body.typed_of_mem_refs (List.count_pos_iff.mp (by omega : 0 < c.body.refs.count r))
      exact (hx.bodies s c hc).contains hk
  · have hrs : r ≠ s := by
      rintro rfl
      rw [hu.cell_self] at hd
      cases hd
    rw [hu.cell_other hrs] at hd
    rw [hkind p fun hp' => hbodies r d hd (hp' ▸ Body.mem_refs_of_typed hp)]
    exact hx.bodies r d hd p hp
  · rw [hframes] at hf
    have hmem : p.1 ∈ f.refs := by
      rw [← Frame.map_typedRefs]
      exact List.mem_map_of_mem hp
    rw [hkind p fun hp' => hlocals id f hf (hp' ▸ hmem)]
    exact hx.locals id f hf p hp
  · rw [hdropped] at hr
    have hpos := List.count_pos_iff.mpr hr
    rw [hcontains r fun hrs => by subst hrs; omega]
    exact hx.roots r hr

theorem Updates.frameOf?_none (hu : Updates s none h h') (r : Handle) :
    h'.frameOf? r = if r = s then none else h.frameOf? r := hu.frameOf?_eq r

theorem Updates.hashOf?_none (hu : Updates s none h h') (r : Handle) :
    h'.hashOf? r = if r = s then none else h.hashOf? r := hu.hashOf?_eq r

theorem Bound.vacate (hb : h.Bound) (hu : Updates s none h h') (hframes : h'.frames = h.frames)
    (hs : h.frameOf? s = none) : h'.Bound := hb.of_same (hu.frameOf?_same hs.symm) hframes

/-- An attached variable that goes is taken off the open list of its frame. -/
theorem Bound.vacate_attached (hb : h.Bound) (hu : Updates s none h h') (hs : h.frameOf? s = some id)
    (hframes : h'.frames = h.frames.modify id.index (·.close s)) : h'.Bound := by
  have hget : ∀ j f', h'.frames.get? j = some f' → ∃ f, h.frames.get? j = some f ∧
      (f' = f.close s ∧ j = id ∨ f' = f ∧ j ≠ id) := by
    intro j f' hf'
    rw [hframes, FrameTable.get?_modify] at hf'
    split at hf'
    · rename_i hj
      obtain ⟨f, hf, rfl⟩ := Option.map_eq_some_iff.mp hf'
      obtain ⟨g, hg, _⟩ := hb.listed s id hs
      exact ⟨f, hf, .inl ⟨rfl, FrameTable.id_eq_of_get? hg hf hj.symm⟩⟩
    · rename_i hj
      exact ⟨f', hf', .inr ⟨rfl, fun hid => hj (by rw [hid])⟩⟩
  refine ⟨by rw [hframes]; exact hb.tidy.modify _ _, fun r j hr => ?_, fun j f' hf' => ?_,
    fun j f' hf' r hr => ?_⟩
  · rw [hu.frameOf?_none] at hr
    split at hr
    · cases hr
    · rename_i hrs
      obtain ⟨f, hf, hmem⟩ := hb.listed r j hr
      rw [hframes, FrameTable.get?_modify, hf]
      split
      · exact ⟨f.close s, rfl, ((Frame.mem_close (hb.nodup j f hf) s).2 r).mpr ⟨hmem, hrs⟩⟩
      · exact ⟨f, rfl, hmem⟩
  · obtain ⟨f, hf, ⟨rfl, _⟩ | ⟨rfl, _⟩⟩ := hget j f' hf'
    · exact (Frame.mem_close (hb.nodup j f hf) s).1
    · exact hb.nodup j f' hf
  · rw [hu.frameOf?_none]
    obtain ⟨f, hf, ⟨rfl, _⟩ | ⟨rfl, hj⟩⟩ := hget j f' hf'
    · obtain ⟨hmem, hrs⟩ := ((Frame.mem_close (hb.nodup j f hf) s).2 r).mp hr
      rw [if_neg hrs]
      exact hb.attached j f hf r hmem
    · have hmem := hb.attached j f' hf r hr
      split
      · rename_i hrs
        rw [hrs, hs] at hmem
        cases hmem
        exact absurd rfl hj
      · exact hmem

theorem Tabled.vacate (ht : h.Tabled) (hu : Updates s none h h') (htable : h'.table = h.table)
    (hs : h.hashOf? s = none) : h'.Tabled := ht.of_same (hu.hashOf?_same hs.symm) htable

/-- A shape that is taken out of the table is not registered. -/
theorem Tabled.erase {hash : UInt32} (ht : h.Tabled) (hs : h.hashOf? s = some hash)
    (htidy : h'.table.Tidy) (hperm : h.table.toList.Perm ((hash, s) :: h'.table.toList))
    (hhash : ∀ r, h'.hashOf? r = if r = s then none else h.hashOf? r) : h'.Tabled := by
  obtain ⟨hnot, hnd⟩ := List.nodup_cons.mp (hperm.nodup_iff.mp ht.nodup)
  refine ⟨htidy, hnd, fun k r => ?_⟩
  have hmem := ht.mem_iff k r
  rw [hperm.mem_iff, List.mem_cons] at hmem
  rw [hhash]
  split
  · rename_i hr
    subst hr
    constructor
    · intro hk
      have hkr := hmem.mp (.inr hk)
      rw [hs] at hkr
      cases hkr
      exact absurd hk hnot
    · nofun
  · rename_i hr
    rw [← hmem]
    constructor
    · exact .inr
    · rintro (he | hk)
      · cases he
        exact absurd rfl hr
      · exact hk

/-- A cell can be freed, and the account follows. -/
theorem Accounted.free (ha : h.Accounted n) (hc : h.cell? s = some c) :
    ∃ h', h.free s.index = .ok h' ∧ h'.Accounted n ∧ h'.frames = h.frames ∧ h'.table = h.table ∧
      h'.dropped = h.dropped := by
  have ht := tenant?_of_cell? hc
  have hsize : c.size ≤ h.total (·.size) := le_total (f := (·.size)) ht
  have hone : 1 ≤ h.total fun _ => 1 := le_total (f := fun _ => 1) ht
  have hused := ha.used
  have hcells := ha.cells
  have hok := free_eq_ok_iff.mpr ⟨c, ht, by omega, by omega, rfl⟩
  refine ⟨_, hok, ⟨?_, ?_⟩, rfl, rfl, rfl⟩
  · have htotal := total_free (·.size) hok ht
    dsimp only at htotal ⊢
    omega
  · have htotal := total_free (fun _ => 1) hok ht
    dsimp only at htotal ⊢
    omega

theorem Coherent.rested_vacate (hx : h.Coherent x n) (hu : Updates s none h h') :
    ∀ r d, h'.cell? r = some d → d.body.Rested := hu.forall_cells (fun _ hd => by cases hd) hx.rested

/-- A finalized cell that nobody refers to can be freed. -/
theorem Coherent.free (hx : h.Coherent x n) (hc : h.cell? s = some c) (hzero : c.refCount = 0)
    (hframe : c.body.frame? = none) (hhash : c.body.hash? = none) :
    ∃ h', h.free s.index = .ok h' ∧ h'.Coherent (x.plus c.body.refs) n := by
  obtain ⟨h', hok, ha, hframes, htable, hdropped⟩ := hx.accounted.free hc
  have hu := Updates.free hc hok
  exact ⟨h', hok, hx.counted.vacate hu hframes hdropped hc hzero,
    hx.bound.vacate hu hframes ((frameOf?_of_cell? hc).trans hframe),
    hx.tabled.vacate hu htable ((hashOf?_of_cell? hc).trans hhash), ha, hx.rested_vacate hu⟩

/-! ## Putting a cell into a slot -/

/-- A new cell takes what it holds from the ledger, which owns the cell then. -/
theorem Counted.put {z : Ledger} (hx : h.Counted (z.plus c.body.refs)) (hu : Updates s (some c) h h')
    (hframes : h'.frames = h.frames) (hdropped : h'.dropped = h.dropped) (hs : h.cell? s = none)
    (hone : c.refCount = 1) (hnames : h.Names c.body.typedRefs) : h'.Counted (z.plus [s]) := by
  obtain ⟨hzero, hcells, hlocals, hroots⟩ := hx.held_eq_zero hs
  simp only [Ledger.plus_apply] at hzero
  have hheld : ∀ r, h'.held r = h.held r + c.body.refs.count r := hu.held hs hframes hdropped
  have hkind : ∀ r k, h.kind? r = some k → h'.kind? r = some k := by
    intro r k hr
    have hrs : r ≠ s := by
      rintro rfl
      simp [Heap.kind?, hs] at hr
    unfold Heap.kind? at hr ⊢
    rw [hu.cell_other hrs]
    exact hr
  have hcontains : ∀ r, h.contains r = true → h'.contains r = true := by
    intro r hr
    obtain ⟨d, hd⟩ := contains_iff.mp hr
    have hrs : r ≠ s := by
      rintro rfl
      rw [hs] at hd
      cases hd
    exact contains_of_cell? ((hu.cell_other hrs).trans hd)
  refine ⟨fun r d hd => ?_, fun r hr => ?_, fun r d hd p hp => ?_, fun id f hf p hp => ?_,
    fun r hr => ?_⟩
  · rw [hheld]
    by_cases hrs : r = s
    · subst hrs
      rw [hu.cell_self] at hd
      cases hd
      simp only [Ledger.plus_apply, List.count_singleton_self, held]
      omega
    · rw [hu.cell_other hrs] at hd
      have hcount := hx.counts r d hd
      simp only [Ledger.plus_apply] at hcount ⊢
      simp only [List.count_singleton, beq_iff_eq, Ne.symm hrs, if_false]
      omega
  · by_cases hrs : r = s
    · subst hrs
      exact contains_of_cell? hu.cell_self
    · simp only [Ledger.plus_apply, List.count_singleton, beq_iff_eq, Ne.symm hrs, if_false] at hr
      exact hcontains r (hx.owned r (by simp only [Ledger.plus_apply]; omega))
  · by_cases hrs : r = s
    · subst hrs
      rw [hu.cell_self] at hd
      cases hd
      exact hkind _ _ (hnames p hp)
    · rw [hu.cell_other hrs] at hd
      exact hkind _ _ (hx.bodies r d hd p hp)
  · rw [hframes] at hf
    exact hkind _ _ (hx.locals id f hf p hp)
  · rw [hdropped] at hr
    exact hcontains r (hx.roots r hr)

/-- A new cell that is neither attached to a frame nor registered may be put under a new handle. -/
theorem Coherent.put {z : Ledger} (hx : h.Coherent (z.plus c.body.refs) (n + c.size))
    (hu : Updates s (some c) h h') (hb : SameBooks h h') (hs : h.cell? s = none) (hone : c.refCount = 1)
    (hnames : h.Names c.body.typedRefs) (hrest : c.body.Rested) (hframe : c.body.frame? = none)
    (hhash : c.body.hash? = none) (hused : h'.used = h.used) (hlive : h'.liveCells = h.liveCells + 1) :
    h'.Coherent (z.plus [s]) n := by
  refine ⟨hx.counted.put hu hb.frames hb.dropped hs hone hnames,
    hx.bound.of_same (hu.frameOf?_same ?_) hb.frames, hx.tabled.of_same (hu.hashOf?_same ?_) hb.table,
    hx.accounted.update hu hs (by rw [hb.frames]) ?_ hlive, hu.forall_cells (fun d hd => ?_) hx.rested⟩
  · rw [frameOf?_of_vacant hs]
    exact hframe
  · rw [hashOf?_of_vacant hs]
    exact hhash
  · simp only [Option.elim_some, Option.elim_none]
    omega
  · cases hd
    exact hrest

/-! ## Registering and unregistering a shape -/

/-- A shape that is entered into the table is registered. -/
theorem Tabled.insert {hash : UInt32} (ht : h.Tabled) (hs : h.hashOf? s = none)
    (htable : h'.table = h.table.insert hash s)
    (hhash : ∀ r, h'.hashOf? r = if r = s then some hash else h.hashOf? r) : h'.Tabled := by
  obtain ⟨htidy, hperm⟩ := ht.tidy.insert hash s
  have hnot : (hash, s) ∉ h.table.toList := fun hmem => by
    have := (ht.mem_iff hash s).mp hmem
    rw [hs] at this
    cases this
  refine ⟨by rw [htable]; exact htidy, ?_, fun k r => ?_⟩
  · rw [htable]
    exact hperm.nodup_iff.mpr (List.nodup_cons.mpr ⟨hnot, ht.nodup⟩)
  · rw [htable, hperm.mem_iff, List.mem_cons, ht.mem_iff, hhash]
    split
    · rename_i hr
      subst hr
      simp [hs, eq_comm]
    · rename_i hr
      simp [hr]

/-- A cell may change whether it is registered, if the table follows. -/
theorem Coherent.retable (hx : h.Coherent x n) (hu : Updates s (some c') h h')
    (hframes : h'.frames = h.frames) (hdropped : h'.dropped = h.dropped) (hc : h.cell? s = some c)
    (hkind : c'.body.kind = c.body.kind) (htyped : c'.body.typedRefs = c.body.typedRefs)
    (hframe : c'.body.frame? = c.body.frame?) (hrest : c'.body.Rested)
    (hcount : c'.refCount = c.refCount) (hsize : c'.size = c.size) (ht : h'.Tabled)
    (hused : h'.used = h.used) (hlive : h'.liveCells = h.liveCells) : h'.Coherent x n := by
  have hrefs : c'.body.refs = c.body.refs := by
    rw [← Body.map_typedRefs, ← Body.map_typedRefs, htyped]
  refine ⟨hx.counted.update hu hframes hdropped hc hkind ?_ (by rw [hrefs, hcount])
    (fun r _ => by rw [hrefs]), hx.bound.of_same (hu.frameOf? hc hframe) hframes, ht,
    hx.accounted.update hu hc (by rw [hframes]) ?_ (congrArg (· + 1) hlive),
    hu.forall_cells (fun d hd => ?_) hx.rested⟩
  · rw [htyped]
    exact hx.counted.bodies s c hc
  · simp only [Option.elim_some]
    omega
  · cases hd
    exact hrest

end ObjectMemory.Heap
