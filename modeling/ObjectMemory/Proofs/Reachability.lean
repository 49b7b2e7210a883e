import ObjectMemory.Proofs.TrialDeletion
set_option autoImplicit false

/-!
# What is held outside the cells, and what it leads to

A reference outside the cells is one of the ledger, of a frame or of a dropped root (`Heap.outside`).
`Heap.Reachable` follows the references of bodies from there.  In a sound heap the walks of the
collector lead to exactly the reachable tracked cells (`Heap.Sound.leads_iff`), and the passes before
removal keep the books (`Heap.Sifted.coherent`).
-/

namespace ObjectMemory.Heap

variable {x : Ledger} {n : Nat} {h h' : Heap} {r s : Handle} {c : Cell} {i j : Nat}
  {root : Handle → Prop} {garbage : List Nat}

/-- The cells that references lead to from the roots, along the references of bodies. -/
inductive Reachable (h : Heap) (root : Handle → Prop) : Handle → Prop
  | root {r : Handle} : root r → Reachable h root r
  | step {r s : Handle} {c : Cell} : Reachable h root r → h.cell? r = some c → s ∈ c.body.refs →
    Reachable h root s

/-- The cells that references from outside lead to. -/
abbrev Held (h : Heap) (x : Ledger) : Handle → Prop := h.Reachable fun r => 0 < h.outside x r

/-- What references lead to is live. -/
theorem Counted.contains_of_reachable (hx : h.Counted x) (hroot : ∀ r, root r → h.contains r = true)
    (hr : h.Reachable root r) : h.contains r = true := by
  induction hr with
  | root hr => exact hroot _ hr
  | step _ hc hs _ =>
    obtain ⟨k, hk⟩ := Body.typed_of_mem_refs hs
    exact (hx.bodies _ _ hc).contains hk

theorem Reachable.mono {root' : Handle → Prop} (hroot : ∀ r, root r → root' r)
    (hr : h.Reachable root r) : h.Reachable root' r := by
  induction hr with
  | root hr => exact .root (hroot _ hr)
  | step _ hc hs ih => exact .step ih hc hs

/-! ## The collector's view -/

theorem Sound.noZombies (hs : h.Sound x n) : h.NoZombies := fun _ c hc =>
  (hs.settled _ c (tenant?_of_cell? hc)).body

theorem isTracked_of_tenant (hc : h.tenant? i = some c) :
    h.isTracked (h.handle i) = c.body.frame?.isNone := by
  have hcell : h.cell? (h.handle i) = some c := by rw [cell?_handle, hc]
  rw [isTracked, frameOf?_of_cell? hcell]

/-- The live list holds the tracked cells. -/
theorem Sound.tracks (hs : h.Sound x n) : h.Tracks h.liveOrder := by
  refine ⟨nodup_liveOrder h, fun i => ?_⟩
  rw [mem_liveOrder, placeAt?_eq]
  constructor
  · rintro ⟨t, ht⟩
    obtain ⟨c, hc, hp⟩ := Option.map_eq_some_iff.mp ht
    have hplace := (hs.settled i c hc).place
    rw [hp] at hplace
    exact ⟨c, hc, by simpa [Place.isLive, Place.ticket?] using hplace.symm⟩
  · rintro ⟨c, hc, hf⟩
    have hplace := (hs.settled i c hc).place
    rw [hf] at hplace
    cases hp : c.place with
    | live t => exact ⟨t, by rw [hc, Option.map_some, hp]⟩
    | _ => simp [hp, Place.isLive, Place.ticket?] at hplace

theorem Sound.mem_liveOrder_iff (hs : h.Sound x n) (hc : h.tenant? i = some c) :
    i ∈ h.liveOrder ↔ h.isTracked (h.handle i) = true := by
  rw [hs.tracks.mem_iff, isTracked_of_tenant hc]
  simp [hc]

/-- The part of a count that no edge makes up. -/
def outsideAt (h : Heap) (x : Ledger) (i : Nat) : Nat :=
  if h.isTracked (h.handle i) then h.outside x (h.handle i) else h.countAt i

theorem Sound.countAt_eq (hs : h.Sound x n) (i : Nat) :
    h.outsideAt x i + (h.liveOrder.flatMap h.kids).count i = h.countAt i := by
  rw [hs.coherent.count_flatMap_kids hs.noZombies hs.tracks]
  unfold outsideAt
  cases hc : h.tenant? i with
  | some c =>
    have hcell : h.cell? (h.handle i) = some c := by rw [cell?_handle, hc]
    have hcount := hs.coherent.counted.refCount_eq hcell
    split
    · rw [countAt_of_tenant hc, hcount]
    · rfl
  | none =>
    have hcell : h.cell? (h.handle i) = none := by rw [cell?_handle, hc]
    obtain ⟨h₁, h₂, h₃, h₄⟩ := hs.coherent.counted.held_eq_zero hcell
    simp [outside, countAt, hc, h₁, h₂, h₃, h₄]

/-- The ends of edges are references to tracked cells. -/
theorem Sound.mem_kids_iff (hs : h.Sound x n) (hc : h.tenant? j = some c) :
    i ∈ h.kids j ↔ h.isTracked (h.handle i) = true ∧ h.handle i ∈ c.body.refs := by
  rw [← List.count_pos_iff, hs.coherent.count_kids hs.noZombies hc, ← List.count_pos_iff]
  by_cases ht : h.isTracked (h.handle i) = true
  · simp [ht]
  · simp [ht]

theorem tenant_of_mem_kids (hi : i ∈ h.kids j) : ∃ c, h.tenant? j = some c := by
  cases hc : h.tenant? j with
  | some c => exact ⟨c, rfl⟩
  | none => simp [kids, hc] at hi

/-- The garbage of a sound heap can be found. -/
theorem Sound.ready (hs : h.Sound x n) : h.Ready := by
  refine ⟨fun i => ?_, fun i hi => ?_, fun j i hi => ?_, fun i => ?_⟩
  · unfold markAt
    cases hc : h.tenant? i with
    | none => rfl
    | some c => exact (hs.settled i c hc).mark
  · obtain ⟨k, hk⟩ := List.exists_mem_of_ne_nil _ hi
    obtain ⟨c, hc⟩ := tenant_of_mem_kids hk
    obtain ⟨_, hmem⟩ := (hs.mem_kids_iff hc).mp hk
    refine (hs.tracks.mem_iff i).mpr ⟨c, hc, ?_⟩
    by_contra hframe
    obtain ⟨id, hid⟩ := Option.ne_none_iff_exists'.mp hframe
    rw [Body.refs_of_frame? hid] at hmem
    cases hmem
  · obtain ⟨c, hc⟩ := tenant_of_mem_kids hi
    obtain ⟨ht, hmem⟩ := (hs.mem_kids_iff hc).mp hi
    have hcell : h.cell? (h.handle j) = some c := by rw [cell?_handle, hc]
    obtain ⟨k, hk⟩ := Body.typed_of_mem_refs hmem
    obtain ⟨d, hd⟩ := contains_iff.mp ((hs.coherent.counted.bodies _ c hcell).contains hk)
    exact (hs.mem_liveOrder_iff (tenant?_of_cell? hd)).mpr ht
  · have := hs.countAt_eq i
    omega

/-- The walks of the collector lead to the tracked cells that references lead to. -/
theorem Sound.leads_iff (hs : h.Sound x n) (hi : i ∈ h.liveOrder) :
    h.Leads (h.outsideAt x) i ↔ h.Held x (h.handle i) := by
  have hto : ∀ i, h.Leads (h.outsideAt x) i → i ∈ h.liveOrder → h.Held x (h.handle i) := by
    intro i hl
    induction hl with
    | @root i hne =>
      intro hi
      obtain ⟨c, hc⟩ := tenant_of_mem_liveOrder hi
      have ht := (hs.mem_liveOrder_iff hc).mp hi
      unfold outsideAt at hne
      rw [if_pos ht] at hne
      exact .root (Nat.pos_of_ne_zero hne)
    | @edge i j _ hij ih =>
      intro _
      obtain ⟨c, hc⟩ := tenant_of_mem_kids hij
      have hcell : h.cell? (h.handle j) = some c := by rw [cell?_handle, hc]
      exact .step (ih (hs.ready.sources j (List.ne_nil_of_mem hij))) hcell
        ((hs.mem_kids_iff hc).mp hij).2
  have hfrom : ∀ r, h.Held x r → h.isTracked r = true → h.Leads (h.outsideAt x) r.index := by
    intro r hr
    induction hr with
    | @root r hpos =>
      intro ht
      obtain ⟨c, hc⟩ := contains_iff.mp (hs.coherent.counted.contains_of_outside hpos)
      refine .root ?_
      unfold outsideAt
      rw [handle_eq_of_cell? hc, if_pos ht]
      omega
    | @step r s c _ hc hmem ih =>
      intro ht
      -- an attached variable refers to nothing
      have htr : h.isTracked r = true := by
        rw [isTracked, frameOf?_of_cell? hc]
        by_contra hframe
        obtain ⟨id, hid⟩ := Option.isSome_iff_exists.mp (by simpa [Option.isSome_iff_ne_none] using hframe)
        rw [Body.refs_of_frame? hid] at hmem
        cases hmem
      obtain ⟨k, hk⟩ := Body.typed_of_mem_refs hmem
      obtain ⟨d, hd⟩ := contains_iff.mp ((hs.coherent.counted.bodies _ c hc).contains hk)
      refine .edge (ih htr) ((hs.mem_kids_iff (tenant?_of_cell? hc)).mpr ?_)
      rw [handle_eq_of_cell? hd]
      exact ⟨ht, hmem⟩
  obtain ⟨c, hc⟩ := tenant_of_mem_liveOrder hi
  exact ⟨fun hl => hto i hl hi, fun hr => hfrom _ hr ((hs.mem_liveOrder_iff hc).mp hi)⟩

/-! ## The books after the garbage was found -/

/-- The books do not mind changes of marks and places. -/
theorem Shadows.coherent (hsh : Shadows h h') (hcount : ∀ i, h'.countAt i = h.countAt i)
    (hx : h.Coherent x n) : h'.Coherent x n := by
  have hcell : ∀ r c', h'.cell? r = some c' → ∃ c, h.cell? r = some c ∧ c'.body = c.body ∧
      c'.size = c.size ∧ c'.refCount = c.refCount := by
    intro r c' hc'
    obtain ⟨c, hc, hsize, hbody⟩ := hsh.cell_before hc'
    refine ⟨c, hc, hbody.symm, hsize.symm, ?_⟩
    rw [← countAt_of_tenant (tenant?_of_cell? hc'), ← countAt_of_tenant (tenant?_of_cell? hc), hcount]
  have hkind : ∀ r, h'.kind? r = h.kind? r := by
    intro r
    have hb := congrArg (Option.map Body.kind) (hsh.body? r)
    simpa [Heap.body?, Heap.kind?, Cell.kind, Function.comp_def] using hb
  have hcontains : ∀ r, h'.contains r = h.contains r := by
    intro r
    have hb := congrArg Option.isSome (hsh.body? r)
    simpa [Heap.body?, Heap.contains] using hb
  have htotal : ∀ f : Nat × Body → Nat,
      h'.total (fun c => f (c.size, c.body)) = h.total fun c => f (c.size, c.body) := by
    intro f
    refine total_congr fun i => ?_
    have hi := hsh.cells i
    cases hc' : h'.tenant? i with
    | none =>
      rw [hc', Option.map_none] at hi
      rw [Option.map_eq_none_iff.mp hi.symm]
    | some c' =>
      obtain ⟨c, hc, hsize, hbody⟩ := hsh.tenant_before hc'
      simp [hc, hsize, hbody]
  have hframes : h'.frames = h.frames := (congrArg Heap.frames hsh.rest :)
  have htable : h'.table = h.table := (congrArg Heap.table hsh.rest :)
  have hdropped : h'.dropped = h.dropped := (congrArg Heap.dropped hsh.rest :)
  have hused : h'.used = h.used := (congrArg Heap.used hsh.rest :)
  have hlive : h'.liveCells = h.liveCells := (congrArg Heap.liveCells hsh.rest :)
  have hheld : ∀ r, h'.held r = h.held r := by
    intro r
    unfold held heldByCells heldByFrames
    rw [htotal fun p => p.2.refs.count r, hframes, hdropped]
  have hframeOf : ∀ r, h'.frameOf? r = h.frameOf? r := fun r => by
    unfold Heap.frameOf?
    rw [hsh.body?]
  have hhashOf : ∀ r, h'.hashOf? r = h.hashOf? r := fun r => by
    unfold Heap.hashOf?
    rw [hsh.body?]
  refine ⟨⟨fun r c' hc' => ?_, fun r hr => ?_, fun r c' hc' p hp => ?_, fun id f hf p hp => ?_,
    fun r hr => ?_⟩, hx.bound.of_same hframeOf hframes, hx.tabled.of_same hhashOf htable, ⟨?_, ?_⟩,
    fun r c' hc' => ?_⟩
  · obtain ⟨c, hc, _, _, hcount⟩ := hcell r c' hc'
    rw [hcount, hheld]
    exact hx.counted.counts r c hc
  · rw [hcontains]
    exact hx.counted.owned r hr
  · obtain ⟨c, hc, hbody, _⟩ := hcell r c' hc'
    rw [hkind]
    rw [hbody] at hp
    exact hx.counted.bodies r c hc p hp
  · rw [hframes] at hf
    rw [hkind]
    exact hx.counted.locals id f hf p hp
  · rw [hdropped] at hr
    rw [hcontains]
    exact hx.counted.roots r hr
  · rw [hused, htotal fun p => p.1, hframes]
    exact hx.accounted.used
  · rw [hlive, htotal fun _ => 1]
    exact hx.accounted.cells
  · obtain ⟨c, hc, hbody, _⟩ := hcell r c' hc'
    rw [hbody]
    exact hx.rested r c hc

end ObjectMemory.Heap
