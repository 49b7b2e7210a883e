import ObjectMemory.Proofs.Removal
set_option autoImplicit false

/-!
# A collection

A collection of a sound heap ends, leaves the heap sound, and what is left of the heap is what references
from outside lead to (`Heap.Sound.collectCycles`).  The counter of finalized cells goes up by the number
of objects and functions that went.
-/

namespace ObjectMemory.Heap

variable {x : Ledger} {n : Nat} {h₀ h h₁ h' : Heap} {r s : Handle} {c c' d : Cell} {i j : Nat}
  {garbage : List Nat}

/-! ## When all is finalized -/

/-- A cell of a kind that does not wait refers to cells that wait, but for the shape a realm keeps. -/
theorem kind_of_typedRefs {b : Body} {p : Handle × Kind} (hp : p ∈ b.typedRefs)
    (hb : b.kind.isQueued = false) : p.2.isQueued = true ∨ p.2 = .shape ∧ b.kind = .realm := by
  have hvalue : ∀ {v : Value}, v.typedRef? = some p → p.2.isQueued = true := by
    intro v hv
    cases v <;> simp only [Value.typedRef?, Option.some.injEq, reduceCtorEq] at hv <;> subst hv <;> rfl
  cases b with
  | captured v =>
    cases v with
    | attached id slot => cases hp
    | detached v => exact .inl (hvalue (Option.mem_toList.mp hp))
  | suspension s =>
    obtain ⟨v, _, hv⟩ := List.mem_filterMap.mp hp
    exact .inl (hvalue hv)
  | shape s =>
    obtain ⟨r, _, rfl⟩ := List.mem_map.mp hp
    exact .inl rfl
  | realm m =>
    simp only [Body.typedRefs, List.mem_cons, List.not_mem_nil, or_false] at hp
    rcases hp with rfl | rfl | rfl | rfl | rfl
    · exact .inl rfl
    · exact .inl rfl
    · exact .inl rfl
    · exact .inr ⟨rfl, rfl⟩
    · exact .inl rfl
  | object o => cases hb
  | bytecode b => cases hb
  | zombie k => cases hp

/-- No reference from outside the garbage is for garbage. -/
structure Cut (x : Ledger) (h : Heap) (garbage : List Nat) : Prop where
  outside : ∀ r, r.index ∈ garbage → h.outside x r = 0
  bodies : ∀ j c r, h.tenant? j = some c → j ∉ garbage → r ∈ c.body.refs → r.index ∉ garbage

namespace Removing

/-- What makes up the count of garbage when all of the queued kinds is finalized. -/
theorem referrer (hr : Removing x n h₀ garbage [] h []) (hcut : Cut x h₀ garbage) (hi : i ∈ garbage)
    (hc : h.tenant? i = some c) (hne : c.refCount ≠ 0) :
    ∃ j d, j ∈ garbage ∧ h.tenant? j = some d ∧ d.kind.isQueued = false ∧
      (h.handle i, c.kind) ∈ d.body.typedRefs := by
  have hx : h.Coherent x n := by simpa [released] using hr.coherent
  have hcell : h.cell? (h.handle i) = some c := by rw [cell?_handle, hc]
  have hcount := hx.counted.refCount_eq hcell
  have hzero : h.outside x (h.handle i) = 0 := by
    rw [hr.decays.calm.outside]
    exact hcut.outside _ hi
  obtain ⟨j, d, hd, hpos⟩ := exists_of_total_pos (h := h) (f := fun c => c.body.refs.count (h.handle i))
    (by unfold heldByCells at hcount; omega)
  have hmem := List.count_pos_iff.mp hpos
  have hdz : d.body.isZombie = false := by
    by_contra hz
    rw [refs_of_zombie (by simpa using hz)] at hmem
    cases hmem
  have hj : j ∈ garbage := by
    by_contra hj
    obtain ⟨d₀, hd₀, _, hf⟩ := hr.before hd
    have hbody : d.body = d₀.body := by
      rcases hf.body with hb | hb
      · exact hb
      · rw [hdz] at hb
        cases hb
    exact hcut.bodies j d₀ _ hd₀ hj (hbody ▸ hmem) hi
  refine ⟨j, d, hj, hd, ?_, ?_⟩
  · by_contra hq
    have := hr.past j d hj (by simp) hd (by simpa using hq)
    rw [hdz] at this
    cases this
  · obtain ⟨k, hk⟩ := Body.typed_of_mem_refs hmem
    have hdcell : h.cell? (h.handle j) = some d := by rw [cell?_handle, hd]
    obtain ⟨e, he, hek⟩ := kind?_eq_some_iff.mp (hx.counted.bodies _ d hdcell _ hk)
    rw [hcell] at he
    cases he
    rw [hek]
    exact hk

/-- Once every cell of a queued kind is finalized, the rest of the garbage is gone, and the finalized
cells have no references left. -/
theorem only_zombies (hr : Removing x n h₀ garbage [] h []) (hcut : Cut x h₀ garbage) (hi : i ∈ garbage)
    (hc : h.tenant? i = some c) :
    c.body.isZombie = true ∧ c.kind.isQueued = true ∧ c.place = .parked ∧ c.refCount = 0 := by
  -- a cell of another kind has a count, which only a realm could make up, and nothing could make up
  -- that of a realm
  have hplain : ∀ i c, i ∈ garbage → h.tenant? i = some c → c.kind.isQueued = true := by
    intro i c hi hc
    by_contra hq
    have hq : c.kind.isQueued = false := by simpa using hq
    obtain ⟨j, d, hj, hd, hdq, hmem⟩ := hr.referrer hcut hi hc (hr.plain i c hc hq).1
    obtain ⟨j', d', hj', hd', hdq', hmem'⟩ := hr.referrer hcut hj hd (hr.plain j d hd hdq).1
    rcases kind_of_typedRefs hmem hdq with h₁ | ⟨_, hrealm⟩
    · rw [hq] at h₁
      cases h₁
    · rcases kind_of_typedRefs hmem' hdq' with h₂ | ⟨h₂, _⟩
      · rw [hdq] at h₂
        cases h₂
      · have : d.kind = .shape := h₂
        rw [Cell.kind, hrealm] at this
        cases this
  have hq := hplain i c hi hc
  have hz := hr.past i c hi (by simp) hc hq
  refine ⟨hz, hq, ?_, ?_⟩
  · exact (hr.zombies i c hc hz).2.resolve_right (by simp)
  · by_contra hne
    obtain ⟨j, d, hj, hd, hdq, _⟩ := hr.referrer hcut hi hc hne
    rw [hplain j d hj hd] at hdq
    cases hdq

end Removing

/-! ## The sweep -/

/-- The parked cells of `done` are gone. -/
structure Sweeping (x : Ledger) (n : Nat) (h₀ : Heap) (garbage done : List Nat) (h : Heap) : Prop where
  decays : Decays h₀ h
  coherent : h.Coherent x n
  idle : h.phase = .idle
  waiting : h.zeroRefs.toList = []
  others : ∀ i, i ∉ garbage → h.tenant? i = h₀.tenant? i
  parked : ∀ i c, i ∈ garbage → h.tenant? i = some c →
    c.body.isZombie = true ∧ c.kind.isQueued = true ∧ c.place = .parked ∧ c.refCount = 0
  gone : ∀ i ∈ done, h.tenant? i = none

theorem Sweeping.cell {done : List Nat} (hw : Sweeping x n h₀ garbage done h) (hi : i ∈ garbage) :
    ∃ h', h.sweepCell i = .ok h' ∧ Sweeping x n h₀ garbage (done ++ [i]) h' := by
  unfold sweepCell
  cases hc : h.tenant? i with
  | none =>
    rw [placeAt?_eq, hc]
    refine ⟨h, rfl, hw.decays, hw.coherent, hw.idle, hw.waiting, hw.others, hw.parked, fun j hj => ?_⟩
    rcases List.mem_append.mp hj with hj | hj
    · exact hw.gone j hj
    · rw [List.mem_singleton.mp hj, hc]
  | some c =>
    obtain ⟨hz, hq, hp, hzero⟩ := hw.parked i c hi hc
    have hcell : h.cell? (h.handle i) = some c := by rw [cell?_handle, hc]
    obtain ⟨hframe, hhash, _⟩ := Coherent.plain_of_queued hq
    obtain ⟨h', hok, hx'⟩ := hw.coherent.free hcell hzero hframe hhash
    have hok : h.free i = .ok h' := hok
    rw [Removing.refs_of_zombie hz, Ledger.plus_nil] at hx'
    have hu := Updates.free hcell hok
    obtain ⟨hcalm, hphase, hwait⟩ := Calm.free (r := h.handle i) hok
    rw [placeAt?_of_tenant hc, hp]
    dsimp only
    rw [cellAt_eq_ok_iff.mpr hc]
    dsimp only
    rw [if_pos hq, hok]
    refine ⟨h', rfl, hw.decays.trans (.of_vacated hu hcalm), hx', hphase.trans hw.idle,
      by rw [hwait]; exact hw.waiting, fun j hj => ?_, fun j d hj hd => ?_, fun j hj => ?_⟩
    · have hji : j ≠ i := fun he => hj (he ▸ hi)
      rw [hu.tenant_other hji]
      exact hw.others j hj
    · rw [hu.tenant] at hd
      split at hd
      · cases hd
      · exact hw.parked j d hj hd
    · rw [hu.tenant]
      split
      · rfl
      · rename_i hji
        rcases List.mem_append.mp hj with hj | hj
        · exact hw.gone j hj
        · exact absurd (List.mem_singleton.mp hj) hji

/-- What removal leaves: the garbage is gone, and the cells of the other slots have lost references at
most. -/
structure Removed (x : Ledger) (n : Nat) (h₀ : Heap) (garbage : List Nat) (h : Heap) : Prop where
  decays : Decays { h₀ with collected := h.collected } h
  coherent : h.Coherent x n
  idle : h.phase = .idle
  waiting : h.zeroRefs.toList = []
  gone : ∀ i ∈ garbage, h.tenant? i = none
  bodies : ∀ i c, h.tenant? i = some c → c.body.isZombie = false
  places : ∀ i c, h.tenant? i = some c → h₀.placeAt? i = some c.place
  plain : ∀ i c, h.tenant? i = some c → c.kind.isQueued = false → c.refCount ≠ 0
  collected : h.collected = h₀.collected + (garbage.map fun i => (h₀.queuedAt i).toNat).sum

/-- What garbage must be to be removed: candidates that nothing outside refers to, in a heap where nothing
is finalized and nothing waits. -/
structure Removable (x : Ledger) (n : Nat) (h : Heap) (garbage : List Nat) : Prop where
  coherent : h.Coherent x n
  waiting : h.zeroRefs.toList = []
  whole : h.NoZombies
  cut : Cut x h garbage
  nodup : garbage.Nodup
  live : ∀ i ∈ garbage, ∃ c, h.tenant? i = some c
  candidate : ∀ i ∈ garbage, h.placeAt? i = some .candidate
  plain : ∀ i c, h.tenant? i = some c → c.kind.isQueued = false → c.refCount ≠ 0

/-- All garbage can be seen to, which leaves none but finalized cells that are parked. -/
theorem Removable.finalizes (hg : Removable x n h garbage) :
    ∃ h₁, garbage.foldlM removeCell { h with phase := .removingCycles } = .ok h₁ ∧
      Removing x n { h with
        phase := .removingCycles
        collected := h.collected + (garbage.map fun i => (h.queuedAt i).toNat).sum } garbage [] h₁ [] ∧
      ∀ i c, i ∈ garbage → h₁.tenant? i = some c →
        c.body.isZombie = true ∧ c.kind.isQueued = true ∧ c.place = .parked ∧ c.refCount = 0 := by
  have hbody : ∀ i c, h.tenant? i = some c → c.body.isZombie = false := fun i c hc =>
    hg.whole (h.handle i) c (by rw [cell?_handle, hc])
  have hstart : Removing x n { h with phase := .removingCycles } garbage garbage
      { h with phase := .removingCycles } [] := by
    refine ⟨.refl _, ?_, rfl, hg.waiting, fun i c hc hq => ⟨hg.plain i c hc hq, hbody i c hc⟩,
      fun i c _ hc => placeAt?_of_tenant hc, fun i c hc hzc => ?_, fun i hi hq => ?_,
      fun i c hi ht => absurd hi ht, fun i hi => (by cases hi), ⟨[], [], rfl, .inl rfl⟩⟩
    · have hx' : ({ h with phase := .removingCycles } : Heap).Coherent x n :=
        hg.coherent.of_same (.of_slots rfl) rfl rfl rfl rfl rfl
      simpa [released] using hx'
    · have hb := hbody i c hc
      rw [hzc] at hb
      cases hb
    · obtain ⟨c, hc⟩ := hg.live i hi
      have hp := hg.candidate i hi
      rw [placeAt?_of_tenant hc] at hp
      have hq : (h.tenant? i).elim false (·.kind.isQueued) = true := hq
      rw [hc] at hq
      exact ⟨c, hc, hq, hbody i c hc, Option.some.inj hp⟩
  obtain ⟨h₁, hfold, hr⟩ := hstart.cells hg.nodup fun _ hi => hi
  have hcut' : Cut x { h with
      phase := .removingCycles
      collected := h.collected + (garbage.map fun i => (h.queuedAt i).toNat).sum } garbage :=
    ⟨hg.cut.outside, hg.cut.bodies⟩
  exact ⟨h₁, hfold, hr, fun i c hi hc => hr.only_zombies hcut' hi hc⟩

/-- Garbage can be removed. -/
theorem Removable.removeGarbage_eq (hg : Removable x n h garbage) :
    ∃ h', h.removeGarbage garbage = .ok h' ∧ Removed x n h garbage h' := by
  obtain ⟨h₁, hfold, hr, hzombies⟩ := hg.finalizes
  have hsweep : Sweeping x n { h₁ with phase := .idle } garbage [] { h₁ with phase := .idle } := by
    refine ⟨.refl _, ?_, rfl, hr.waiting, fun i _ => rfl, hzombies,
      fun i hi => by cases hi⟩
    have hx₁ : h₁.Coherent x n := by simpa [released] using hr.coherent
    exact hx₁.of_same (.of_slots rfl) rfl rfl rfl rfl rfl
  obtain ⟨h', hfold', hw⟩ := foldlM_of_invariant garbage (f := sweepCell)
    (P := fun done h' => Sweeping x n { h₁ with phase := .idle } garbage done h')
    (fun done i rest h' he hw => hw.cell (by rw [he]; simp)) hsweep
  have hother : ∀ i c, h'.tenant? i = some c → i ∉ garbage ∧ h₁.tenant? i = some c := by
    intro i c hc
    have hi : i ∉ garbage := fun hi => by
      rw [hw.gone i hi] at hc
      cases hc
    exact ⟨hi, (hw.others i hi).symm.trans hc⟩
  have hcol : h'.collected = h.collected + (garbage.map fun i => (h.queuedAt i).toNat).sum :=
    hw.decays.calm.collected.trans hr.decays.calm.collected
  refine ⟨h', ?_, ?_, hw.coherent, hw.idle, hw.waiting, hw.gone, fun i c hc => ?_, fun i c hc => ?_,
    fun i c hc hq => ?_, hcol⟩
  · unfold removeGarbage
    rw [hfold]
    exact hfold'
  · rw [hcol]
    exact (hr.decays.rephase h.phase .idle).trans hw.decays
  · obtain ⟨hi, hc₁⟩ := hother i c hc
    by_contra hzc
    exact hi (hr.zombies i c hc₁ (by simpa using hzc)).1
  · obtain ⟨hi, hc₁⟩ := hother i c hc
    exact hr.places i c hi hc₁
  · exact (hr.plain i c (hother i c hc).2 hq).1

/-! ## The whole collection -/

/-- The share of an object or function in the number of cells the collector counts. -/
def queuedShare (c : Cell) : Nat := c.kind.isQueued.toNat

/-- What a collection leaves: the cells that references from outside lead to, with lower counts. -/
structure Collected (x : Ledger) (h h' : Heap) : Prop where
  decays : Decays { h with collections := h.collections + 1, collected := h'.collected } h'
  contains_iff : ∀ r, h'.contains r = true ↔ h.Held x r
  collected : h'.collected + h'.total queuedShare = h.collected + h.total queuedShare

/-- Garbage is what nothing outside leads to. -/
theorem Sifted.cut (hs : h.Sound x n) (hsift : Sifted h (h.outsideAt x) garbage h') :
    Cut x h' garbage := by
  have hsh := hsift.shadows
  -- a reachable tracked cell is not garbage
  have hheld : ∀ r, h.Held x r → r.index ∉ garbage := by
    intro r hr hmem
    obtain ⟨hi, hl⟩ := (hsift.mem_iff _).mp hmem
    obtain ⟨c, hc⟩ := contains_iff.mp (hs.coherent.counted.contains_of_reachable
      (fun r => hs.coherent.counted.contains_of_outside) hr)
    refine hl ((hs.leads_iff hi).mpr ?_)
    rw [handle_eq_of_cell? hc]
    exact hr
  have houtside : ∀ r, h'.outside x r = h.outside x r := by
    intro r
    have hframes : h'.frames = h.frames := (congrArg Heap.frames hsh.rest :)
    have hdropped : h'.dropped = h.dropped := (congrArg Heap.dropped hsh.rest :)
    unfold Heap.outside heldByFrames
    rw [hframes, hdropped]
  refine ⟨fun r hr => ?_, fun j c r hc hj hr => ?_⟩
  · by_contra hne
    rw [houtside] at hne
    exact hheld r (.root (Nat.pos_of_ne_zero hne)) hr
  · obtain ⟨d, hd, _, hbody⟩ := hsh.tenant_before hc
    have hdcell : h.cell? (h.handle j) = some d := by rw [cell?_handle, hd]
    rw [← hbody] at hr
    have hjo : j ∈ h.liveOrder := by
      refine (hs.tracks.mem_iff j).mpr ⟨d, hd, ?_⟩
      by_contra hframe
      obtain ⟨id, hid⟩ := Option.ne_none_iff_exists'.mp hframe
      rw [Body.refs_of_frame? hid] at hr
      cases hr
    have hjl : h.Held x (h.handle j) := by
      refine (hs.leads_iff hjo).mp ?_
      by_contra hl
      exact hj ((hsift.mem_iff j).mpr ⟨hjo, hl⟩)
    exact hheld r (.step hjl hdcell hr)

/-- A total over a heap from which some slots were emptied. -/
theorem total_split {f : Cell → Nat} (hnd : garbage.Nodup) (hin : ∀ i ∈ garbage, h'.tenant? i = none)
    (hout : ∀ i, i ∉ garbage → (h'.tenant? i).elim 0 f = (h.tenant? i).elim 0 f) :
    h.total f = h'.total f + (garbage.map fun i => (h.tenant? i).elim 0 f).sum := by
  have hrest : ∀ i, (h.tenant? i).elim 0 f =
      (h'.tenant? i).elim 0 f + if i ∈ garbage.toFinset then (h.tenant? i).elim 0 f else 0 := by
    intro i
    by_cases hi : i ∈ garbage
    · simp [hi, hin i hi]
    · simp [hi, hout i hi]
  rw [total_eq_sum_of_le h f (Nat.le_max_left _ h'.slots.size),
    total_eq_sum_of_le h' f (Nat.le_max_right h.slots.size _), Finset.sum_congr rfl fun i _ => hrest i,
    Finset.sum_add_distrib, Finset.sum_ite_mem, ← List.sum_toFinset _ hnd]
  congr 1
  refine Finset.sum_subset Finset.inter_subset_right fun i hi hni => ?_
  -- a slot that is not there has no share
  have hsize : h.slots.size ≤ i := by
    by_contra hlt
    exact hni (Finset.mem_inter.mpr ⟨Finset.mem_range.mpr (by omega), hi⟩)
  simp [tenant?, hsize]

section

variable (hs : h.Sound x n) (hsift : Sifted h (h.outsideAt x) garbage h₁) (hr : Removed x n h₁ garbage h')
include hs hsift hr

omit hs in
/-- Every cell that is left was there before, with the same body, and is unmarked. -/
theorem Removed.cell (hc' : h'.cell? r = some c') : r.index ∉ garbage ∧ ∃ c, h.cell? r = some c ∧
    c'.body = c.body ∧ c'.size = c.size ∧ c'.refCount ≤ c.refCount ∧ c'.mark = false := by
  have hsh := hsift.shadows
  have hgar : r.index ∉ garbage := fun hmem => by
    have ht := tenant?_of_cell? hc'
    rw [hr.gone _ hmem] at ht
    cases ht
  obtain ⟨c₁, hc₁, hf⟩ := hr.decays.cells r c' hc'
  have hc₁ : h₁.cell? r = some c₁ := hc₁
  obtain ⟨c, hc, hsize, hbody⟩ := hsh.cell_before hc₁
  refine ⟨hgar, c, hc, ?_, hf.size.trans hsize.symm, ?_, ?_⟩
  · have hz := hr.bodies _ c' (tenant?_of_cell? hc')
    rcases hf.body with hb | hb
    · exact hb.trans hbody.symm
    · rw [hz] at hb
      cases hb
  · have hcount := hsift.count r.index
    rw [countAt_of_tenant (tenant?_of_cell? hc₁), countAt_of_tenant (tenant?_of_cell? hc)] at hcount
    exact Nat.le_trans hf.count (Nat.le_of_eq hcount)
  · rw [hf.mark, ← markAt_of_tenant (tenant?_of_cell? hc₁)]
    exact hsift.mark _ hgar

/-- What is left is the heap there was, with lower counts. -/
theorem Removed.decays_before :
    Decays { h with collections := h.collections + 1, collected := h'.collected }
      { h' with collections := h'.collections + 1 } := by
  have hc := hr.decays.calm
  have hrest := hsift.shadows.rest
  have hconfig : h₁.config = h.config := (congrArg Heap.config hrest :)
  have hthreshold : h₁.threshold = h.threshold := (congrArg Heap.threshold hrest :)
  have hcollections : h₁.collections = h.collections := (congrArg Heap.collections hrest :)
  have hdropped : h₁.dropped = h.dropped := (congrArg Heap.dropped hrest :)
  have hframes : h₁.frames = h.frames := (congrArg Heap.frames hrest :)
  refine ⟨⟨hc.config.trans hconfig, hc.threshold.trans hthreshold,
    congrArg (· + 1) (hc.collections.trans hcollections), rfl, hc.dropped.trans hdropped, fun id => ?_,
    fun r => ?_⟩, fun r c' hc' => ?_⟩
  · rw [← hframes]
    exact hc.frames id
  · refine (hc.locals r).trans ?_
    unfold heldByFrames
    dsimp only
    rw [hframes]
  · obtain ⟨_, c, hc, hbody, hsize, hcount, hmark⟩ := hr.cell hsift hc'
    refine ⟨c, hc, hcount, ?_, hsize, by rw [hbody], .inl hbody⟩
    rw [hmark, (hs.settled _ c (tenant?_of_cell? hc)).mark]

omit hr in
/-- A tracked cell that is no garbage is reachable. -/
theorem Sifted.held (hc : h.cell? r = some c) (hframe : c.body.frame? = none)
    (hgar : r.index ∉ garbage) : h.Held x r := by
  have hi : r.index ∈ h.liveOrder := (hs.tracks.mem_iff _).mpr ⟨c, tenant?_of_cell? hc, hframe⟩
  have hl := (hs.leads_iff hi).mp (by
    by_contra hl
    exact hgar ((hsift.mem_iff _).mpr ⟨hi, hl⟩))
  rwa [handle_eq_of_cell? hc] at hl

/-- What is left is what references from outside lead to. -/
theorem Removed.contains_iff_held : h'.contains r = true ↔ h.Held x r := by
  have houtside : ∀ r, h'.outside x r = h.outside x r := (hr.decays_before hs hsift).calm.outside x
  constructor
  · intro hr'
    obtain ⟨c', hc'⟩ := contains_iff.mp hr'
    obtain ⟨hgar, c, hc, hbody, _⟩ := hr.cell hsift hc'
    cases hframe : c.body.frame? with
    | none => exact hsift.held hs hc hframe hgar
    | some id =>
      -- an attached variable that is left has a count, and what makes it up is left
      have hq : c'.kind.isQueued = false := by
        by_contra hq
        obtain ⟨hnone, _⟩ := Coherent.plain_of_queued (b := c'.body) (by simpa [Cell.kind] using hq)
        rw [hbody, hframe] at hnone
        cases hnone
      have hne := hr.plain _ c' (tenant?_of_cell? hc') hq
      rw [hr.coherent.counted.refCount_eq hc', houtside] at hne
      by_cases hpos : 0 < h.outside x r
      · exact .root hpos
      · obtain ⟨j, d', hd', hmem⟩ := exists_of_total_pos (h := h')
          (f := fun c => c.body.refs.count r) (by unfold heldByCells at hne; omega)
        have hmem := List.count_pos_iff.mp hmem
        have hdcell : h'.cell? (h'.handle j) = some d' := by rw [cell?_handle, hd']
        obtain ⟨hgar', d, hd, hbody', _⟩ := hr.cell hsift hdcell
        rw [hbody'] at hmem
        refine .step (hsift.held hs hd ?_ hgar') hd hmem
        by_contra hfr
        obtain ⟨id', hid'⟩ := Option.ne_none_iff_exists'.mp hfr
        rw [Body.refs_of_frame? hid'] at hmem
        cases hmem
  · intro hh
    induction hh with
    | root hpos => exact hr.coherent.counted.contains_of_outside (by rw [houtside]; exact hpos)
    | @step r s c _ hc hmem ih =>
      obtain ⟨c', hc'⟩ := contains_iff.mp ih
      obtain ⟨_, d, hd, hbody, _⟩ := hr.cell hsift hc'
      rw [hc] at hd
      cases hd
      obtain ⟨k, hk⟩ := Body.typed_of_mem_refs (hbody ▸ hmem)
      exact (hr.coherent.counted.bodies r c' hc').contains hk

/-- The cells that are left are at rest. -/
theorem Removed.settled (hc' : h'.tenant? i = some c') : c'.Settled := by
  have hcell' : h'.cell? (h'.handle i) = some c' := by rw [cell?_handle, hc']
  obtain ⟨hgar, c, hc, hbody, _, _, hmark⟩ := hr.cell hsift hcell'
  have hgar : i ∉ garbage := hgar
  have hset := hs.settled i c (tenant?_of_cell? hc)
  have hplace := hr.places i c' hc'
  refine ⟨fun hzero => ?_, hmark, hr.bodies i c' hc', ?_, fun hframe => ?_⟩
  · -- a reachable cell has a reference that is left
    have hheld := (hr.contains_iff_held hs hsift).mp (contains_of_cell? hcell')
    have hcount := hr.coherent.counted.refCount_eq hcell'
    have houtside : ∀ r, h'.outside x r = h.outside x r := (hr.decays_before hs hsift).calm.outside x
    rw [houtside] at hcount
    generalize hrr : h'.handle i = r at hheld hcount
    cases hheld with
    | root hpos => omega
    | @step s _ d hs' hd hmem =>
      obtain ⟨d', hd'⟩ := contains_iff.mp ((hr.contains_iff_held hs hsift).mpr hs')
      obtain ⟨_, e, he, hbody', _⟩ := hr.cell hsift hd'
      rw [hd] at he
      cases he
      have := held_pos_of_mem_refs (tenant?_of_cell? hd') (hbody' ▸ hmem)
      omega
  · rw [hbody]
    by_cases hi : i ∈ h.liveOrder
    · obtain ⟨t, ht⟩ := hsift.live i hi hgar
      rw [ht] at hplace
      obtain ⟨d, hd, hframe⟩ := (hs.tracks.mem_iff i).mp hi
      have hct : h.tenant? i = some c := tenant?_of_cell? hc
      rw [hct] at hd
      cases hd
      rw [← Option.some.inj hplace, hframe]
      rfl
    · rw [hsift.unlisted i hi] at hplace
      have hct : h.tenant? i = some c := tenant?_of_cell? hc
      rw [placeAt?_of_tenant hct] at hplace
      rw [← Option.some.inj hplace]
      exact hset.place
  · rw [hbody] at hframe
    have hct : h.tenant? i = some c := tenant?_of_cell? hc
    have hi : i ∉ h.liveOrder := fun hi => by
      obtain ⟨d, hd, hnone⟩ := (hs.tracks.mem_iff i).mp hi
      rw [hct] at hd
      cases hd
      rw [hnone] at hframe
      cases hframe
    rw [hsift.unlisted i hi, placeAt?_of_tenant hct] at hplace
    rw [← Option.some.inj hplace]
    exact hset.unlisted hframe

/-- The counter of finalized cells goes up by the objects and functions that went. -/
theorem Removed.collected_before :
    h'.collected + h'.total queuedShare = h.collected + h.total queuedShare := by
  have hcol : h₁.collected = h.collected := (congrArg Heap.collected hsift.shadows.rest :)
  have hshare : ∀ i, (h₁.queuedAt i).toNat = (h.tenant? i).elim 0 queuedShare := by
    intro i
    unfold queuedAt
    cases hc : h₁.tenant? i with
    | none =>
      have hi := hsift.shadows.cells i
      rw [hc, Option.map_none] at hi
      rw [Option.map_eq_none_iff.mp hi.symm]
      rfl
    | some c =>
      obtain ⟨d, hd, _, hbody⟩ := hsift.shadows.tenant_before hc
      simp [hd, queuedShare, Cell.kind, hbody]
  have hleft : ∀ i, i ∉ garbage →
      (h'.tenant? i).elim 0 queuedShare = (h.tenant? i).elim 0 queuedShare := fun i hi => by
    cases hc' : h'.tenant? i with
    | some c' =>
      have hcell' : h'.cell? (h'.handle i) = some c' := by rw [cell?_handle, hc']
      obtain ⟨_, c, hc, hbody, _⟩ := hr.cell hsift hcell'
      have hct : h.tenant? i = some c := tenant?_of_cell? hc
      simp [hct, queuedShare, Cell.kind, hbody]
    | none =>
      cases hc : h.tenant? i with
      | none => rfl
      | some c =>
        -- a cell of a queued kind that is no garbage is left
        cases hq : c.kind.isQueued with
        | false => simp [queuedShare, hq]
        | true =>
          have hcell : h.cell? (h.handle i) = some c := by rw [cell?_handle, hc]
          obtain ⟨hframe, _⟩ := Coherent.plain_of_queued hq
          obtain ⟨d, hd⟩ := contains_iff.mp
            ((hr.contains_iff_held hs hsift).mpr (hsift.held hs hcell hframe hi))
          have ht := tenant?_of_cell? hd
          rw [index_handle, hc'] at ht
          cases ht
  have htotal := total_split hsift.nodup hr.gone hleft
  rw [hr.collected, hcol, htotal]
  simp only [hshare]
  omega

end

/-- The garbage that was found can be removed. -/
theorem Sifted.removable (hs : h.Sound x n) (hsift : Sifted h (h.outsideAt x) garbage h₁) :
    Removable x n h₁ garbage := by
  have hsh := hsift.shadows
  refine ⟨hsh.coherent hsift.count hs.coherent, ?_, fun r c hc => ?_, hsift.cut hs, hsift.nodup,
    fun i hi => ?_, hsift.candidate, fun i c hc _ => ?_⟩
  · have hz : h₁.zeroRefs = h.zeroRefs := (congrArg Heap.zeroRefs hsh.rest :)
    rw [hz, hs.noneWaiting]
  · obtain ⟨d, hd, _, hbody⟩ := hsh.cell_before hc
    rw [← hbody]
    exact hs.noZombies r d hd
  · obtain ⟨c, hc⟩ := tenant_of_mem_liveOrder ((hsift.mem_iff i).mp hi).1
    obtain ⟨d, hd, _⟩ := hsh.tenant hc
    exact ⟨d, hd⟩
  · obtain ⟨d, hd, _⟩ := hsh.tenant_before hc
    rw [← countAt_of_tenant hc, hsift.count, countAt_of_tenant hd]
    exact (hs.settled i d hd).counted

/-- A collection of a sound heap ends, and leaves a sound heap of the cells that references from outside
lead to. -/
theorem Sound.collectCycles (hs : h.Sound x n) :
    ∃ h', h.collectCycles = .ok h' ∧ h'.Sound x n ∧ Collected x h h' := by
  obtain ⟨h₁, found, h₂, h₃, htrial, hrescue, hrestore, hsift⟩ := hs.ready.sift hs.countAt_eq
  generalize hgarbage : h₂.stillCandidates found = garbage at hrestore hsift
  obtain ⟨h', hremove, hr⟩ := (hsift.removable hs).removeGarbage_eq
  have hiff : ∀ r, h'.contains r = true ↔ h.Held x r := fun r => hr.contains_iff_held hs hsift
  have hcol := hr.collected_before hs hsift
  refine ⟨{ h' with collections := h'.collections + 1 }, ?_,
    ⟨hr.coherent.of_same (.of_slots rfl) rfl rfl rfl rfl rfl, hr.idle, hr.waiting,
      fun i c' hc' => hr.settled hs hsift hc'⟩,
    hr.decays_before hs hsift, hiff, hcol⟩
  unfold Heap.collectCycles
  simp only [htrial, hrescue, bind, Except.bind]
  rw [hgarbage, hrestore]
  dsimp only
  rw [hremove]
  rfl

end ObjectMemory.Heap
