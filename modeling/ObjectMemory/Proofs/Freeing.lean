import ObjectMemory.Proofs.Coherence
set_option autoImplicit false

/-!
# Freeing

Giving up references to a heap that keeps its books never faults.  A run of tasks on an idle heap ends
idle again, with the books kept (`Heap.Sound.run`); what is left of the heap is what was there before,
with lower counts (`Heap.Sheds`).

`Heap.Draining` is the invariant of such a run.  It counts the references that tasks still have to give
up as held outside, and says of the cells without references that each waits for exactly one step.
-/

namespace ObjectMemory

namespace Cell

/-- A cell at rest: referred to, not marked, not finalized, and listed unless it is an attached
variable. -/
structure Settled (c : Cell) : Prop where
  counted : c.refCount ≠ 0
  mark : c.mark = false
  body : c.body.isZombie = false
  place : c.place.isLive = c.body.frame?.isNone
  unlisted : c.body.frame?.isSome = true → c.place = .unlisted

/-- A cell stays at rest as long as its count is not used up. -/
theorem Settled.recount {c : Cell} (hc : c.Settled) {k : Nat} (hk : k ≠ 0) :
    Settled { c with refCount := k } :=
  ⟨hk, hc.mark, hc.body, hc.place, hc.unlisted⟩

/-- A cell stays at rest with another body that is attached to the same frame, if any. -/
theorem Settled.rebody {c : Cell} (hc : c.Settled) {b : Body} (hz : b.isZombie = false)
    (hframe : b.frame? = c.body.frame?) : Settled { c with body := b } :=
  ⟨hc.counted, hc.mark, hz, by rw [hc.place, hframe], fun hf => hc.unlisted (hframe ▸ hf)⟩

end Cell

namespace Heap

variable {x y : Ledger} {n m : Nat} {h h₁ h' : Heap} {r s : Handle} {c c' : Cell} {id : FrameId}

/-- The heap keeps its books and nothing is under way. -/
structure Sound (x : Ledger) (n : Nat) (h : Heap) : Prop where
  coherent : h.Coherent x n
  idle : h.phase = .idle
  noneWaiting : h.zeroRefs.toList = []
  settled : ∀ i c, h.tenant? i = some c → c.Settled

/-! ## What stays -/

/-- Everything outside the cells stays, but for the table, the open lists, the account and the queue of
cells without references. -/
structure Calm (h h' : Heap) : Prop where
  config : h'.config = h.config
  threshold : h'.threshold = h.threshold
  collections : h'.collections = h.collections
  collected : h'.collected = h.collected
  dropped : h'.dropped = h.dropped
  frames : ∀ id, (h'.frames.get? id).map (fun f => (f.locals, f.size)) =
    (h.frames.get? id).map (fun f => (f.locals, f.size))
  locals : ∀ r, h'.heldByFrames r = h.heldByFrames r

namespace Calm

theorem refl (h : Heap) : Calm h h := ⟨rfl, rfl, rfl, rfl, rfl, fun _ => rfl, fun _ => rfl⟩

theorem modifyCell (h : Heap) (i : Nat) (g : Cell → Cell) : Calm h (h.modifyCell i g) :=
  ⟨rfl, rfl, rfl, rfl, rfl, fun _ => rfl, fun _ => rfl⟩

theorem setPlace (h : Heap) (i : Nat) (p q : Place) : Calm h (h.setPlace i p q) :=
  ⟨rfl, rfl, rfl, rfl, rfl, fun _ => rfl, fun _ => rfl⟩

theorem trans (e₁ : Calm h h₁) (e₂ : Calm h₁ h') : Calm h h' :=
  ⟨e₂.config.trans e₁.config, e₂.threshold.trans e₁.threshold, e₂.collections.trans e₁.collections,
    e₂.collected.trans e₁.collected, e₂.dropped.trans e₁.dropped,
    fun id => (e₂.frames id).trans (e₁.frames id), fun r => (e₂.locals r).trans (e₁.locals r)⟩

theorem outside (e : Calm h h') (x : Ledger) (r : Handle) : h'.outside x r = h.outside x r := by
  unfold Heap.outside
  rw [e.locals, e.dropped]

end Calm

/-- The cell may have lost references, its body to finalization and its place to a queue. -/
structure Fades (c c' : Cell) : Prop where
  count : c'.refCount ≤ c.refCount
  mark : c'.mark = c.mark
  size : c'.size = c.size
  kind : c'.body.kind = c.body.kind
  body : c'.body = c.body ∨ c'.body.isZombie = true

theorem Fades.refl (c : Cell) : Fades c c := ⟨Nat.le_refl _, rfl, rfl, rfl, .inl rfl⟩

theorem Fades.trans {c₁ : Cell} (e₁ : Fades c c₁) (e₂ : Fades c₁ c') : Fades c c' := by
  refine ⟨Nat.le_trans e₂.count e₁.count, e₂.mark.trans e₁.mark, e₂.size.trans e₁.size,
    e₂.kind.trans e₁.kind, ?_⟩
  rcases e₂.body with hb | hb
  · rw [hb]
    exact e₁.body
  · exact .inr hb

/-- Every cell that is left was there before, and has at most faded. -/
structure Decays (h h' : Heap) : Prop where
  calm : Calm h h'
  cells : ∀ r c', h'.cell? r = some c' → ∃ c, h.cell? r = some c ∧ Fades c c'

namespace Decays

theorem refl (h : Heap) : Decays h h := ⟨.refl h, fun _ c hc => ⟨c, hc, .refl c⟩⟩

theorem trans (e₁ : Decays h h₁) (e₂ : Decays h₁ h') : Decays h h' := by
  refine ⟨e₁.calm.trans e₂.calm, fun r c' hc' => ?_⟩
  obtain ⟨c₁, hc₁, hf₁⟩ := e₂.cells r c' hc'
  obtain ⟨c, hc, hf⟩ := e₁.cells r c₁ hc₁
  exact ⟨c, hc, hf.trans hf₁⟩

theorem of_updates (hu : Updates s (some c') h h') (hc : h.cell? s = some c) (hf : Fades c c')
    (hcalm : Calm h h') : Decays h h' := by
  refine ⟨hcalm, fun r d hd => ?_⟩
  rw [hu.cell] at hd
  split at hd
  · rename_i hr
    cases hd
    exact ⟨c, hr ▸ hc, hf⟩
  · exact ⟨d, hd, .refl d⟩

/-- What the heaps are busy with is of no account. -/
theorem rephase (e : Decays h h') (p q : Phase) : Decays { h with phase := p } { h' with phase := q } :=
  ⟨⟨e.calm.config, e.calm.threshold, e.calm.collections, e.calm.collected, e.calm.dropped, e.calm.frames,
    e.calm.locals⟩, e.cells⟩

theorem of_vacated (hu : Updates s none h h') (hcalm : Calm h h') : Decays h h' := by
  refine ⟨hcalm, fun r d hd => ?_⟩
  rw [hu.cell] at hd
  split at hd
  · cases hd
  · exact ⟨d, hd, .refl d⟩

end Decays

/-! ## Steps that free at once -/

/-- What taking a variable off its frame's open list leaves of the frames. -/
theorem frames_modify_close (t : FrameTable) (i : Nat) (r : Handle) (id : FrameId) :
    ((t.modify i (·.close r)).get? id).map (fun f => (f.locals, f.size)) =
      (t.get? id).map (fun f => (f.locals, f.size)) := by
  rw [FrameTable.get?_modify]
  split
  · cases t.get? id <;> simp
  · rfl

theorem heldByFrames_close {i : Nat} {g : FrameId} {f : Frame} (s : Handle)
    (hg : h.frames.get? g = some f) (hi : i = g.index) :
    ({ h with frames := h.frames.modify i (·.close r) } : Heap).heldByFrames s = h.heldByFrames s := by
  subst hi
  have htotal := FrameTable.total_modify (fun f => f.refs.count s) (·.close r) hg
  simp only [Frame.refs_close] at htotal
  unfold heldByFrames
  dsimp only
  omega

theorem Counted.close (hx : h.Counted x) (i : Nat) (r : Handle) {g : FrameId} {f : Frame}
    (hg : h.frames.get? g = some f) (hi : i = g.index) :
    ({ h with frames := h.frames.modify i (·.close r) } : Heap).Counted x := by
  refine hx.of_same (.of_slots rfl) (fun s => ?_) hx.owned (fun id f' hf' => ?_) hx.roots
  · rw [heldByFrames_close s hg hi]
  · dsimp only at hf'
    rw [FrameTable.get?_modify] at hf'
    split at hf'
    · obtain ⟨f₀, hf₀, rfl⟩ := Option.map_eq_some_iff.mp hf'
      have hn := hx.locals id f₀ hf₀
      unfold Frame.typedRefs at hn ⊢
      rwa [Frame.locals_close]
    · exact hx.locals id f' hf'

theorem Calm.free (hf : h.free r.index = .ok h') :
    Calm h h' ∧ h'.phase = h.phase ∧ h'.zeroRefs = h.zeroRefs := by
  obtain ⟨_, _, _, _, rfl⟩ := free_eq_ok_iff.mp hf
  exact ⟨⟨rfl, rfl, rfl, rfl, rfl, fun _ => rfl, fun _ => rfl⟩, rfl, rfl⟩

/-- A shape that nobody refers to leaves the table and its slot. -/
theorem Coherent.freeShape {t : Shape} (hx : h.Coherent x n) (hc : h.cell? r = some c)
    (hzero : c.refCount = 0) (hb : c.body = .shape t) :
    ∃ h', h.freeNow r c.body = .ok h' ∧ h'.Coherent (x.plus c.body.refs) n ∧ Updates r none h h' ∧
      Calm h h' ∧ h'.phase = h.phase ∧ h'.zeroRefs = h.zeroRefs := by
  have hhash := hashOf?_of_cell? hc
  have hframe : h.frameOf? r = none := by rw [frameOf?_of_cell? hc, hb]; rfl
  rw [hb] at hhash
  simp only [freeNow, hb, forgetShape]
  by_cases hreg : t.isHashed = true
  · simp only [Body.hash?, hreg, if_true] at hhash
    obtain ⟨table, herase, htidy, hperm⟩ := hx.tabled.tidy.erase? ((hx.tabled.mem_iff t.hash r).mpr hhash)
    -- the table is changed first, which the other books do not mind
    have haccounted : Accounted n { h with table := table } :=
      ⟨hx.accounted.used, hx.accounted.cells⟩
    obtain ⟨h', hok, ha, hframes, htable, hdropped⟩ :=
      haccounted.free (s := r) (c := c) hc
    have hsame : SameCells h { h with table := table } := .of_slots rfl
    have hu : Updates r none h h' := .after_same hsame (.free hc hok)
    obtain ⟨hcalm, hphase, hwaiting⟩ := Calm.free hok
    simp only [if_pos hreg, herase]
    have hother : Calm h { h with table := table } := ⟨rfl, rfl, rfl, rfl, rfl, fun _ => rfl, fun _ => rfl⟩
    have hcalm := hother.trans hcalm
    refine ⟨h', hok, ⟨?_, ?_, ?_, ha, hx.rested_vacate hu⟩, hu, hcalm, hphase, hwaiting⟩
    · rw [← hb]
      exact hx.counted.vacate hu hframes hdropped hc hzero
    · exact hx.bound.vacate hu hframes hframe
    · exact hx.tabled.erase hhash (by rw [htable]; exact htidy) (by rw [htable]; exact hperm)
        hu.hashOf?_none
  · obtain ⟨h', hok, hx'⟩ := hx.free hc hzero (by rw [hb]; rfl) (by rw [hb]; simp [Body.hash?, hreg])
    obtain ⟨hcalm, hphase, hwaiting⟩ := Calm.free hok
    simp only [if_neg hreg]
    exact ⟨h', hok, hb ▸ hx', Updates.free hc hok, hcalm, hphase, hwaiting⟩

/-- A variable that nobody refers to leaves its slot and the open list of its frame. -/
theorem Coherent.freeCaptured {v : Variable} (hx : h.Coherent x n) (hc : h.cell? r = some c)
    (hzero : c.refCount = 0) (hb : c.body = .captured v) :
    ∃ h', h.freeNow r c.body = .ok h' ∧ h'.Coherent (x.plus c.body.refs) n ∧ Updates r none h h' ∧
      Calm h h' ∧ h'.phase = h.phase ∧ h'.zeroRefs = h.zeroRefs := by
  have hhash : h.hashOf? r = none := by rw [hashOf?_of_cell? hc, hb]; rfl
  obtain ⟨h₁, hok, ha, hframes, htable, hdropped⟩ := hx.accounted.free hc
  have hu := Updates.free hc hok
  obtain ⟨hcalm, hphase, hwaiting⟩ := Calm.free hok
  have hcounted := hx.counted.vacate hu hframes hdropped hc hzero
  cases v with
  | detached v =>
    have hframe : h.frameOf? r = none := by rw [frameOf?_of_cell? hc, hb]; rfl
    refine ⟨h₁, by simp [freeNow, hb, hok, forgetVariable], ⟨hcounted, hx.bound.vacate hu hframes hframe,
      hx.tabled.vacate hu htable hhash, ha, hx.rested_vacate hu⟩, hu, hcalm, hphase, hwaiting⟩
  | attached id slot =>
    have hframe : h.frameOf? r = some id := by rw [frameOf?_of_cell? hc, hb]; rfl
    obtain ⟨f, hf, _⟩ := hx.bound.listed r id hframe
    have hf₁ : h₁.frames.get? id = some f := by rw [hframes]; exact hf
    have hu' : Updates r none h { h₁ with frames := h₁.frames.modify id.index (·.close r) } :=
      hu.then_slots rfl
    refine ⟨{ h₁ with frames := h₁.frames.modify id.index (·.close r) },
      by simp [freeNow, hb, hok, forgetVariable, hf₁],
      ⟨hcounted.close id.index r hf₁ rfl, ?_, ?_, ?_, hx.rested_vacate hu'⟩, hu', ?_, hphase, hwaiting⟩
    · exact hx.bound.vacate_attached hu' hframe (by rw [hframes])
    · exact hx.tabled.vacate hu' htable hhash
    · have htotal := FrameTable.total_modify (·.size) (·.close r) hf₁
      simp only [Frame.size_close] at htotal
      refine ⟨?_, ha.cells⟩
      have hused := ha.used
      have htot : h₁.total (·.size) =
        ({ h₁ with frames := h₁.frames.modify id.index (·.close r) } : Heap).total (·.size) := rfl
      dsimp only
      omega
    · exact hcalm.trans ⟨rfl, rfl, rfl, rfl, rfl, fun j => frames_modify_close h₁.frames _ r j,
        fun s => heldByFrames_close s hf₁ rfl⟩

/-- A cell of a kind that does not wait can be freed when nobody refers to it. -/
theorem Coherent.freeNow (hx : h.Coherent x n) (hc : h.cell? r = some c) (hzero : c.refCount = 0)
    (hkind : c.kind.isQueued = false) (hbody : c.body.isZombie = false) :
    ∃ h', h.freeNow r c.body = .ok h' ∧ h'.Coherent (x.plus c.body.refs) n ∧ Updates r none h h' ∧
      Calm h h' ∧ h'.phase = h.phase ∧ h'.zeroRefs = h.zeroRefs := by
  have hplain : c.body.frame? = none → c.body.hash? = none → h.freeNow r c.body = h.free r.index →
      ∃ h', h.freeNow r c.body = .ok h' ∧ h'.Coherent (x.plus c.body.refs) n ∧ Updates r none h h' ∧
        Calm h h' ∧ h'.phase = h.phase ∧ h'.zeroRefs = h.zeroRefs := by
    intro hframe hhash hfree
    obtain ⟨h', hok, hx'⟩ := hx.free hc hzero hframe hhash
    obtain ⟨hcalm, hphase, hwaiting⟩ := Calm.free hok
    exact ⟨h', hfree.trans hok, hx', Updates.free hc hok, hcalm, hphase, hwaiting⟩
  unfold Cell.kind at hkind
  cases hb : c.body with
  | shape t => exact hb ▸ hx.freeShape hc hzero hb
  | captured v => exact hb ▸ hx.freeCaptured hc hzero hb
  | suspension t => exact hb ▸ hplain (by rw [hb]; rfl) (by rw [hb]; rfl) (by rw [hb]; rfl)
  | realm t => exact hb ▸ hplain (by rw [hb]; rfl) (by rw [hb]; rfl) (by rw [hb]; rfl)
  | object o =>
    rw [hb] at hkind
    cases hkind
  | bytecode b =>
    rw [hb] at hkind
    cases hkind
  | zombie k =>
    rw [hb] at hbody
    cases hbody

/-! ## Releasing -/

theorem Updates.setRefCount (hc : h.cell? r = some c) (k : Nat) :
    Updates r (some { c with refCount := k }) h (h.setRefCount r.index k) :=
  .modifyCell hc fun c => { c with refCount := k }

theorem Calm.setRefCount (h : Heap) (i k : Nat) : Calm h (h.setRefCount i k) :=
  .modifyCell h i _

/-- A reference less than there are. -/
theorem Coherent.decrement (hx : h.Coherent (x.plus [r]) n) (hc : h.cell? r = some c) :
    c.refCount ≠ 0 ∧ (h.setRefCount r.index (c.refCount - 1)).Coherent x n := by
  have hpos : c.refCount ≠ 0 := hx.counted.pos_of_owned hc (by simp)
  refine ⟨hpos, hx.recount (.setRefCount hc _) ⟨rfl, rfl, rfl⟩ hc rfl rfl ?_ (fun s hs => ?_) rfl rfl⟩
  · simp only [Ledger.plus_apply, List.count_singleton_self]
    omega
  · simp [Ne.symm hs]

/-- What giving up one reference does: it lowers the count, and with the last reference the cell waits
or goes, and then what it held is to be given up. -/
theorem Coherent.stepRelease (hx : h.Coherent (x.plus [r]) n) (rest : List Task)
    (hz : ∀ c, h.cell? r = some c → c.kind.isQueued = false → c.body.isZombie = false) :
    ∃ c, h.cell? r = some c ∧ c.refCount ≠ 0 ∧
      ((c.refCount ≠ 1 ∧ (h.setRefCount r.index (c.refCount - 1)).Coherent x n ∧
          h.stepRelease r rest = .ok (h.setRefCount r.index (c.refCount - 1), rest)) ∨
        (c.refCount = 1 ∧ c.kind.isQueued = true ∧ (h.setRefCount r.index 0).Coherent x n ∧
          h.stepRelease r rest = .ok ((h.setRefCount r.index 0).dropQueued r.index c.place rest)) ∨
        (c.refCount = 1 ∧ c.kind.isQueued = false ∧ ∃ h', h'.Coherent (x.plus c.body.refs) n ∧
          Updates r none h h' ∧ Calm h h' ∧ h'.phase = h.phase ∧ h'.zeroRefs = h.zeroRefs ∧
          h.stepRelease r rest = .ok (h', c.body.refs.map .release ++ rest))) := by
  obtain ⟨c, hc⟩ := contains_iff.mp (hx.counted.owned r (by simp))
  obtain ⟨hpos, hdec⟩ := hx.decrement hc
  refine ⟨c, hc, hpos, ?_⟩
  unfold Heap.stepRelease
  rw [hc]
  dsimp only
  rw [if_neg hpos]
  by_cases hone : c.refCount = 1
  · have hlast : ¬ c.refCount ≠ 1 := fun hne => hne hone
    have hdec : (h.setRefCount r.index 0).Coherent x n := by
      rw [hone] at hdec
      exact hdec
    rw [if_neg hlast, hone]
    cases hkind : c.kind.isQueued with
    | true => exact .inr (.inl ⟨rfl, rfl, hdec, if_pos rfl⟩)
    | false =>
      have hu := Updates.setRefCount hc 0
      obtain ⟨h', hok, hx', hu', hcalm, hphase, hwaiting⟩ :=
        hdec.freeNow hu.cell_self rfl hkind (hz c hc hkind)
      have hok : (h.setRefCount r.index (1 - 1)).freeNow r c.body = .ok h' := hok
      exact .inr (.inr ⟨rfl, rfl, h', hx', hu.trans hu', (Calm.setRefCount h _ _).trans hcalm, hphase,
        hwaiting, by rw [if_neg (by simp), hok]⟩)
  · rw [if_pos hone]
    exact .inl ⟨hone, hdec, rfl⟩

/-! ## Finalizing -/

/-- A body of a queued kind is no attached variable, no registered shape and no suspended call. -/
theorem Coherent.plain_of_queued {b : Body} (hkind : b.kind.isQueued = true) :
    b.frame? = none ∧ b.hash? = none ∧ b.Rested := by
  cases b with
  | object o => exact ⟨rfl, rfl, Body.rested_of_kind (by simp [Body.kind])⟩
  | bytecode o => exact ⟨rfl, rfl, Body.rested_of_kind (by simp [Body.kind])⟩
  | zombie k => exact ⟨rfl, rfl, fun t ht => by cases ht⟩
  | _ => cases hkind

/-- A cell that is finalized passes what it held to the ledger. -/
theorem Coherent.finalize (hx : h.Coherent x n) (hc : h.cell? s = some c)
    (hkind : c.kind.isQueued = true) :
    Updates s (some { c with body := .zombie c.kind }) h
      (h.modifyBody s.index fun _ => .zombie c.kind) ∧
    (h.modifyBody s.index fun _ => .zombie c.kind).Coherent (x.plus c.body.refs) n := by
  have hu : Updates s (some { c with body := .zombie c.kind }) h
      (h.modifyBody s.index fun _ => .zombie c.kind) :=
    .modifyCell hc fun c' => { c' with body := .zombie c.kind }
  obtain ⟨hframe, hhash, _⟩ := plain_of_queued (b := c.body) hkind
  have hnames : h.Names (Body.zombie c.kind).typedRefs := fun p hp => by cases hp
  have hrest : (Body.zombie c.kind).Rested := fun t ht => by cases ht
  refine ⟨hu, hx.edit hu ⟨rfl, rfl, rfl⟩ hc rfl hframe.symm hhash.symm hnames hrest ?_ (fun r _ => ?_)
    rfl rfl⟩
  · simp only [Ledger.plus_apply, Body.refs, List.count_nil]
    omega
  · simp [Body.refs]

/-- The step that finalizes a cell. -/
theorem stepFinalize_eq {i : Nat} (hc : h.tenant? i = some c) (hkind : c.kind.isQueued = true)
    (hbody : c.body.isZombie = false) (rest : List Task) :
    h.stepFinalize i rest = .ok (h.modifyBody i fun _ => .zombie c.kind,
      c.body.refs.map .release ++ .dispose i :: rest) := by
  unfold stepFinalize
  rw [cellAt_eq_ok_iff.mpr hc]
  dsimp only
  unfold Cell.kind at hkind ⊢
  cases hb : c.body with
  | object o => rfl
  | bytecode b => rfl
  | zombie k =>
    rw [hb] at hbody
    cases hbody
  | _ =>
    rw [hb] at hkind
    cases hkind

/-- A run goes on after its first step. -/
theorem run_cons {task : Task} {rest tasks : List Task} (hstep : h.step task rest = .ok (h', tasks)) :
    h.run (task :: rest) = h'.run tasks := by
  rw [run]
  split
  · rename_i e he
    rw [hstep] at he
    cases he
  · rename_i h₂ tasks₂ he
    rw [hstep] at he
    cases he
    rfl

/-- What every step keeps, a run keeps; a run of steps that never fault ends. -/
theorem run_of_invariant {P : Heap → List Task → Prop}
    (hstep : ∀ h task rest, P h (task :: rest) →
      ∃ h' tasks, h.step task rest = .ok (h', tasks) ∧ P h' tasks)
    {h : Heap} {tasks : List Task} (hp : P h tasks) : ∃ h', h.run tasks = .ok h' ∧ P h' [] := by
  induction hw : h.work tasks using Nat.strong_induction_on generalizing h tasks with
  | _ w ih =>
    cases tasks with
    | nil => exact ⟨h, by rw [run], hp⟩
    | cons task rest =>
      obtain ⟨h', tasks', hok, hp'⟩ := hstep h task rest hp
      obtain ⟨h'', hrun, hp''⟩ := ih (h'.work tasks') (hw ▸ work_step hok) hp' rfl
      exact ⟨h'', (run_cons hok).trans hrun, hp''⟩

end Heap

end ObjectMemory
