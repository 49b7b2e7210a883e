import ObjectMemory.Proofs.CallDrifts
import ObjectMemory.Proofs.GarbageCollection
set_option autoImplicit false

/-!
# What an allocation leaves

Before a slot is set apart the dropped roots are released and the collector may run.  What the references
of the ledger and the locals of frames lead to (`Heap.Retained`) is there afterwards with the body it had:
`Heap.Shelters` says so, with an exception for shapes that are being replaced.

From there every step on a shape that is retained ends well, or for lack of memory.  The one limit that is
not one of memory is the number of slots: a slot may be wanted when there are as many as can be named.
-/

namespace ObjectMemory

theorem HeapM.yields_change {bars : Fault → Bool} {R : Heap → Prop} {f : Heap → Except Fault Heap} {h : Heap}
    (hf : Yields bars R (f h)) : Yields bars (fun p => R p.2) (change f h) := by
  unfold change
  cases hrun : f h with
  | ok h' => exact hf.of_ok hrun
  | error err => exact hf.of_error hrun

namespace Heap

variable {x y : Ledger} {n : Nat} {h h₁ h' : Heap} {r s old new : Handle} {b : Body} {t t₀ t' : Shape}
  {ss : List Handle} {u : Unit} {p : Reservation} {bars : Fault → Bool} {atom : Atom} {flags : Flags}

/-! ## What stays -/

theorem Undisturbed.heldByFrames_pos (e : Undisturbed h h') (hr : 0 < h.heldByFrames r) :
    0 < h'.heldByFrames r := by
  obtain ⟨id, f, hf, hpos⟩ := FrameTable.exists_of_total_pos hr
  have hlocals := e.locals id
  rw [hf] at hlocals
  obtain ⟨f', hf', hsame⟩ := Option.map_eq_some_iff.mp hlocals
  have hrefs : f'.refs = f.refs := by rw [Frame.refs, hsame, Frame.refs]
  rw [← hrefs] at hpos
  exact Nat.lt_of_lt_of_le hpos (FrameTable.le_total (w := fun f => f.refs.count r) hf')

/-- What is retained is live. -/
theorem Sound.contains_of_retained (hs : h.Sound x n) (hr : h.Retained x r) : h.contains r = true :=
  hs.coherent.counted.contains_of_reachable
    (fun _ hq => hs.coherent.counted.contains_of_outside (by unfold outside; omega)) hr

theorem Retained.mono (hle : ∀ r, x r ≤ y r) (hr : h.Retained x r) : h.Retained y r :=
  Reachable.mono (fun q hq => by have := hle q; omega) hr

theorem Retained.plus (hr : h.Retained x r) (ss : List Handle) : h.Retained (x.plus ss) r :=
  hr.mono fun q => by simp

theorem retained_of_owned (hr : 0 < x r) : h.Retained x r := .root (by omega)

/-- What a body that is retained refers to is retained. -/
theorem Retained.ref (hr : h.Retained x r) (hb : h.body? r = some b) (hs : s ∈ b.refs) :
    h.Retained x s := by
  obtain ⟨c, hc, rfl⟩ := body?_eq_some_iff.mp hb
  exact .step hr hc hs

/-- What the references of `x` and the locals lead to, but for `ss`, is there afterwards with the body it
had. -/
structure Shelters (x : Ledger) (ss : List Handle) (h h' : Heap) : Prop where
  locals : ∀ r, 0 < h.heldByFrames r → 0 < h'.heldByFrames r
  bodies : ∀ r b, r ∉ ss → h.Retained x r → h.body? r = some b → h'.body? r = some b

namespace Shelters

/-- What was retained is retained. -/
theorem retained (e : Shelters x [] h h') (hr : h.Retained x r) : h'.Retained x r := by
  unfold Retained at hr
  induction hr with
  | @root r hr =>
    refine .root ?_
    have hlocals := e.locals r
    omega
  | @step q s c hq hc hs ih =>
    exact ih.ref (e.bodies q _ List.not_mem_nil hq (body?_eq_some_iff.mpr ⟨c, hc, rfl⟩)) hs

theorem trans (e₁ : Shelters x [] h h₁) (e₂ : Shelters x ss h₁ h') : Shelters x ss h h' :=
  ⟨fun r hr => e₂.locals r (e₁.locals r hr), fun r b hss hr hb =>
    e₂.bodies r b hss (e₁.retained hr) (e₁.bodies r b List.not_mem_nil hr hb)⟩

/-- Every body but those under `ss` is what it was. -/
theorem of_bodies (hframes : h'.frames = h.frames)
    (hbodies : ∀ r b, r ∉ ss → h.body? r = some b → h'.body? r = some b) : Shelters x ss h h' :=
  ⟨fun r hr => by rwa [heldByFrames, hframes], fun r b hss _ hb => hbodies r b hss hb⟩

/-- Cells went, and the ledger still has its references. -/
theorem of_keeps (hlocals : ∀ r, 0 < h.heldByFrames r → 0 < h'.heldByFrames r) (hk : Keeps h h')
    (hs : h'.Sound x n) : Shelters x ss h h' := by
  have hroot : ∀ r, 0 < x r + h.heldByFrames r → h'.contains r = true := by
    intro r hr
    have hr' := hlocals r
    exact hs.coherent.counted.contains_of_outside (by unfold outside; omega)
  refine ⟨hlocals, fun r b _ hr hb => hk.body_of_contains ?_ hb⟩
  exact hs.coherent.counted.contains_of_reachable hroot ((hk.reachable_iff hs.coherent.counted hroot).mp hr)

end Shelters

/-! ## Setting a slot apart -/

/-- The slot that was set apart is there, and vacant. -/
def Offers (h : Heap) (p : Reservation) : Prop := p.index < h.slots.size ∧ h.tenant? p.index = none

/-- A slot was set apart, or memory ran out. -/
structure SetsApart (x : Ledger) (h : Heap) (res : Except OutOfMemory Reservation) (h' : Heap) : Prop where
  sound : ∃ m, h'.Sound x m
  shelters : Shelters x [] h h'
  offers : ∀ p, res = .ok p → h'.Offers p

theorem SetsApart.contains {res : Except OutOfMemory Reservation} (e : SetsApart x h res h')
    (hr : h.Retained x r) : h'.contains r = true :=
  e.sound.elim fun _ hs => hs.contains_of_retained (e.shelters.retained hr)

/-- A slot is set apart, or memory runs out, or there are as many slots as can be. -/
theorem Sound.yields_reserve {size : Nat} {arrays : Nat → List Request} {failure : OutOfMemory}
    (hfull : bars .tooManySlots = false) (hs : h.Sound x n) (hr : h.Roomy) :
    Yields bars (fun q => SetsApart x h q.1 q.2) ((AllocM.reserve size arrays failure).run h) := by
  have hends : Yields bars (fun _ => True) ((AllocM.reserve size arrays failure).run h) := by
    obtain ⟨p, hrun⟩ | hrun := hs.reserve_ends size arrays failure
    · rw [hrun]
      trivial
    · rw [hrun]
      exact hfull
  refine hends.mono fun q e _ => ?_
  obtain ⟨hk, hs'⟩ := hs.of_reserve e
  obtain ⟨m, hsound⟩ : ∃ m, q.2.Sound x m :=
    hs'.elim (fun ⟨_, _, _, hs'⟩ => ⟨_, hs'⟩) fun ⟨_, hs'⟩ => ⟨_, hs'⟩
  rcases AllocM.reserve_cases e with ⟨p, h₁, hp, hready, ht⟩ | ⟨⟨err, herr⟩, hready⟩
  · have hlocals : ∀ r, q.2.heldByFrames r = h₁.heldByFrames r := fun r => by rw [takeSlot_rest ht]; rfl
    refine ⟨⟨m, hsound⟩, .of_keeps (fun r hr => ?_) hk hsound, fun p' hp' => ?_⟩
    · rw [hlocals]
      exact hready.undisturbed.heldByFrames_pos hr
    cases hp.symm.trans hp'
    obtain ⟨_, hlt, hvac, _⟩ := (hready.roomy hr).takeSlot ht
    exact ⟨hlt, hvac⟩
  · refine ⟨⟨m, hsound⟩, .of_keeps (fun _ => hready.undisturbed.heldByFrames_pos) hk hsound, fun p hp => ?_⟩
    cases herr.symm.trans hp

/-- Taking a reference leaves the slot. -/
theorem Offers.retainOption {o : Option Handle} (ho : h.Offers p) (e : HeapM.retainOption o h = .ok (u, h')) :
    h'.Offers p := by
  rcases retainOption_cases e with rfl | ⟨r, rfl⟩
  · exact ho
  · refine ⟨by simpa [modifyCell] using ho.1, ?_⟩
    rw [tenant?_eq_none_iff,
      bodyAt?_touch h r.index (f := fun c => { c with refCount := c.refCount + 1 }) fun _ => rfl]
    exact tenant?_eq_none_iff.mp ho.2

theorem Offers.exists_install (ho : h.Offers p) (b : Body) (listed : Bool) :
    ∃ r h', HeapM.install p b listed h = .ok (r, h') := by
  obtain ⟨s, hs⟩ : ∃ s, h.slots[p.index]? = some s := ⟨_, Array.getElem?_eq_getElem ho.1⟩
  have hvac : s.cell = none := by simpa [tenant?, hs] using ho.2
  simp [HeapM.install, putCell, hs, hvac]

/-- A cell that is made is where it was to be, and no other body is touched. -/
theorem body?_of_install {listed : Bool} (e : HeapM.install p b listed h = .ok (r, h')) :
    h'.body? r = some b ∧ ∀ q b', h.body? q = some b' → q ≠ r ∧ h'.body? q = some b' := by
  obtain ⟨hnone, hu⟩ := Updates.putCell e
  refine ⟨hu.body_self, fun q b' hb => ?_⟩
  have hne : q ≠ r := by
    rintro rfl
    simp [body?, hnone] at hb
  exact ⟨hne, (hu.body_other hne).trans hb⟩

/-- A cell changes in what is not its body. -/
theorem body?_touch (h : Heap) (i : Nat) {f : Cell → Cell} (hf : ∀ c, (f c).body = c.body) (r : Handle) :
    (h.modifyCell i f).body? r = h.body? r := by
  refine Option.ext fun b => ?_
  rw [body?_iff_bodyAt?, body?_iff_bodyAt?, bodyAt?_touch h i hf, frees_modifyCell]

/-- Taking a reference leaves every body. -/
theorem body?_retainOption {o : Option Handle} (e : HeapM.retainOption o h = .ok (u, h')) (r : Handle) :
    h'.body? r = h.body? r := by
  rcases retainOption_cases e with rfl | ⟨q, rfl⟩
  · rfl
  · exact body?_touch h q.index (f := fun c => { c with refCount := c.refCount + 1 }) (fun _ => rfl) r

theorem frames_of_retainOption {o : Option Handle} (e : HeapM.retainOption o h = .ok (u, h')) :
    h'.frames = h.frames := by
  rcases retainOption_cases e with rfl | ⟨q, rfl⟩
  · rfl
  · rfl

/-! ## Steps on a shape -/

theorem shape_of_body (ht : h.body? s = some (.shape t)) : HeapM.shape s h = .ok (t, h) := by
  simp [HeapM.shape, HeapM.read, shape?_iff_body?.mpr ht]

/-- A shape that is there can be edited. -/
theorem exists_modifyShape (ht : h.body? s = some (.shape t)) (f : Shape → Shape) :
    ∃ h', HeapM.modifyShape s f h = .ok ((), h') ∧ Reshapes s t (f t) h h' := by
  have hedit : HeapM.modifyShape s f h = .ok ((), h.modifyShapeAt s.index f) := by
    simp [HeapM.modifyShape, shape?_iff_body?.mpr ht]
  obtain ⟨t₁, hre⟩ := Rewrites.of_modifyShape hedit
  obtain rfl := (Rewrites.refl ht).before_eq hre
  exact ⟨_, hedit, hre⟩

theorem exists_register (ht : h.body? s = some (.shape t)) (hreg : t.isHashed = false) :
    ∃ h', HeapM.register s h = .ok ((), h') := by
  simp [HeapM.register, shape?_iff_body?.mpr ht, hreg]

/-- A shape outside the table may be edited and entered into it. -/
theorem exists_rehash {f : Shape → Shape} (ht : h.body? s = some (.shape t)) (hreg : (f t).isHashed = false) :
    ∃ h₁ h₂, HeapM.modifyShape s f h = .ok ((), h₁) ∧ HeapM.register s h₁ = .ok ((), h₂) ∧
      Reshapes s t { f t with isHashed := true } h h₂ := by
  obtain ⟨h₁, e₁, hre₁⟩ := exists_modifyShape ht f
  obtain ⟨h₂, e₂⟩ := exists_register hre₁.after hreg
  obtain ⟨t₂, _, hre₂⟩ := Rewrites.of_register e₂
  obtain rfl := hre₁.before_eq hre₂
  exact ⟨h₁, h₂, e₁, e₂, hre₁.trans hre₂⟩

/-- A shape of the table is found there. -/
theorem Tabled.exists_erase (htab : h.Tabled) (ht : h.body? s = some (.shape t)) (hreg : t.isHashed = true) :
    ∃ table, h.table.erase? t.hash s = some table := by
  have hhash : h.hashOf? s = some t.hash := by simp [hashOf?, ht, Body.hash?, hreg]
  obtain ⟨table, herase, _⟩ := htab.tidy.erase? ((htab.mem_iff t.hash s).mpr hhash)
  exact ⟨table, herase⟩

theorem Tabled.exists_unregister (htab : h.Tabled) (ht : h.body? s = some (.shape t))
    (hreg : t.isHashed = true) : ∃ h', HeapM.unregister s h = .ok ((), h') := by
  obtain ⟨table, herase⟩ := htab.exists_erase ht hreg
  simp [HeapM.unregister, shape?_iff_body?.mpr ht, hreg, herase]

/-- A cell that is there can be freed, if the account has its bytes. -/
theorem arithmetic_of_free {c : Cell} {err : Fault} (hc : h.cell? s = some c)
    (e : h.free s.index = .error err) : err = .arithmetic := by
  unfold free at e
  rw [cellAt_eq_ok_iff.mpr (tenant?_of_cell? hc)] at e
  dsimp only at e
  split at e
  · cases e
    rfl
  · cases e

/-- Giving up a shape whose prototype another shape has too frees that shape at most. -/
theorem Sound.yields_releaseShape (hcount : bars .arithmetic = false) (hs : h.Sound x n)
    (hold : h.body? old = some (.shape t₀)) (hnew : h.body? new = some (.shape t)) (hne : new ≠ old)
    (hproto : t.proto = t₀.proto) :
    Yields bars (fun q => ∀ r b, r ≠ old → h.body? r = some b → q.2.body? r = some b)
      (HeapM.release old h) := by
  obtain ⟨c, hc, hb⟩ := body?_eq_some_iff.mp hold
  have hpos := (hs.settled _ c (tenant?_of_cell? hc)).counted
  refine HeapM.yields_change (R := fun h' => ∀ r b, r ≠ old → h.body? r = some b → h'.body? r = some b) ?_
  by_cases hone : c.refCount = 1
  · have hu₀ := Updates.setRefCount hc 0
    rw [run_release_shape hc hone hb]
    obtain ⟨h₁, hforget⟩ : ∃ h₁, (h.setRefCount old.index 0).forgetShape old t₀ = .ok h₁ := by
      unfold forgetShape
      split
      · rename_i hreg
        obtain ⟨table, herase⟩ := hs.coherent.tabled.exists_erase hold hreg
        exact ⟨_, by rw [show (h.setRefCount old.index 0).table = h.table from rfl, herase]⟩
      · exact ⟨_, rfl⟩
    have hc₁ := (hu₀.then_slots (forgetShape_slots hforget)).cell_self
    cases hfree : h₁.free old.index with
    | error err =>
      simp only [freeNow, hforget, hfree]
      rw [arithmetic_of_free hc₁ hfree]
      exact hcount
    | ok h₂ =>
      simp only [freeNow, hforget, hfree]
      obtain ⟨hu, hproto₂⟩ :=
        updates_of_free_shape hc hone (hs.proto_shared hold hnew hne hproto) hforget hfree
      cases hp : t₀.proto with
      | none =>
        rw [Option.toList_none, List.map_nil, Heap.run]
        exact fun r b hr hb' => (hu.body_other hr).trans hb'
      | some p =>
        obtain ⟨_, d, hd, htwo⟩ := hproto₂ p hp
        rw [Option.toList_some, List.map_singleton, run_release_shared hd htwo]
        intro r b hr hb'
        refine (body?_touch h₂ p.index (f := fun c => { c with refCount := d.refCount - 1 })
          (fun _ => rfl) r).trans ?_
        exact (hu.body_other hr).trans hb'
  · rw [run_release_shared hc (by omega)]
    intro r b hr hb'
    rw [(Updates.setRefCount hc (c.refCount - 1)).body_other hr]
    exact hb'

/-- An action that gives up what was owned if memory runs out. -/
theorem yields_orRelease {α : Type} (owned : List Handle) {act : AllocM α}
    {R : Except OutOfMemory α × Heap → Prop} (hact : Yields bars R (act.run h))
    (herr : ∀ err h₁, act.run h = .ok (.error err, h₁) → ∃ m, h₁.Sound (x.plus owned) m) :
    Yields bars (fun q => ∀ a, q.1 = .ok a → act.run h = .ok q ∧ R q)
      ((tryCatch act fun e => do
        HeapM.releaseAll owned
        throw e).run h) := by
  refine AllocM.yields_tryCatch hact (fun _ _ e hres _ _ => ⟨e, hres⟩) fun err h₁ e₁ _ => ?_
  obtain ⟨_, hs₁⟩ := herr err h₁ e₁
  obtain ⟨h₂, e₂, _⟩ := hs₁.releaseAll
  rw [AllocM.lift_bind_of_ok e₂]
  exact nofun

/-- What is set apart is given up again if memory runs out. -/
theorem Sound.yields_reserveOr {size : Nat} {owned : List Handle} {arrays : Nat → List Request}
    (hfull : bars .tooManySlots = false) (hs : h.Sound (x.plus owned) n) (hr : h.Roomy) :
    Yields bars (fun q => ∀ p, q.1 = .ok p → SetsApart (x.plus owned) h q.1 q.2)
      ((AllocM.reserveOr size owned arrays).run h) := by
  refine (yields_orRelease (x := x) _ (hs.yields_reserve hfull hr) fun err h₁ e₁ => ?_).mono
    fun _ _ hp p hres => (hp p hres).2
  obtain ⟨_, ⟨_, hres, _⟩ | ⟨_, hs₁⟩⟩ := hs.of_reserve e₁
  · cases hres
  · exact ⟨_, hs₁⟩

/-! ## Making shapes -/

theorem Sound.yields_newShape {proto : Option Handle} (hfull : bars .tooManySlots = false)
    (hs : h.Sound x n) (hr : h.Roomy) (hproto : ∀ q ∈ proto, h.Retained x q) :
    Yields bars (fun _ => True) ((AllocM.newShape proto).run h) := by
  refine AllocM.yields_bind (hs.yields_reserve hfull hr) (fun p h₁ _ hp => ?_) fun _ _ _ _ => trivial
  obtain ⟨h₂, e₂⟩ := exists_retainOption fun q hq => hp.contains (hproto q hq)
  rw [AllocM.lift_bind_of_ok e₂]
  obtain ⟨s, h₃, e₃⟩ := ((hp.offers p rfl).retainOption e₂).exists_install (.shape (.initial proto)) true
  rw [AllocM.lift_bind_of_ok e₃]
  obtain ⟨h₄, e₄⟩ := exists_register (body?_of_install e₃).1 rfl
  rw [AllocM.lift_bind_of_ok e₄]
  trivial

theorem contains_of_sharedEmpty {proto : Option Handle} (hfound : h.sharedEmpty? proto = some s) :
    h.contains s = true := by
  have htest := List.find?_some hfound
  cases ht : h.shape? s with
  | none => simp [ht] at htest
  | some t => exact contains_of_body? (shape?_iff_body?.mp ht)

theorem Sound.yields_shapeForNewObject {proto : Option Handle} (hfull : bars .tooManySlots = false)
    (hs : h.Sound x n) (hr : h.Roomy) (hproto : ∀ q ∈ proto, h.Retained x q) :
    Yields bars (fun _ => True) ((AllocM.shapeForNewObject proto).run h) := by
  unfold AllocM.shapeForNewObject
  rw [AllocM.get_bind]
  cases hfound : h.sharedEmpty? proto with
  | none => exact hs.yields_newShape hfull hr hproto
  | some s =>
    obtain ⟨h₁, e₁⟩ := exists_retain (contains_of_sharedEmpty hfound)
    dsimp only
    rw [AllocM.lift_bind_of_ok e₁]
    trivial

/-- A shape that is retained can be copied. -/
theorem Sound.yields_cloneShape (hfull : bars .tooManySlots = false) (hs : h.Sound x n) (hr : h.Roomy)
    (hold : h.body? old = some (.shape t)) (hkept : h.Retained x old) :
    Yields bars (fun q => Shelters x [] h q.2) ((AllocM.cloneShape old).run h) := by
  unfold AllocM.cloneShape
  rw [AllocM.lift_bind_of_ok (shape_of_body hold)]
  refine AllocM.yields_bind (hs.yields_reserve hfull hr) (fun p h₁ _ hp => ?_) fun _ _ _ hp => hp.shelters
  have hold₁ := hp.shelters.bodies old _ List.not_mem_nil hkept hold
  rw [AllocM.lift_bind_of_ok (shape_of_body hold₁)]
  obtain ⟨h₂, e₂⟩ : ∃ h₂, HeapM.retainOption t.proto h₁ = .ok ((), h₂) := by
    refine exists_retainOption fun q hq => hp.contains (hkept.ref hold ?_)
    simpa [Body.refs] using hq
  rw [AllocM.lift_bind_of_ok e₂]
  obtain ⟨s, h₃, e₃⟩ := ((hp.offers p rfl).retainOption e₂).exists_install (.shape t.copy) true
  rw [AllocM.lift_of_ok e₃]
  refine hp.shelters.trans (.of_bodies ?_ fun r b _ hb => ?_)
  · rw [(putCell_rest e₃).1.frames, frames_of_retainOption e₂]
  · exact ((body?_of_install e₃).2 r b ((body?_retainOption e₂ r).trans hb)).2

/-! ## Extending a shape -/

/-- Growing leaves a shape in or out of the table. -/
theorem yields_growShape (ht : h.body? s = some (.shape t)) (count : Nat) :
    Yields bars (fun q => ∃ t', q.2.body? s = some (.shape t') ∧ t'.isHashed = t.isHashed)
      ((AllocM.growShape s count).run h) := by
  unfold AllocM.growShape
  rw [AllocM.lift_bind_of_ok (shape_of_body ht)]
  dsimp only
  generalize (_ : Nat) + _ = k
  refine AllocM.yields_bind (R := fun q => q.2.body? s = some (.shape t)) ?_ (fun _ h₁ _ ht₁ => ?_)
    fun _ _ _ ht₁ => ⟨t, ht₁, rfl⟩
  · obtain ⟨c, hc, _⟩ := body?_eq_some_iff.mp ht
    obtain ⟨-, hrun⟩ | ⟨err, hrun⟩ := growCell_cases (tenant?_of_cell? hc) k _
    · rw [hrun]
      exact (body?_touch _ s.index (f := fun c => { c with size := c.size + k }) (fun _ => rfl) s).trans ht
    · rw [hrun]
      exact ht
  · obtain ⟨h₂, e₂, hre⟩ := exists_modifyShape ht₁ (·.grow (t.grownCapacity count))
    rw [AllocM.lift_of_ok e₂]
    exact ⟨_, hre.after, (t.grow_fields _).2.2.1⟩

/-- A shape that is there gets one more entry, or memory runs out. -/
theorem Tabled.yields_extendShape (htab : h.Tabled) (ht : h.body? s = some (.shape t)) :
    Yields bars (fun _ => True) ((AllocM.extendShape s atom flags).run h) := by
  unfold AllocM.extendShape
  rw [AllocM.lift_bind_of_ok (shape_of_body ht)]
  dsimp only
  generalize t.entries.size = count
  have hpush : ∀ {h₁ : Heap} {t₁ : Shape}, h₁.body? s = some (.shape t₁) →
      Yields bars (fun _ => True) ((do
        HeapM.modifyShape s (·.push atom flags)
        return count : AllocM Nat).run h₁) := by
    intro h₁ t₁ ht₁
    obtain ⟨h₂, e₂, _⟩ := exists_modifyShape ht₁ (·.push atom flags)
    rw [AllocM.lift_bind_of_ok e₂]
    trivial
  have hback : ∀ {h₁ : Heap} {t₁ : Shape} (hash : UInt32), h₁.body? s = some (.shape t₁) →
      t₁.isHashed = false → Yields bars (fun _ => True) ((do
        HeapM.modifyShape s fun t => { t with hash := hash }
        HeapM.register s
        HeapM.modifyShape s (·.push atom flags)
        return count : AllocM Nat).run h₁) := by
    intro h₁ t₁ hash ht₁ hreg
    obtain ⟨h₂, h₃, e₂, e₃, hre⟩ := exists_rehash ht₁ (f := fun t => { t with hash := hash }) hreg
    rw [AllocM.lift_bind_of_ok e₂, AllocM.lift_bind_of_ok e₃]
    exact hpush hre.after
  cases hreg : t.isHashed with
  | false =>
    simp only [Bool.false_eq_true, if_false]
    split
    · refine AllocM.yields_bind (R := fun q => ∃ t', q.2.body? s = some (.shape t')) ?_
        (fun _ h₁ _ ⟨_, ht₁⟩ => hpush ht₁) fun _ _ _ _ => trivial
      exact AllocM.yields_tryCatch (yields_growShape ht _) (fun _ _ _ ⟨_, ht₁, _⟩ => ⟨_, ht₁⟩)
        fun _ _ _ ⟨_, ht₁, _⟩ => ⟨_, ht₁⟩
    · exact hpush ht
  | true =>
    simp only [if_true]
    obtain ⟨h₁, e₁⟩ := htab.exists_unregister ht hreg
    rw [AllocM.lift_bind_of_ok e₁]
    obtain ⟨t₁, _, hre⟩ := Rewrites.of_unregister e₁
    split
    · refine AllocM.yields_bind (R := fun q => ∀ a, q.1 = .ok a → ∃ t', q.2.body? s = some (.shape t') ∧
        t'.isHashed = false) ?_ (fun _ h₂ _ hgrown => ?_) fun _ _ _ _ => trivial
      · refine AllocM.yields_tryCatch (yields_growShape hre.after _) (fun _ _ _ hgrown _ _ => hgrown)
          fun _ h₂ _ hgrown => ?_
        obtain ⟨t₂, ht₂, hreg₂⟩ := hgrown
        obtain ⟨h₃, e₃⟩ := exists_register ht₂ hreg₂
        rw [AllocM.lift_bind_of_ok e₃]
        exact nofun
      · obtain ⟨t₂, ht₂, hreg₂⟩ := hgrown () rfl
        exact hback _ ht₂ hreg₂
    · exact hback _ hre.after rfl

/-! ## Replacing a shape -/

/-- What is retained besides `old` is there afterwards with the body it had. -/
def Outlasts (x : Ledger) (old : Handle) (h h' : Heap) : Prop :=
  ∀ r b, r ≠ old → h.Retained x r → h.body? r = some b → h'.body? r = some b

/-- A cell with one reference, which the ledger has besides `x`, is not retained by `x`. -/
theorem Sound.not_retained_of_sole (hs : h.Sound (x.plus [s]) n) (hone : h.refCount? s = some 1) :
    ¬ h.Retained x s := by
  intro hr
  obtain ⟨c, hc, hcount⟩ := Option.map_eq_some_iff.mp hone
  have hsum := hs.coherent.counted.counts s c hc
  rw [Ledger.plus_apply, List.count_singleton_self, held] at hsum
  unfold Retained at hr
  cases hr with
  | root hr => omega
  | step hq hd hmem => exact hs.coherent.counted.unheld hone (body?_eq_some_iff.mpr ⟨_, hd, rfl⟩) hmem

/-- A shape of the table that has the property is taken, and the old one given up. -/
theorem Sound.yields_takeShared (hcount : bars .arithmetic = false) (hs : h.Sound x n)
    (hold : h.body? old = some (.shape t₀)) (hfound : h.sharedTransition? t₀ atom flags = some new) :
    Yields bars (fun q => ∀ r b, r ≠ old → h.body? r = some b → q.2.body? r = some b) ((do
      HeapM.retain new
      HeapM.release old
      let t ← HeapM.shape new
      return (new, t.entries.size - 1) : AllocM (Handle × Nat)).run h) := by
  have htest := List.find?_some hfound
  cases ht : h.shape? new with
  | none => simp [ht] at htest
  | some t =>
    simp only [ht, Shape.isExtendedBy, Bool.and_eq_true, beq_iff_eq] at htest
    obtain ⟨hproto, hentries⟩ := htest
    replace ht := shape?_iff_body?.mp ht
    have hne : new ≠ old := by
      rintro rfl
      cases ht.symm.trans hold
      simpa using congrArg Array.size hentries
    obtain ⟨h₁, e₁⟩ := exists_retain (contains_of_body? ht)
    have hsame := body?_retainOption (o := some new) e₁
    rw [AllocM.lift_bind_of_ok e₁]
    refine AllocM.yields_lift_bind ((hs.retain e₁).1.yields_releaseShape hcount ((hsame old).trans hold)
      ((hsame new).trans ht) hne hproto) fun _ h₂ _ hbodies => ?_
    have ht₂ := hbodies new _ hne ((hsame new).trans ht)
    rw [AllocM.lift_bind_of_ok (shape_of_body ht₂)]
    exact fun r b hr hb => hbodies r b hr ((hsame r).trans hb)

/-- A retained shape can be given a property, and what is retained besides it stays as it was. -/
theorem Sound.yields_addProperty (atom : Atom) (flags : Flags) (hfull : bars .tooManySlots = false)
    (hcount : bars .arithmetic = false) (hs : h.Sound x n) (hr : h.Roomy)
    (hold : h.body? old = some (.shape t₀)) (hkept : h.Retained x old) :
    Yields bars (fun q => Shelters x [old] h q.2) ((AllocM.addProperty old atom flags).run h) := by
  have hwalk : Yields bars (fun q => ∀ a, q.1 = .ok a → Outlasts x old h q.2)
      ((AllocM.addProperty old atom flags).run h) := by
    unfold AllocM.addProperty
    rw [AllocM.lift_bind_of_ok (shape_of_body hold)]
    dsimp only
    rw [AllocM.get_bind]
    generalize hfound : (if t₀.isHashed = true then h.sharedTransition? t₀ atom flags else none) = found
    cases found with
    | some new =>
      split at hfound
      · exact (hs.yields_takeShared hcount hold hfound).mono fun _ _ hbodies _ _ r b hr _ => hbodies r b hr
      · cases hfound
    | none =>
      dsimp only
      rw [AllocM.get_bind]
      split
      · refine AllocM.yields_bind (hs.yields_cloneShape hfull hr hold hkept) (fun new h₁ e₁ hshel => ?_)
          fun _ _ _ _ => nofun
        obtain ⟨_, t, hres, hnew, hold₁, hne⟩ | ⟨⟨_, hres⟩, _⟩ := hs.of_cloneShape e₁
        · cases hres
          cases hold₁.symm.trans (hshel.bodies old _ List.not_mem_nil hkept hold)
          refine AllocM.yields_bind (R := fun _ => True) (AllocM.yields_tryCatch
            (hnew.sound.coherent.tabled.yields_extendShape hnew.shape) (fun _ _ _ _ => trivial)
            fun err h₂ e₂ _ => ?_) (fun index h₂ e₂ _ => ?_) fun _ _ _ _ => nofun
          · obtain ⟨h₃, e₃, _⟩ := (hnew.sound.of_extendShape e₂).1.release
            rw [AllocM.lift_bind_of_ok e₃]
            trivial
          · rcases AllocM.tryCatch_eq_ok e₂ with ⟨_, e₃, hres⟩ | ⟨_, _, _, e₃⟩
            · cases hres
              obtain ⟨hs₂, t₁, ⟨t₂, _, hre, hext⟩ | ⟨⟨_, hres⟩, _⟩⟩ := hnew.sound.of_extendShape e₃
              · cases hnew.shape.symm.trans hre.before
                have hold₂ := (hre.others old (Ne.symm hne)).trans hold₁
                refine AllocM.yields_lift_bind (hs₂.yields_releaseShape hcount hold₂ hre.after hne hext.proto)
                  fun _ h₃ _ hbodies => ?_
                have hstay : ∀ h' : Heap, (∀ r, r ≠ new → h'.body? r = h₃.body? r) → Outlasts x old h h' := by
                  intro h' hothers r b hr hret hb
                  have hrn : r ≠ new := by
                    rintro rfl
                    exact hnew.sound.not_retained_of_sole hnew.count (hshel.retained hret)
                  rw [hothers r hrn]
                  refine hbodies r b hr ((hre.others r hrn).trans ?_)
                  exact hshel.bodies r b List.not_mem_nil hret hb
                split
                · obtain ⟨h₄, h₅, e₄, e₅, hre₅⟩ := exists_rehash (hbodies new _ hne hre.after)
                    (f := fun t => { t with hash := Shape.transitionHash t.hash atom flags }) hext.isHashed
                  rw [AllocM.lift_bind_of_ok e₄, AllocM.lift_bind_of_ok e₅]
                  exact fun _ _ => hstay h₅ hre₅.others
                · exact fun _ _ => hstay h₃ fun _ _ => rfl
              · cases hres
            · obtain ⟨_, _, _, e₃⟩ := AllocM.lift_bind_eq_ok e₃
              cases e₃
        · cases hres
      · refine AllocM.yields_bind (hs.coherent.tabled.yields_extendShape hold) (fun index h₁ e₁ _ => ?_)
          fun _ _ _ _ => nofun
        obtain ⟨_, t, ⟨t', _, hre, _⟩ | ⟨⟨_, hres⟩, _⟩⟩ := hs.of_extendShape e₁
        · exact fun _ _ r b hr _ hb => (hre.others r hr).trans hb
        · cases hres
  refine hwalk.mono fun q e hbodies => ?_
  have hlocals : ∀ r, 0 < h.heldByFrames r → 0 < q.2.heldByFrames r := fun _ =>
    (drifts_of_addProperty e).undisturbed.heldByFrames_pos
  cases hres : q.1 with
  | ok a => exact ⟨hlocals, fun r b hr => hbodies a hres r b (by simpa using hr)⟩
  | error err =>
    obtain ⟨_, _, _, herr, _⟩ | ⟨_, _, herr, _⟩ | ⟨_, hs', hk⟩ := hs.of_addProperty e
    · cases hres.symm.trans herr
    · cases hres.symm.trans herr
    · exact .of_keeps hlocals hk hs'

/-- A retained shape can be taken over for changes, and what is retained besides it stays as it was. -/
theorem Sound.yields_prepareUpdate (hfull : bars .tooManySlots = false) (hcount : bars .arithmetic = false)
    (hs : h.Sound x n) (hr : h.Roomy) (hold : h.body? old = some (.shape t₀)) (hkept : h.Retained x old) :
    Yields bars (fun q => Shelters x [old] h q.2) ((AllocM.prepareUpdate old).run h) := by
  have hwalk : Yields bars (fun q => ∀ a, q.1 = .ok a → Outlasts x old h q.2)
      ((AllocM.prepareUpdate old).run h) := by
    unfold AllocM.prepareUpdate
    rw [AllocM.get_bind]
    split
    · refine AllocM.yields_bind (hs.yields_cloneShape hfull hr hold hkept) (fun new h₁ e₁ hshel => ?_)
        fun _ _ _ _ => nofun
      obtain ⟨_, t, hres, hnew, hold₁, hne⟩ | ⟨⟨_, hres⟩, _⟩ := hs.of_cloneShape e₁
      · cases hres
        refine AllocM.yields_lift_bind (hnew.sound.yields_releaseShape hcount hold₁ hnew.shape hne rfl)
          fun _ h₂ _ hbodies => ?_
        obtain ⟨h₃, e₃, hre⟩ := exists_modifyShape (hbodies new _ hne hnew.shape) (·.bump)
        rw [AllocM.lift_bind_of_ok e₃]
        intro _ _ r b hr hret hb
        have hrn : r ≠ new := by
          rintro rfl
          exact hnew.sound.not_retained_of_sole hnew.count (hshel.retained hret)
        refine (hre.others r hrn).trans (hbodies r b hr ?_)
        exact hshel.bodies r b List.not_mem_nil hret hb
      · cases hres
    · rw [AllocM.lift_bind_of_ok (shape_of_body hold)]
      have hlast : ∀ {h₁ : Heap} {t₁ : Shape}, Reshapes old t₀ t₁ h h₁ →
          Yields bars (fun q => ∀ a, q.1 = .ok a → Outlasts x old h q.2) ((do
              HeapM.modifyShape old (·.bump)
              return old : AllocM Handle).run h₁) := by
        intro h₁ t₁ hre₁
        obtain ⟨h₂, e₂, hre₂⟩ := exists_modifyShape hre₁.after (·.bump)
        rw [AllocM.lift_bind_of_ok e₂]
        exact fun _ _ r b hr _ hb => (hre₂.others r hr).trans ((hre₁.others r hr).trans hb)
      cases hreg : t₀.isHashed with
      | true =>
        simp only [if_true]
        obtain ⟨h₁, e₁⟩ := hs.coherent.tabled.exists_unregister hold hreg
        rw [AllocM.lift_bind_of_ok e₁]
        obtain ⟨t₁, _, hre⟩ := Rewrites.of_unregister e₁
        obtain rfl := (Rewrites.refl hold).before_eq hre
        exact hlast hre
      | false =>
        simp only [Bool.false_eq_true, if_false]
        exact hlast (.refl hold)
  refine hwalk.mono fun q e hbodies => ?_
  have hlocals : ∀ r, 0 < h.heldByFrames r → 0 < q.2.heldByFrames r := fun _ =>
    (drifts_of_prepareUpdate e).1.undisturbed.heldByFrames_pos
  cases hres : q.1 with
  | ok a => exact ⟨hlocals, fun r b hr => hbodies a hres r b (by simpa using hr)⟩
  | error err =>
    obtain ⟨_, _, _, herr, _⟩ | ⟨_, _, herr, _⟩ | ⟨_, hs', hk⟩ := hs.of_prepareUpdate e
    · cases hres.symm.trans herr
    · cases hres.symm.trans herr
    · exact .of_keeps hlocals hk hs'

end Heap

end ObjectMemory
