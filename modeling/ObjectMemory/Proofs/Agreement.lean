import ObjectMemory.Proofs.Replacing
set_option autoImplicit false

/-!
# What heaps agree on

An operation that runs out of memory has done part of its work, and undoes it: it gives up the cells it
made and the references it was handed.  What holds up without those references must come out as it was,
and nothing else may be left.

`Heap.Agree x h h'` says so: every set of cells that holds up on `x` and on itself (`Heap.Supported`), in
either heap, has the same bodies in both, but for the room of objects.  This is an equivalence, so that
an operation is followed action by action; what it makes on the way is in no such set.  In a heap whose
counts are right the cells there are hold up (`Heap.Sound.supported`), so two such heaps that agree have
the same cells.

All this is for heaps in which allocating lets go of nothing (`Heap.Quiet`): no collection is due, and no
dropped root waits.
-/

namespace ObjectMemory

/-- A body without the room an object has for more properties, of which nothing is seen. -/
def Body.seen : Body → Body
  | object o => object { o with capacity := 0 }
  | b => b

@[simp] theorem Body.refs_seen (b : Body) : b.seen.refs = b.refs := by
  cases b <;> rfl

theorem Queue.eq_empty {α : Type} {q : Queue α} (hq : q.toList = []) : q = .empty := by
  obtain ⟨front, back⟩ := q
  obtain ⟨hfront, hback⟩ := List.append_eq_nil_iff.mp hq
  cases List.reverse_eq_nil_iff.mp hback
  cases hfront
  rfl

namespace Heap

variable {x y : Ledger} {n k : Nat} {h h₁ h' : Heap} {r s old : Handle} {A : Handle → Prop} {u : Unit}
  {t : Shape} {p : Reservation} {b b' body : Body} {atom : Atom} {flags : Flags}

/-- Allocating lets go of nothing. -/
structure Quiet (h : Heap) : Prop where
  manual : h.config.autoCollect = false
  flushed : h.dropped.toList = []

theorem Calm.quiet (e : Calm h h') (hq : h.Quiet) : h'.Quiet :=
  ⟨by rw [e.config]; exact hq.manual, by rw [e.dropped]; exact hq.flushed⟩

theorem Calm.symm (e : Calm h h') : Calm h' h :=
  ⟨e.config.symm, e.threshold.symm, e.collections.symm, e.collected.symm, e.dropped.symm,
    fun id => (e.frames id).symm, fun r => (e.locals r).symm⟩

/-- What is seen of the body of a cell. -/
def seen? (h : Heap) (r : Handle) : Option Body := (h.body? r).map Body.seen

/-! ## Sets of cells that hold up -/

theorem Supported.mono (hA : h.Supported y A) (hle : ∀ r, y r ≤ x r) : h.Supported x A := by
  intro r hr
  obtain ⟨b, hb, hheld⟩ := hA r hr
  refine ⟨b, hb, hheld.imp_left fun hout => ?_⟩
  have := hle r
  unfold outside at hout ⊢
  omega

theorem Supported.transfer (hA : h.Supported x A) (hcalm : Calm h h')
    (hbodies : ∀ r, A r → h'.seen? r = h.seen? r) : h'.Supported x A := by
  have hlater : ∀ {q b}, A q → h.body? q = some b → ∃ b', h'.body? q = some b' ∧ b'.refs = b.refs := by
    intro q b hq hb
    have hseen := hbodies q hq
    unfold seen? at hseen
    rw [hb] at hseen
    obtain ⟨b', hb', hsame⟩ := Option.map_eq_some_iff.mp hseen
    exact ⟨b', hb', by rw [← Body.refs_seen b', hsame, Body.refs_seen]⟩
  intro r hr
  obtain ⟨b, hb, hheld⟩ := hA r hr
  obtain ⟨b', hb', _⟩ := hlater hr hb
  refine ⟨b', hb', ?_⟩
  rw [hcalm.outside]
  refine hheld.imp_right fun ⟨q, d, hq, hd, hmem⟩ => ?_
  obtain ⟨d', hd', hrefs⟩ := hlater hq hd
  exact ⟨q, d', hq, hd', hrefs ▸ hmem⟩

/-- The cell is in no set that holds up. -/
def Unsupported (h : Heap) (x : Ledger) (r : Handle) : Prop := ∀ A, h.Supported x A → ¬ A r

theorem unsupported_of_absent (hnone : h.body? r = none) : h.Unsupported x r := by
  intro A hA hr
  obtain ⟨b, hb, _⟩ := hA r hr
  cases hnone.symm.trans hb

/-- A cell that the ledger has the only reference to does not hold up without it. -/
theorem Counted.unsupported (hx : h.Counted (x.plus [r])) (hone : h.refCount? r = some 1) :
    h.Unsupported x r := by
  intro A hA
  obtain ⟨c, hc, hcount⟩ := refCount?_eq_some_iff.mp hone
  exact hx.not_supported hA hc (by simp [hcount])

/-- The cells of a sound heap hold up. -/
theorem Sound.supported (hs : h.Sound x n) : h.Supported x fun r => h.contains r = true := by
  intro r hr
  rw [contains_eq_isSome] at hr
  obtain ⟨b, hb⟩ := Option.isSome_iff_exists.mp hr
  obtain ⟨c, hc, rfl⟩ := body?_eq_some_iff.mp hb
  refine ⟨_, hb, ?_⟩
  have hpos := (hs.settled _ c (tenant?_of_cell? hc)).counted
  rw [hs.coherent.counted.refCount_eq hc] at hpos
  by_cases hout : h.outside x r = 0
  · right
    obtain ⟨i, d, hd, hmem⟩ := exists_of_total_pos (by omega : 0 < h.heldByCells r)
    rw [← cell?_handle] at hd
    have hd := body?_eq_some_iff.mpr ⟨d, hd, rfl⟩
    exact ⟨h.handle i, d.body, contains_of_body? hd, hd, List.count_pos_iff.mp hmem⟩
  · exact .inl (Nat.pos_of_ne_zero hout)

/-! ## Heaps that agree -/

/-- The same holds up on `x` in both heaps, with the same bodies. -/
structure Agree (x : Ledger) (h h' : Heap) : Prop where
  calm : Calm h h'
  bodies : ∀ A, h.Supported x A ∨ h'.Supported x A → ∀ r, A r → h'.seen? r = h.seen? r

namespace Agree

theorem symm (e : Agree x h h') : Agree x h' h :=
  ⟨e.calm.symm, fun A hA r hr => (e.bodies A hA.symm r hr).symm⟩

theorem supported (e : Agree x h h') (hA : h.Supported x A) : h'.Supported x A :=
  hA.transfer e.calm (e.bodies A (.inl hA))

theorem trans (e₁ : Agree x h h₁) (e₂ : Agree x h₁ h') : Agree x h h' := by
  refine ⟨e₁.calm.trans e₂.calm, fun A hA r hr => ?_⟩
  have hmid : h₁.Supported x A := hA.elim e₁.supported e₂.symm.supported
  exact (e₂.bodies A (.inl hmid) r hr).trans (e₁.bodies A (.inr hmid) r hr)

theorem of_plus {rs : List Handle} (e : Agree (x.plus rs) h h') : Agree x h h' :=
  ⟨e.calm, fun A hA => e.bodies A (hA.imp (·.mono fun r => by simp) (·.mono fun r => by simp))⟩

/-- A cell that does not hold up, before or after, may come or change. -/
theorem of_others (hcalm : Calm h h') (hothers : ∀ r, r ≠ s → h'.body? r = h.body? r)
    (hbefore : h.Unsupported x s) (hafter : h'.Unsupported x s) : Agree x h h' := by
  refine ⟨hcalm, fun A hA r hr => ?_⟩
  unfold seen?
  rw [hothers r]
  rintro rfl
  exact hA.elim (hbefore A · hr) (hafter A · hr)

end Agree

/-- All cells are as they were. -/
structure Unchanged (h h' : Heap) : Prop where
  calm : Calm h h'
  bodies : ∀ r, h'.seen? r = h.seen? r

namespace Unchanged

theorem refl (h : Heap) : Unchanged h h := ⟨.refl h, fun _ => rfl⟩

theorem trans (e₁ : Unchanged h h₁) (e₂ : Unchanged h₁ h') : Unchanged h h' :=
  ⟨e₁.calm.trans e₂.calm, fun r => (e₂.bodies r).trans (e₁.bodies r)⟩

theorem agree (e : Unchanged h h') (x : Ledger) : Agree x h h' := ⟨e.calm, fun _ _ r _ => e.bodies r⟩

theorem of_same (e : SameBodies h h') : Unchanged h h' :=
  ⟨e.calm, fun r => by unfold seen?; rw [e.body r]⟩

theorem of_cells (hcalm : Calm h h') (e : SameCells h h') : Unchanged h h' :=
  ⟨hcalm, fun r => by unfold seen?; rw [e.body? r]⟩

theorem of_rewrites (e : Rewrites s b b' h h') (hseen : b'.seen = b.seen) : Unchanged h h' := by
  refine ⟨e.calm, fun r => ?_⟩
  unfold seen?
  by_cases hr : r = s
  · rw [hr, e.before, e.after, Option.map_some, Option.map_some, hseen]
  · rw [e.others r hr]

end Unchanged

/-! ## References -/

theorem unchanged_of_retain (e : HeapM.retain r h = .ok (u, h')) : Unchanged h h' := by
  unfold HeapM.retain at e
  cases hc : h.cell? r with
  | none =>
    rw [hc] at e
    cases e
  | some c =>
    rw [hc] at e
    cases e
    have hu : Updates r (some { c with refCount := c.refCount + 1 }) h
        (h.modifyCell r.index fun c => { c with refCount := c.refCount + 1 }) :=
      .modifyCell hc fun c => { c with refCount := c.refCount + 1 }
    refine ⟨.modifyCell _ _ _, fun q => ?_⟩
    unfold seen?
    by_cases hq : q = r
    · rw [hq, hu.body_self, body?_eq_some_iff.mpr ⟨c, hc, rfl⟩]
    · rw [hu.body_other hq]

theorem unchanged_of_retainOption {o : Option Handle} (e : HeapM.retainOption o h = .ok (u, h')) :
    Unchanged h h' := by
  cases o with
  | none =>
    obtain ⟨_, rfl⟩ := HeapM.pure_eq_ok e
    exact .refl _
  | some r => exact unchanged_of_retain e

theorem Keeps.seen? (hk : Keeps h h') (hlive : h'.contains r = true) : h'.seen? r = h.seen? r := by
  rw [contains_eq_isSome] at hlive
  obtain ⟨b, hb⟩ := Option.isSome_iff_exists.mp hlive
  unfold Heap.seen?
  rw [hb, hk.body? hb]

/-- Giving up a reference spares what holds up without it. -/
theorem Sound.agree_of_release (hs : h.Sound (x.plus [r]) n) (e : HeapM.release r h = .ok (u, h')) :
    Agree x h h' := by
  obtain ⟨_, hk⟩ := hs.of_release e
  obtain ⟨h₁, hrun, _, hd, hkept⟩ := Sound.run [r] hs
  rw [HeapM.release, HeapM.change_apply hrun] at e
  cases e
  refine ⟨hd.calm, fun A hA q hq => ?_⟩
  rcases hA with hA | hA
  · unfold seen?
    rw [hkept A hA q hq]
  · obtain ⟨b, hb, _⟩ := hA q hq
    exact hk.seen? (contains_of_body? hb)

theorem Sound.agree_of_releaseAll {rs : List Handle} (hs : h.Sound (x.plus rs) n)
    (e : HeapM.releaseAll rs h = .ok (u, h')) : Agree x h h' := by
  induction rs generalizing h with
  | nil =>
    obtain ⟨_, rfl⟩ := HeapM.pure_eq_ok e
    exact (Unchanged.refl _).agree x
  | cons r rest ih =>
    rw [Ledger.plus_cons, Ledger.plus_comm] at hs
    obtain ⟨_, h₁, e₁, e⟩ := HeapM.bind_eq_ok e
    exact (hs.agree_of_release e₁).of_plus.trans (ih (hs.of_release e₁).1 e)

/-! ## Memory -/

theorem unchanged_of_account (h : Heap) (k : Nat) : Unchanged h { h with used := k } :=
  .of_cells ⟨rfl, rfl, rfl, rfl, rfl, fun _ => rfl, fun _ => rfl⟩ (.of_slots rfl)

theorem unchanged_of_widen (h : Heap) : Unchanged h h.widen :=
  .of_cells ⟨rfl, rfl, rfl, rfl, rfl, fun _ => rfl, fun _ => rfl⟩ (.widen h)

theorem unchanged_of_takeSlot {i : Nat} (e : h.takeSlot = .ok (i, h')) : Unchanged h h' := by
  refine .of_cells ?_ (.takeSlot e)
  rw [takeSlot_rest e]
  exact ⟨rfl, rfl, rfl, rfl, rfl, fun _ => rfl, fun _ => rfl⟩

namespace Quiet

theorem flushRoots (hq : h.Quiet) : HeapM.flushRoots h = .ok ((), h) := by
  have hsame : { h with dropped := .empty } = h := by
    rw [← Queue.eq_empty hq.flushed]
  unfold HeapM.flushRoots
  rw [HeapM.get_bind, hq.flushed]
  change Except.ok ((), { h with dropped := .empty }) = _
  rw [hsame]

theorem collectIfDue (hq : h.Quiet) : HeapM.collectIfDue h = .ok ((), h) := by
  unfold HeapM.collectIfDue
  rw [HeapM.get_bind, isCollectionDue, hq.manual]
  rfl

/-- In a quiet heap setting memory apart touches nothing, also if there is none. -/
theorem unchanged_of_reserve {size : Nat} {arrays : Nat → List Request} {failure : OutOfMemory}
    {res : Except OutOfMemory Reservation} (hq : h.Quiet)
    (e : (AllocM.reserve size arrays failure).run h = .ok (res, h')) : Unchanged h h' := by
  obtain ⟨h₁, h₂, e₁, e₂, hend⟩ := reserve_eq_ok e
  rw [hq.flushRoots] at e₁
  cases e₁
  rw [hq.collectIfDue] at e₂
  cases e₂
  obtain ⟨p, -, -, e₃⟩ | ⟨-, rfl | rfl⟩ := hend
  · exact (unchanged_of_account h _).trans (unchanged_of_takeSlot e₃)
  · exact .refl _
  · exact unchanged_of_widen h

/-- Memory that could not be set apart: what was owned is given up. -/
theorem agree_of_reserveOr {size : Nat} {owned : List Handle} {arrays : Nat → List Request}
    {res : Except OutOfMemory Reservation} (hq : h.Quiet) (hs : h.Sound (x.plus owned) n)
    (e : (AllocM.reserveOr size owned arrays).run h = .ok (res, h')) : Agree x h h' := by
  unfold AllocM.reserveOr at e
  rcases AllocM.tryCatch_eq_ok e with ⟨p, e₁, rfl⟩ | ⟨err, h₁, e₁, e⟩
  · exact (hq.unchanged_of_reserve e₁).agree x
  · obtain ⟨_, ⟨q, he, _⟩ | ⟨_, hs₁⟩⟩ := hs.of_reserve e₁
    · cases he
    · obtain ⟨_, h₂, e₂, e⟩ := AllocM.lift_bind_eq_ok e
      obtain ⟨rfl, rfl⟩ := AllocM.throw_eq_ok e
      exact ((hq.unchanged_of_reserve e₁).agree x).trans (hs₁.agree_of_releaseAll e₂)

end Quiet

theorem fresh_of_install {listed : Bool} (e : HeapM.install p body listed h = .ok (r, h')) :
    Calm h h' ∧ h.body? r = none ∧ ∀ q, q ≠ r → h'.body? q = h.body? q := by
  obtain ⟨hfresh, hu⟩ := Updates.putCell e
  refine ⟨?_, by rw [body?, hfresh]; rfl, fun q hq => hu.body_other hq⟩
  unfold HeapM.install putCell at e
  split at e
  · cases e
  · split at e
    · cases e
    · cases listed <;> cases e <;> exact ⟨rfl, rfl, rfl, rfl, rfl, fun _ => rfl, fun _ => rfl⟩

/-- A cell that is made is nobody else's. -/
theorem Sound.agree_of_install {listed : Bool} (hs' : h'.Sound (x.plus [r]) n)
    (hone : h'.refCount? r = some 1) (e : HeapM.install p body listed h = .ok (r, h')) : Agree x h h' := by
  obtain ⟨hcalm, hfresh, hothers⟩ := fresh_of_install e
  exact .of_others hcalm hothers (unsupported_of_absent hfresh) (hs'.coherent.counted.unsupported hone)

/-! ## Shapes -/

namespace Quiet

/-- A new shape is nobody else's. -/
theorem agree_of_newShape {proto : Option Handle} {res : Except OutOfMemory Handle} (hq : h.Quiet)
    (hs : h.Sound x n) (hproto : h.Names (proto.toList.map (·, .object)))
    (e : (AllocM.newShape proto).run h = .ok (res, h')) : Agree x h h' := by
  have hmade := hs.of_newShape hproto e
  rcases AllocM.bind_eq_ok e with ⟨p, h₁, e₁, e⟩ | ⟨err, e₁, rfl⟩
  · obtain ⟨_, h₂, e₂, e⟩ := AllocM.lift_bind_eq_ok e
    obtain ⟨s, h₃, e₃, e⟩ := AllocM.lift_bind_eq_ok e
    obtain ⟨_, h₄, e₄, e⟩ := AllocM.lift_bind_eq_ok e
    obtain ⟨rfl, rfl⟩ := AllocM.pure_eq_ok e
    obtain ⟨s', he, hnew⟩ | ⟨⟨_, he⟩, _⟩ := hmade
    · cases he
      obtain ⟨hcalm, hfresh, hothers⟩ := fresh_of_install e₃
      obtain ⟨_, _, hre⟩ := Rewrites.of_register e₄
      have hready := (hq.unchanged_of_reserve e₁).trans (unchanged_of_retainOption e₂)
      exact (hready.agree x).trans (.of_others (hcalm.trans hre.calm)
        (fun q hq => (hre.others q hq).trans (hothers q hq)) (unsupported_of_absent hfresh)
        (hnew.sound.coherent.counted.unsupported hnew.count))
    · cases he
  · exact (hq.unchanged_of_reserve e₁).agree x

theorem agree_of_shapeForNewObject {proto : Option Handle} {res : Except OutOfMemory Handle}
    (hq : h.Quiet) (hs : h.Sound x n) (hproto : h.Names (proto.toList.map (·, .object)))
    (e : (AllocM.shapeForNewObject proto).run h = .ok (res, h')) : Agree x h h' := by
  unfold AllocM.shapeForNewObject at e
  rw [AllocM.get_bind] at e
  split at e
  · obtain ⟨_, h₁, e₁, e⟩ := AllocM.lift_bind_eq_ok e
    obtain ⟨_, rfl⟩ := AllocM.pure_eq_ok e
    exact (unchanged_of_retain e₁).agree x
  · exact hq.agree_of_newShape hs hproto e

theorem agree_of_cloneShape {res : Except OutOfMemory Handle} (hq : h.Quiet) (hs : h.Sound x n)
    (e : (AllocM.cloneShape old).run h = .ok (res, h')) : Agree x h h' := by
  have hmade := hs.of_cloneShape e
  obtain ⟨t₀, _, e₀, e⟩ := AllocM.lift_bind_eq_ok e
  obtain ⟨_, rfl⟩ := shape_eq_ok e₀
  rcases AllocM.bind_eq_ok e with ⟨p, h₁, e₁, e⟩ | ⟨err, e₁, rfl⟩
  · obtain ⟨t, _, e₂, e⟩ := AllocM.lift_bind_eq_ok e
    obtain ⟨_, rfl⟩ := shape_eq_ok e₂
    obtain ⟨_, h₂, e₃, e⟩ := AllocM.lift_bind_eq_ok e
    obtain ⟨new, e₄, rfl⟩ := AllocM.lift_eq_ok e
    obtain ⟨new', _, he, hnew, _⟩ | ⟨⟨_, he⟩, _⟩ := hmade
    · cases he
      have hready := (hq.unchanged_of_reserve e₁).trans (unchanged_of_retainOption e₃)
      exact (hready.agree x).trans (hnew.sound.agree_of_install hnew.count e₄)
    · cases he
  · exact (hq.unchanged_of_reserve e₁).agree x

/-- A shape that could not be made ready for changes was not touched. -/
theorem agree_of_prepareUpdate {err : OutOfMemory} (hq : h.Quiet) (hs : h.Sound x n)
    (e : (AllocM.prepareUpdate old).run h = .ok (.error err, h')) : Agree x h h' := by
  unfold AllocM.prepareUpdate at e
  rw [AllocM.get_bind] at e
  split at e
  · rcases AllocM.bind_eq_ok e with ⟨new, h₁, e₁, e⟩ | ⟨_, e₁, _⟩
    · obtain ⟨_, h₂, _, e⟩ := AllocM.lift_bind_eq_ok e
      obtain ⟨_, h₃, _, e⟩ := AllocM.lift_bind_eq_ok e
      cases (AllocM.pure_eq_ok e).1
    · exact hq.agree_of_cloneShape hs e₁
  · obtain ⟨t, h₁, _, e⟩ := AllocM.lift_bind_eq_ok e
    split at e
    · obtain ⟨_, h₂, _, e⟩ := AllocM.lift_bind_eq_ok e
      obtain ⟨_, h₃, _, e⟩ := AllocM.lift_bind_eq_ok e
      cases (AllocM.pure_eq_ok e).1
    · obtain ⟨_, h₃, _, e⟩ := AllocM.lift_bind_eq_ok e
      cases (AllocM.pure_eq_ok e).1

end Quiet

/-- A shape that the ledger has the only reference to may be edited. -/
theorem Rewrites.agree (e : Rewrites s b b' h h') (hs : h.Sound (x.plus [s]) n)
    (hs' : h'.Sound (x.plus [s]) n) (hone : h.refCount? s = some 1) : Agree x h h' :=
  .of_others e.calm e.others (hs.coherent.counted.unsupported hone)
    (hs'.coherent.counted.unsupported ((e.count s).trans hone))

/-- Such a shape may be entered into the table under another hash. -/
theorem Sound.agree_of_share {f : Shape → UInt32} (hs : h.Sound (x.plus [s]) n)
    (hone : h.refCount? s = some 1) (ht : h.body? s = some (.shape t)) (hreg : t.isHashed = false)
    (e₁ : HeapM.modifyShape s (fun t => { t with hash := f t }) h = .ok (u, h₁))
    (e₂ : HeapM.register s h₁ = .ok (u, h')) : Agree x h h' := by
  obtain ⟨hs₁, _, hre₁⟩ := hs.of_modifyShape (f := fun t => { t with hash := f t }) (fun t' ht' => by
    cases ht.symm.trans ht'
    exact ⟨rfl, by simp [Body.hash?, hreg]⟩) e₁
  obtain ⟨hs', _, _, hre₂⟩ := hs₁.of_register e₂
  exact (hre₁.agree hs hs₁ hone).trans (hre₂.agree hs₁ hs' ((hre₁.count s).trans hone))

/-- A property that could not be added changed nothing.  One that was added took the place of the shape:
what holds up without that is as it was. -/
theorem Quiet.agree_of_addProperty {res : Except OutOfMemory (Handle × Nat)} (hq : h.Quiet)
    (hs : h.Sound x n) (e : (AllocM.addProperty old atom flags).run h = .ok (res, h')) :
    (∃ err, res = .error err) ∧ Agree x h h' ∨
      (∃ a, res = .ok a) ∧ ∀ y, x = y.plus [old] → Agree y h h' := by
  unfold AllocM.addProperty at e
  obtain ⟨t₀, _, e₀, e⟩ := AllocM.lift_bind_eq_ok e
  obtain ⟨ht₀, rfl⟩ := shape_eq_ok e₀
  dsimp only at e
  rw [AllocM.get_bind] at e
  split at e
  · obtain ⟨_, h₁, e₁, e⟩ := AllocM.lift_bind_eq_ok e
    obtain ⟨_, h₂, e₂, e⟩ := AllocM.lift_bind_eq_ok e
    obtain ⟨t, _, e₃, e⟩ := AllocM.lift_bind_eq_ok e
    obtain ⟨rfl, rfl⟩ := AllocM.pure_eq_ok e
    obtain ⟨_, rfl⟩ := shape_eq_ok e₃
    refine .inr ⟨⟨_, rfl⟩, fun y hx => ?_⟩
    obtain ⟨hs₁, _⟩ := hs.retain e₁
    rw [hx, Ledger.plus_comm] at hs₁
    exact ((unchanged_of_retain e₁).agree y).trans (hs₁.agree_of_release e₂).of_plus
  · rw [AllocM.get_bind] at e
    split at e
    · rcases AllocM.bind_eq_ok e with ⟨new, h₁, e₁, e⟩ | ⟨err, e₁, rfl⟩
      · have hclone := hq.agree_of_cloneShape hs e₁
        rcases hs.of_cloneShape e₁ with ⟨new', t, he, hnew, hold, hne⟩ | ⟨⟨err, he⟩, _⟩
        · cases he
          rcases AllocM.bind_eq_ok e with ⟨index, h₂, e₂, e⟩ | ⟨err, e₂, rfl⟩
          · rcases AllocM.tryCatch_eq_ok e₂ with ⟨_, e₃, hres⟩ | ⟨err, h₃, _, e₃⟩
            · cases hres
              obtain ⟨hs₂, t₁, ⟨t₂, _, hre, hext⟩ | ⟨⟨err, he⟩, _⟩⟩ := hnew.sound.of_extendShape e₃
              · have hextended := hclone.trans (hre.agree hnew.sound hs₂ hnew.count)
                cases hnew.shape.symm.trans hre.before
                obtain ⟨_, h₃, e₄, e⟩ := AllocM.lift_bind_eq_ok e
                have hcon := Concludes.release hs₂ ((hre.others old (Ne.symm hne)).trans hold) hre.after
                  hne hext.proto e₄
                have hone := hcon.count.trans ((hre.count new).trans hnew.count)
                have hreleased : ∀ y, x = y.plus [old] → Agree y h h₃ ∧ h₃.Sound (y.plus [new]) n := by
                  intro y hx
                  rw [hx, Ledger.plus_comm] at hs₂
                  rw [hx] at hextended
                  exact ⟨hextended.of_plus.trans (hs₂.agree_of_release e₄).of_plus, (hs₂.of_release e₄).1⟩
                split at e
                · obtain ⟨_, h₄, e₅, e⟩ := AllocM.lift_bind_eq_ok e
                  obtain ⟨_, h₅, e₆, e⟩ := AllocM.lift_bind_eq_ok e
                  obtain ⟨rfl, rfl⟩ := AllocM.pure_eq_ok e
                  refine .inr ⟨⟨_, rfl⟩, fun y hx => ?_⟩
                  obtain ⟨hagree, hs₃⟩ := hreleased y hx
                  exact hagree.trans (hs₃.agree_of_share hone hcon.after hext.isHashed e₅ e₆)
                · obtain ⟨rfl, rfl⟩ := AllocM.pure_eq_ok e
                  exact .inr ⟨⟨_, rfl⟩, fun y hx => (hreleased y hx).1⟩
              · cases he
            · obtain ⟨_, _, _, e₃⟩ := AllocM.lift_bind_eq_ok e₃
              cases e₃
          · rcases AllocM.tryCatch_eq_ok e₂ with ⟨_, _, hres⟩ | ⟨err', h₃, e₃, e₄⟩
            · cases hres
            · obtain ⟨_, h₄, e₅, e₆⟩ := AllocM.lift_bind_eq_ok e₄
              obtain ⟨_, rfl⟩ := AllocM.throw_eq_ok e₆
              obtain ⟨hs₂, t₁, ⟨t₂, hres, _⟩ | ⟨_, hre⟩⟩ := hnew.sound.of_extendShape e₃
              · cases hres
              · exact .inl ⟨⟨err, rfl⟩,
                  (hclone.trans ((Unchanged.of_rewrites hre rfl).agree x)).trans (hs₂.agree_of_release e₅)⟩
        · cases he
      · exact .inl ⟨⟨err, rfl⟩, hq.agree_of_cloneShape hs e₁⟩
    · rename_i hone
      have hone : h.refCount? old = some 1 := by simpa using hone
      rcases AllocM.bind_eq_ok e with ⟨index, h₁, e₁, e⟩ | ⟨err, e₁, rfl⟩
      · obtain ⟨rfl, rfl⟩ := AllocM.pure_eq_ok e
        obtain ⟨hs', t, ⟨t', _, hre, _⟩ | ⟨⟨err, he⟩, _⟩⟩ := hs.of_extendShape e₁
        · refine .inr ⟨⟨_, rfl⟩, fun y hx => ?_⟩
          rw [hx] at hs hs'
          exact hre.agree hs hs' hone
        · cases he
      · obtain ⟨_, t, ⟨t', hres, _⟩ | ⟨_, hre⟩⟩ := hs.of_extendShape e₁
        · cases hres
        · exact .inl ⟨⟨err, rfl⟩, (Unchanged.of_rewrites hre rfl).agree x⟩

theorem Quiet.agree_of_addProperty_error {err : OutOfMemory} (hq : h.Quiet) (hs : h.Sound x n)
    (e : (AllocM.addProperty old atom flags).run h = .ok (.error err, h')) : Agree x h h' := by
  rcases hq.agree_of_addProperty hs e with ⟨_, hagree⟩ | ⟨⟨_, he⟩, _⟩
  · exact hagree
  · cases he

theorem Quiet.agree_of_addProperty_owned {res : Except OutOfMemory (Handle × Nat)} (hq : h.Quiet)
    (hs : h.Sound (x.plus [old]) n) (e : (AllocM.addProperty old atom flags).run h = .ok (res, h')) :
    Agree x h h' := by
  rcases hq.agree_of_addProperty hs e with ⟨_, hagree⟩ | ⟨_, hagree⟩
  · exact hagree.of_plus
  · exact hagree x rfl

end Heap

end ObjectMemory
