import ObjectMemory.Proofs.Charges
import ObjectMemory.Proofs.Clients
import ObjectMemory.Proofs.Drifts
import ObjectMemory.Proofs.Shifting
set_option autoImplicit false

/-!
# The changes of every operation

Every action but the ones on variables and frames is a run of changes (`Heap.Drifts`).  An action that
makes no cell and edits no layout is one for any `T` (`HeapM.Shifting`).  The others edit what they have
made themselves, or a layout that nobody else has: `Heap.Sole h s` is the slot of `s` if it has one
reference in `h`, and that is asked before the first edit.

Deleting a property asks twice, as the layout may be compacted afterwards.  The object has the shape it
took over then, which takes a valid heap to tell.  So does the shape a realm has for arrays: one that is
found in the table has another owner.
-/

namespace ObjectMemory

namespace HeapM.Drifts

variable {T : Nat → Prop}

/-- What makes no cell is a run of changes, and edits no layout. -/
theorem of_shifting {α : Type} {act : HeapM α} (ha : act.Shifting) : Drifts T act :=
  fun h a h' e => .of_shifts (ha h a h' e)

theorem modifyShape {r : Handle} {f : Shape → Shape} (hT : T r.index) : Drifts T (modifyShape r f) := by
  intro h u h' e
  obtain ⟨_, _, _, _, rfl⟩ := Heap.modifyShape_eq_ok e
  exact .of_moves (.single (.reshape h r.index f hT))

theorem register {r : Handle} (hT : T r.index) : Drifts T (register r) := by
  intro h u h' e
  obtain ⟨_, _, _, _, _, rfl⟩ := Heap.register_eq_ok e
  exact .of_moves (.tail (.single (.reshape h r.index _ hT)) (.shift (.aside rfl rfl rfl rfl rfl)))

theorem unregister {r : Handle} (hT : T r.index) : Drifts T (unregister r) := by
  intro h u h' e
  obtain ⟨_, _, _, _, _, _, _, rfl⟩ := Heap.unregister_eq_ok e
  exact .of_moves (.tail (.single (.reshape h r.index _ hT)) (.shift (.aside rfl rfl rfl rfl rfl)))

end HeapM.Drifts

namespace AllocM.Drifts

variable {α : Type} {T : Nat → Prop}

theorem of_shifting {act : AllocM α} (ha : act.Shifting) : Drifts T act := HeapM.Drifts.of_shifting ha

/-- An action that makes no cell and cannot run out of memory. -/
theorem shift {act : HeapM α} (ha : act.Shifting) : Drifts T (liftM act : AllocM α) :=
  .of_shifting (.lift ha)

end AllocM.Drifts

/-! ## Making cells -/

namespace Heap

variable {T : Nat → Prop} {h h₁ h₂ h₃ h' : Heap} {p : Reservation} {b : Body} {r : Handle} {u : Unit}
  {listed : Bool} {size : Nat}

/-- A vacant slot holds nothing of what was there. -/
theorem Drifts.fresh_of_vacant {i : Nat} (hd : h.Drifts T h') (hv : h'.tenant? i = none) : h.Fresh h' i := by
  intro c hc hfrees
  obtain ⟨E, hm, _⟩ := hd
  obtain ⟨b, hb, _⟩ := hm.lasts.kept i c.body (bodyAt?_of_tenant? hc) hfrees
  rw [tenant?_eq_none_iff.mp hv] at hb
  cases hb

/-- A cell is made in a slot that was set apart after changes that made none. -/
theorem Shifts.make {o : Option Handle} (hready : h.Shifts h₁) (ht : h₁.takeSlot = .ok (p.index, h₂))
    (ho : HeapM.retainOption o h₂ = .ok (u, h₃)) (hp : HeapM.install p b listed h₃ = .ok (r, h'))
    (hb : b.kind ≠ .captured) : h.Drifts T h' ∧ h.Fresh h' r.index := by
  have hd : h.Drifts T h₁ := .of_shifts hready
  have hputs : Puts p.index b h₁ h' := puts_of_make ht ho hp
  have hmake : h₁.Drifts T h' := .of_moves (.single (.make hputs hb))
  obtain ⟨_, _, rfl, _⟩ := putCell_eq_ok hp
  exact ⟨hd.trans hmake, hmake.fresh_left (hd.frees p.index) (hd.fresh_of_vacant hputs.vacant)⟩

/-- A cell is made after its bytes were set apart, and memory may have run out before. -/
theorem drifts_of_install {owned : List Handle} {arrays : Nat → List Request} {res : Except OutOfMemory Handle}
    {b : Body}
    (e : ((AllocM.reserveOr size owned arrays) >>= fun p =>
      (liftM (HeapM.install p b listed) : AllocM Handle)).run h = .ok (res, h'))
    (hb : b.kind ≠ .captured) : h.Drifts T h' ∧ ∀ r, res = .ok r → h.Fresh h' r.index := by
  rcases AllocM.bind_eq_ok e with ⟨p, h₂, e₁, e₂⟩ | ⟨err, e₁, rfl⟩
  · rcases AllocM.reserveOr_cases e₁ with ⟨p', h₁, hres, hready, ht⟩ | ⟨⟨_, hres⟩, _⟩
    · cases hres
      obtain ⟨r, e₃, rfl⟩ := AllocM.lift_eq_ok e₂
      obtain ⟨hd', hf⟩ := hready.make (o := none) (u := ()) ht rfl e₃ hb
      exact ⟨hd', fun _ hr => by cases hr; exact hf⟩
    · cases hres
  · rcases AllocM.reserveOr_cases e₁ with ⟨_, _, hres, _⟩ | ⟨_, hready⟩
    · cases hres
    · exact ⟨.of_shifts hready, nofun⟩

/-! ## Making shapes -/

/-- The slot of `s`, if `s` has one reference. -/
def Sole (h : Heap) (s : Handle) (i : Nat) : Prop := s.index = i ∧ h.refCount? s = some 1

theorem drifts_of_newShape {proto : Option Handle} {res : Except OutOfMemory Handle}
    (e : (AllocM.newShape proto).run h = .ok (res, h')) :
    h.Drifts T h' ∧ ∀ s, res = .ok s → h.Fresh h' s.index := by
  rcases AllocM.bind_eq_ok e with ⟨p, h₂, e₁, e⟩ | ⟨err, e₁, rfl⟩
  · rcases AllocM.reserve_cases e₁ with ⟨p', h₁, hres, hready, ht⟩ | ⟨⟨_, hres⟩, _⟩
    · cases hres
      obtain ⟨_, h₃, e₂, e⟩ := AllocM.lift_bind_eq_ok e
      obtain ⟨s, h₄, e₃, e⟩ := AllocM.lift_bind_eq_ok e
      obtain ⟨_, h₅, e₄, e⟩ := AllocM.lift_bind_eq_ok e
      obtain ⟨rfl, rfl⟩ := AllocM.pure_eq_ok e
      obtain ⟨hd₄, hf⟩ := hready.make ht e₂ e₃ (by exact nofun)
      have hreg : h₄.Drifts (s.index = ·) h' := HeapM.Drifts.register rfl _ _ _ e₄
      refine ⟨hd₄.andThen hreg fun i hi => .inr (hi ▸ hf), fun _ hr => ?_⟩
      cases hr
      exact hreg.fresh_left (hd₄.frees _) hf
    · cases hres
  · rcases AllocM.reserve_cases e₁ with ⟨_, _, hres, _⟩ | ⟨_, hready⟩
    · cases hres
    · exact ⟨.of_shifts hready, nofun⟩

/-- A shape that is found has been someone's before, one that is made is new. -/
theorem drifts_of_shapeForNewObject {proto : Option Handle} {res : Except OutOfMemory Handle}
    (e : (AllocM.shapeForNewObject proto).run h = .ok (res, h')) :
    h.Drifts T h' ∧ ∀ s, res = .ok s →
      h.Fresh h' s.index ∨ ∃ c, h.cell? s = some c ∧ h'.refCount? s = some (c.refCount + 1) := by
  unfold AllocM.shapeForNewObject at e
  rw [AllocM.get_bind] at e
  split at e
  · rename_i s _
    obtain ⟨_, h₁, e₁, e⟩ := AllocM.lift_bind_eq_ok e
    obtain ⟨rfl, rfl⟩ := AllocM.pure_eq_ok e
    refine ⟨.of_shifts (HeapM.Shifting.retain s _ _ _ e₁), fun _ hr => .inr ?_⟩
    cases hr
    unfold HeapM.retain at e₁
    split at e₁
    · rename_i c hc
      cases e₁
      refine ⟨c, hc, ?_⟩
      rw [refCount?, cell?_modifyCell, if_pos rfl, hc]
      rfl
    · cases e₁
  · obtain ⟨hd, hf⟩ := drifts_of_newShape (T := T) e
    exact ⟨hd, fun s hr => .inl (hf s hr)⟩

theorem drifts_of_cloneShape {res : Except OutOfMemory Handle}
    (e : (AllocM.cloneShape r).run h = .ok (res, h')) :
    h.Drifts T h' ∧ ∀ s, res = .ok s → h.Fresh h' s.index := by
  obtain ⟨t, h₀, e₀, e⟩ := AllocM.lift_bind_eq_ok e
  obtain ⟨_, rfl⟩ := shape_eq_ok e₀
  rcases AllocM.bind_eq_ok e with ⟨p, h₂, e₁, e⟩ | ⟨err, e₁, rfl⟩
  · rcases AllocM.reserve_cases e₁ with ⟨p', h₁, hres, hready, ht⟩ | ⟨⟨_, hres⟩, _⟩
    · cases hres
      obtain ⟨t', h₃, e₂, e⟩ := AllocM.lift_bind_eq_ok e
      obtain ⟨_, rfl⟩ := shape_eq_ok e₂
      obtain ⟨_, h₄, e₃, e⟩ := AllocM.lift_bind_eq_ok e
      obtain ⟨s, e₄, rfl⟩ := AllocM.lift_eq_ok e
      obtain ⟨hd₄, hf⟩ := hready.make ht e₃ e₄ (by exact nofun)
      exact ⟨hd₄, fun _ hr => by cases hr; exact hf⟩
    · cases hres
  · rcases AllocM.reserve_cases e₁ with ⟨_, _, hres, _⟩ | ⟨_, hready⟩
    · cases hres
    · exact ⟨.of_shifts hready, nofun⟩

end Heap

/-! ## Editing shapes -/

namespace AllocM.Drifts

variable {T : Nat → Prop}

theorem growShape {r : Handle} (hT : T r.index) (count : Nat) : Drifts T (growShape r count) :=
  .bind (.shift (.shape r)) fun _ => .bind (.of_shifting (.growCell r _ _)) fun _ => .lift (.modifyShape hT)

theorem extendShape {r : Handle} (hT : T r.index) (atom : Atom) (flags : Flags) :
    Drifts T (extendShape r atom flags) := by
  refine .bind (.shift (.shape r)) fun s => ?_
  have hpush : Drifts T ((liftM (HeapM.modifyShape r (·.push atom flags)) : AllocM Unit) >>= fun _ =>
      Pure.pure s.entries.size) := .bind (.lift (.modifyShape hT)) fun _ => .pure _
  dsimp only
  generalize s.isHashed = hashed
  cases hashed with
  | false =>
    simp only [Bool.false_eq_true, if_false]
    split
    · exact .bind (.tryCatch (.growShape hT _) fun _ => .throw _) fun _ => hpush
    · exact hpush
  | true =>
    simp only [if_true]
    have hback : Drifts T ((liftM (HeapM.modifyShape r fun t =>
        { t with hash := Shape.transitionHash s.hash atom flags }) : AllocM Unit) >>= fun _ =>
        (liftM (HeapM.register r) : AllocM Unit) >>= fun _ =>
        (liftM (HeapM.modifyShape r (·.push atom flags)) : AllocM Unit) >>= fun _ =>
        Pure.pure s.entries.size) :=
      .bind (.lift (.modifyShape hT)) fun _ => .bind (.lift (.register hT)) fun _ => hpush
    refine .bind (.lift (.unregister hT)) fun _ => ?_
    split
    · exact .bind (.tryCatch (.growShape hT _) fun _ => .bind (.lift (.register hT)) fun _ => .throw _)
        fun _ => hback
    · exact hback

end AllocM.Drifts

/-! ## Editing the layout someone has -/

namespace Heap

variable {T : Nat → Prop} {h h₁ h' : Heap} {r s : Handle} {atom : Atom} {flags : Flags}

/-- A layout is edited after the copy that was made for it. -/
theorem drifts_of_addProperty {res : Except OutOfMemory (Handle × Nat)}
    (e : (AllocM.addProperty s atom flags).run h = .ok (res, h')) : h.Drifts (h.Sole s) h' := by
  obtain ⟨t, h₀, e₀, e⟩ := AllocM.lift_bind_eq_ok e
  obtain ⟨_, rfl⟩ := shape_eq_ok e₀
  dsimp only at e
  rw [AllocM.get_bind] at e
  generalize (if t.isHashed = true then h.sharedTransition? t atom flags else none) = found at e
  cases found with
  | some next =>
    have hnext : AllocM.Drifts (h.Sole s) (do
        HeapM.retain next
        HeapM.release s
        let t ← HeapM.shape next
        return (next, t.entries.size - 1) : AllocM (Handle × Nat)) :=
      .bind (.shift (.retain next)) fun _ => .bind (.shift (.release s)) fun _ =>
        .bind (.shift (.shape next)) fun _ => .pure _
    exact hnext _ _ _ e
  | none =>
    dsimp only at e
    rw [AllocM.get_bind] at e
    split at e
    · rcases AllocM.bind_eq_ok e with ⟨clone, h₁, e₁, e⟩ | ⟨err, e₁, rfl⟩
      · obtain ⟨hd, hf⟩ := drifts_of_cloneShape (T := h.Sole s) e₁
        -- from here on only the copy is edited
        have hrest : AllocM.Drifts (clone.index = ·) (do
            let index ←
              try AllocM.extendShape clone atom flags
              catch e =>
                HeapM.release clone
                throw e
            HeapM.release s
            if t.isHashed then
              HeapM.modifyShape clone fun s => { s with hash := Shape.transitionHash s.hash atom flags }
              HeapM.register clone
            return (clone, index) : AllocM (Handle × Nat)) := by
          refine .bind ?_ fun index => .bind (.shift (.release s)) fun _ => ?_
          · exact .tryCatch (.extendShape rfl atom flags) fun _ =>
              .bind (.shift (.release clone)) fun _ => .throw _
          · dsimp only
            split
            · exact .bind (.lift (.modifyShape rfl)) fun _ => .bind (.lift (.register rfl)) fun _ => .pure _
            · exact .pure _
        exact hd.andThen (hrest _ _ _ e) fun i hi => .inr (hi ▸ hf clone rfl)
      · exact (drifts_of_cloneShape e₁).1
    · rename_i hone
      have hT : h.Sole s s.index := ⟨rfl, by simpa using hone⟩
      have hrest : AllocM.Drifts (h.Sole s) (do
          let index ← AllocM.extendShape s atom flags
          return (s, index) : AllocM (Handle × Nat)) :=
        .bind (.extendShape hT atom flags) fun _ => .pure _
      exact hrest _ _ _ e

/-- A shape that was taken over is new, or had no other owner. -/
theorem drifts_of_prepareUpdate {res : Except OutOfMemory Handle}
    (e : (AllocM.prepareUpdate s).run h = .ok (res, h')) :
    h.Drifts (h.Sole s) h' ∧ ∀ s', res = .ok s' → h.Sole s s'.index ∨ h.Fresh h' s'.index := by
  unfold AllocM.prepareUpdate at e
  rw [AllocM.get_bind] at e
  split at e
  · rcases AllocM.bind_eq_ok e with ⟨clone, h₁, e₁, e⟩ | ⟨err, e₁, rfl⟩
    · obtain ⟨hd, hf⟩ := drifts_of_cloneShape (T := h.Sole s) e₁
      obtain ⟨_, h₂, e₂, e⟩ := AllocM.lift_bind_eq_ok e
      obtain ⟨_, h₃, e₃, e⟩ := AllocM.lift_bind_eq_ok e
      obtain ⟨rfl, rfl⟩ := AllocM.pure_eq_ok e
      have hrest : h₁.Drifts (clone.index = ·) h' :=
        (Drifts.of_shifts (HeapM.Shifting.release s _ _ _ e₂)).trans (HeapM.Drifts.modifyShape rfl _ _ _ e₃)
      refine ⟨hd.andThen hrest fun i hi => .inr (hi ▸ hf clone rfl), fun _ hr => .inr ?_⟩
      cases hr
      exact hrest.fresh_left (hd.frees _) (hf clone rfl)
    · exact ⟨(drifts_of_cloneShape e₁).1, nofun⟩
  · rename_i hone
    have hT : h.Sole s s.index := ⟨rfl, by simpa using hone⟩
    obtain ⟨t, h₀, e₀, e⟩ := AllocM.lift_bind_eq_ok e
    obtain ⟨_, rfl⟩ := shape_eq_ok e₀
    have hbump : AllocM.Drifts (h.Sole s) ((liftM (HeapM.modifyShape s (·.bump)) : AllocM Unit) >>= fun _ =>
        pure s) := .bind (.lift (.modifyShape hT)) fun _ => .pure _
    have hanswer : ∀ {h₁}, ((liftM (HeapM.modifyShape s (·.bump)) : AllocM Unit) >>= fun _ => pure s).run h₁ =
        .ok (res, h') → ∀ s', res = .ok s' → h.Sole s s'.index ∨ h.Fresh h' s'.index := by
      intro h₁ e s' hr
      obtain ⟨_, h₂, _, e⟩ := AllocM.lift_bind_eq_ok e
      obtain ⟨rfl, _⟩ := AllocM.pure_eq_ok e
      cases hr
      exact .inl hT
    dsimp only at e
    split at e
    · obtain ⟨_, h₁, e₁, e⟩ := AllocM.lift_bind_eq_ok e
      exact ⟨(HeapM.Drifts.unregister hT _ _ _ e₁).trans (hbump _ _ _ e), hanswer e⟩
    · exact ⟨hbump _ _ _ e, hanswer e⟩

/-! ## Editing the layout of an object -/

/-- The slot of the shape of object `r`, if the shape has one reference. -/
def SoleOf (h : Heap) (r : Handle) (i : Nat) : Prop := ∃ o, h.body? r = some (.object o) ∧ h.Sole o.shape i

theorem drifts_of_ownShape {res : Except OutOfMemory Handle}
    (e : (AllocM.ownShape r).run h = .ok (res, h')) :
    h.Drifts (h.SoleOf r) h' ∧ ∀ s, res = .ok s → h.SoleOf r s.index ∨ h.Fresh h' s.index := by
  obtain ⟨old, h₀, e₀, e⟩ := AllocM.lift_bind_eq_ok e
  obtain ⟨o, ho, rfl, rfl⟩ := objectShape_eq_ok e₀
  have hsole : ∀ i, h.Sole o.shape i → h.SoleOf r i := fun i hi => ⟨o, ho, hi⟩
  rcases AllocM.bind_eq_ok e with ⟨s, h₁, e₁, e⟩ | ⟨err, e₁, rfl⟩
  · rcases AllocM.tryCatch_eq_ok e₁ with ⟨s, e₁, hres⟩ | ⟨_, _, _, e₂⟩
    · cases hres
      obtain ⟨hd, hT⟩ := drifts_of_prepareUpdate e₁
      obtain ⟨_, h₂, e₂, e⟩ := AllocM.lift_bind_eq_ok e
      obtain ⟨rfl, rfl⟩ := AllocM.pure_eq_ok e
      have hset : h₁.Drifts (h.SoleOf r) h' := .of_shifts (HeapM.Shifting.setShape r s _ _ _ e₂)
      have hd := hd.mono hsole
      refine ⟨hd.trans hset, fun _ hr => ?_⟩
      cases hr
      exact (hT s rfl).imp (hsole _) (hset.fresh_left (hd.frees _))
    · obtain ⟨_, _, _, e₂⟩ := AllocM.lift_bind_eq_ok e₂
      cases e₂
  · rcases AllocM.tryCatch_eq_ok e₁ with ⟨_, _, hres⟩ | ⟨err, h₁, e₁, e₂⟩
    · cases hres
    · obtain ⟨_, h₂, e₂, e₃⟩ := AllocM.lift_bind_eq_ok e₂
      obtain ⟨_, rfl⟩ := AllocM.throw_eq_ok e₃
      have hd := (drifts_of_prepareUpdate e₁).1.mono hsole
      exact ⟨hd.trans (.of_shifts (HeapM.Shifting.setShape r o.shape _ _ _ e₂)), nofun⟩

/-- A cell changes in what is neither its count nor the shape of an object. -/
theorem SoleOf.of_modifyCell {i j : Nat} {f : Cell → Cell} (hcount : ∀ c, (f c).refCount = c.refCount)
    (hshape : ∀ c o, (f c).body = .object o → ∃ o', c.body = .object o' ∧ o'.shape = o.shape)
    (hi : (h.modifyCell j f).SoleOf r i) : h.SoleOf r i := by
  obtain ⟨o, ho, rfl, hone⟩ := hi
  have hone : h.refCount? o.shape = some 1 := by
    rw [← hone, refCount?, refCount?, cell?_modifyCell]
    split
    · cases h.cell? o.shape with
      | none => rfl
      | some c => exact congrArg some (hcount c).symm
    · rfl
  obtain ⟨c, hc, hb⟩ := body?_eq_some_iff.mp ho
  rw [cell?_modifyCell] at hc
  split at hc
  · obtain ⟨c₀, hc₀, rfl⟩ := Option.map_eq_some_iff.mp hc
    obtain ⟨o', ho', hsame⟩ := hshape c₀ o hb
    exact ⟨o', body?_eq_some_iff.mpr ⟨c₀, hc₀, ho'⟩, by rw [hsame], by rw [hsame]; exact hone⟩
  · exact ⟨o, body?_eq_some_iff.mpr ⟨c, hc, hb⟩, rfl, hone⟩

theorem soleOf_of_growCell {i n : Nat} {c : Cell} {arrays : List Request} {res : Except OutOfMemory Unit}
    (hc : h.tenant? s.index = some c) (e : (AllocM.growCell s n arrays).run h = .ok (res, h'))
    (hi : h'.SoleOf r i) : h.SoleOf r i := by
  obtain ⟨-, hrun⟩ | ⟨err, hrun⟩ := growCell_cases hc n arrays
  · rw [hrun] at e
    cases e
    have hbefore : ({ h with used := h.used + n } : Heap).SoleOf r i :=
      SoleOf.of_modifyCell (f := fun c => { c with size := c.size + n }) (fun _ => rfl)
        (fun _ o hb => ⟨o, hb, rfl⟩) hi
    exact hbefore
  · rw [hrun] at e
    cases e
    exact hi

/-- Making room for a property leaves the object its shape, and the shape its count. -/
theorem soleOf_of_reserveProperty {res : Except OutOfMemory Unit}
    (e : (AllocM.reserveProperty r).run h = .ok (res, h')) (i : Nat) (hi : h'.SoleOf r i) : h.SoleOf r i := by
  obtain ⟨o, h₀, e₀, e⟩ := AllocM.lift_bind_eq_ok e
  obtain ⟨ho, rfl⟩ := object_eq_ok e₀
  obtain ⟨c, hc, _⟩ := body?_eq_some_iff.mp ho
  have ht := tenant?_of_cell? hc
  dsimp only at e
  split at e
  · rcases AllocM.bind_eq_ok e with ⟨_, h₁, e₁, e⟩ | ⟨err, e₁, rfl⟩
    · obtain ⟨_, e₂, rfl⟩ := AllocM.lift_eq_ok e
      obtain ⟨_, _, _, _, rfl⟩ := modifyObject_eq_ok e₂
      have hcharged : h₁.SoleOf r i := by
        refine SoleOf.of_modifyCell (fun c => ?_) (fun c o' hb => ?_) hi
        · rfl
        · dsimp only at hb
          split at hb
          · rename_i o₀ ho₀
            cases hb
            exact ⟨o₀, ho₀, rfl⟩
          · exact ⟨o', hb, rfl⟩
      exact soleOf_of_growCell ht e₁ hcharged
    · exact soleOf_of_growCell ht e₁ hi
  · obtain ⟨rfl, rfl⟩ := AllocM.pure_eq_ok e
    exact hi

theorem drifts_of_reserveProperty (r : Handle) : AllocM.Drifts T (AllocM.reserveProperty r) := by
  refine .bind (.shift (.object r)) fun o => ?_
  dsimp only
  split
  · exact .bind (.of_shifting (.growCell r _ _)) fun _ => .shift (.modifyObject r _)
  · exact .pure ()

theorem drifts_of_appendProperty {p : Property} {res : Except OutOfMemory Unit}
    (e : (AllocM.appendProperty r atom flags p).run h = .ok (res, h')) : h.Drifts (h.SoleOf r) h' := by
  rcases AllocM.bind_eq_ok e with ⟨_, h₁, e₁, e⟩ | ⟨err, e₁, rfl⟩
  · rcases AllocM.tryCatch_eq_ok e₁ with ⟨_, e₁, _⟩ | ⟨_, _, _, e₁⟩
    · have hroom : h.Drifts (h.SoleOf r) h₁ := drifts_of_reserveProperty r _ _ _ e₁
      refine hroom.andThen (S := h₁.SoleOf r) ?_ fun i hi => .inl (soleOf_of_reserveProperty e₁ i hi)
      obtain ⟨old, _, e₂, e⟩ := AllocM.lift_bind_eq_ok e
      obtain ⟨o, ho, rfl, rfl⟩ := objectShape_eq_ok e₂
      have hsole : ∀ i, h₁.Sole o.shape i → h₁.SoleOf r i := fun i hi => ⟨o, ho, hi⟩
      rcases AllocM.bind_eq_ok e with ⟨⟨s, index⟩, h₂, e₃, e⟩ | ⟨err, e₃, rfl⟩
      · rcases AllocM.tryCatch_eq_ok e₃ with ⟨_, e₃, hres⟩ | ⟨_, _, _, e₃⟩
        · cases hres
          have hstore : AllocM.Drifts (h₁.SoleOf r) (do
              HeapM.setShape r s
              HeapM.modifyObject r fun o => { o with properties := o.properties.push p }
              let o ← HeapM.object r
              if index + 1 ≠ o.properties.size then HeapM.fault .assertion : AllocM Unit) := by
            refine .bind (.shift (.setShape r s)) fun _ => .bind (.shift (.modifyObject r _)) fun _ =>
              .bind (.shift (.object r)) fun o => ?_
            split
            · exact .fault _
            · exact .pure ()
          exact ((drifts_of_addProperty e₃).mono hsole).trans (hstore _ _ _ e)
        · obtain ⟨_, _, _, e₃⟩ := AllocM.lift_bind_eq_ok e₃
          obtain ⟨_, _, _, e₃⟩ := AllocM.lift_bind_eq_ok e₃
          cases e₃
      · rcases AllocM.tryCatch_eq_ok e₃ with ⟨_, _, hres⟩ | ⟨_, h₂, e₄, e₅⟩
        · cases hres
        · obtain ⟨_, h₃, e₅, e₆⟩ := AllocM.lift_bind_eq_ok e₅
          obtain ⟨_, h₄, e₆, e₇⟩ := AllocM.lift_bind_eq_ok e₆
          obtain ⟨_, rfl⟩ := AllocM.throw_eq_ok e₇
          exact ((drifts_of_addProperty e₄).mono hsole).trans
            (.of_shifts ((HeapM.Shifting.setShape r _ _ _ _ e₅).trans
              (HeapM.Shifting.releaseProperty p _ _ _ e₆)))
    · obtain ⟨_, _, _, e₁⟩ := AllocM.lift_bind_eq_ok e₁
      cases e₁
  · have hgive : AllocM.Drifts (h.SoleOf r) (tryCatch (AllocM.reserveProperty r) fun err => do
        HeapM.releaseProperty p
        throw err) :=
      .tryCatch (drifts_of_reserveProperty r) fun _ => .bind (.shift (.releaseProperty p)) fun _ => .throw _
    exact hgive _ _ _ e₁

/-- The flags of a property are written into a shape that was taken over. -/
theorem drifts_of_reflag {p : Property} {index : Nat} {res : Except OutOfMemory Unit}
    (e : (tryCatch (AllocM.ownShape r) (fun err => do HeapM.releaseProperty p; throw err) >>= fun shape =>
      liftM (HeapM.modifyShape shape (·.setFlags index flags)) : AllocM Unit).run h = .ok (res, h')) :
    h.Drifts (h.SoleOf r) h' := by
  rcases AllocM.bind_eq_ok e with ⟨shape, h₁, e₁, e⟩ | ⟨err, e₁, _⟩
  · rcases AllocM.tryCatch_eq_ok e₁ with ⟨_, e₁, hres⟩ | ⟨_, _, _, e₁⟩
    · cases hres
      obtain ⟨_, e₂, _⟩ := AllocM.lift_eq_ok e
      obtain ⟨hd, hT⟩ := drifts_of_ownShape e₁
      have hflags : h₁.Drifts (shape.index = ·) h' := HeapM.Drifts.modifyShape rfl _ _ _ e₂
      exact hd.andThen hflags fun i hi => hi ▸ hT shape rfl
    · obtain ⟨_, _, _, e₁⟩ := AllocM.lift_bind_eq_ok e₁
      cases e₁
  · rcases AllocM.tryCatch_eq_ok e₁ with ⟨_, _, hres⟩ | ⟨_, h₂, e₂, e₃⟩
    · cases hres
    · obtain ⟨_, h₃, e₃, e₄⟩ := AllocM.lift_bind_eq_ok e₃
      obtain ⟨_, rfl⟩ := AllocM.throw_eq_ok e₄
      exact (drifts_of_ownShape e₂).1.trans (.of_shifts (HeapM.Shifting.releaseProperty p _ _ _ e₃))

theorem drifts_of_defineOwn {p : Property} {res : Except OutOfMemory Bool}
    (e : (AllocM.defineOwn r atom flags p).run h = .ok (res, h')) : h.Drifts (h.SoleOf r) h' := by
  obtain ⟨old, _, e₁, e⟩ := AllocM.lift_bind_eq_ok e
  obtain ⟨o, ho, rfl, rfl⟩ := objectShape_eq_ok e₁
  rw [AllocM.get_bind] at e
  split at e
  · rename_i index oldFlags _
    have hreplace : AllocM.Drifts (h.SoleOf r) (do
        let old ← HeapM.replaceProperty r index p
        HeapM.releaseProperty old
        return true : AllocM Bool) :=
      .bind (.shift (.replaceProperty r index p)) fun old =>
        .bind (.shift (.releaseProperty old)) fun _ => .pure true
    dsimp only at e
    split at e
    · rw [← bind_assoc] at e
      rcases AllocM.bind_eq_ok e with ⟨_, h₁, e₂, e⟩ | ⟨err, e₂, rfl⟩
      · exact (drifts_of_reflag e₂).trans (hreplace _ _ _ e)
      · exact drifts_of_reflag e₂
    · exact hreplace _ _ _ e
  · obtain ⟨_, _, e₂, e⟩ := AllocM.lift_bind_eq_ok e
    obtain ⟨_, rfl⟩ := object_eq_ok e₂
    split at e
    · rcases AllocM.bind_eq_ok e with ⟨_, h₁, e₃, e⟩ | ⟨err, e₃, rfl⟩
      · obtain ⟨_, rfl⟩ := AllocM.pure_eq_ok e
        exact drifts_of_appendProperty e₃
      · exact drifts_of_appendProperty e₃
    · obtain ⟨_, h₁, e₃, e⟩ := AllocM.lift_bind_eq_ok e
      obtain ⟨_, rfl⟩ := AllocM.pure_eq_ok e
      exact .of_shifts (HeapM.Shifting.releaseProperty p _ _ _ e₃)

/-- A shape that has one reference after one was taken had it before: no cell of a sound heap is without
one. -/
theorem Sound.count_of_retainOption {x : Ledger} {n : Nat} {o : Option Handle} {u : Unit} (hs : h.Sound x n)
    (e : HeapM.retainOption o h = .ok (u, h')) (hone : h'.refCount? s = some 1) : h.refCount? s = some 1 := by
  by_cases hother : ∀ p ∈ o, p ≠ s
  · rw [refCount?, cell?_retainOption e hother] at hone
    exact hone
  · push Not at hother
    obtain ⟨p, rfl, rfl⟩ := hother
    change HeapM.retain p h = .ok (u, h') at e
    unfold HeapM.retain at e
    split at e
    · rename_i c hc
      cases e
      rw [refCount?, cell?_modifyCell, if_pos rfl, hc] at hone
      have hzero : c.refCount = 0 := by simpa using hone
      exact absurd hzero (hs.settled _ _ (tenant?_of_cell? hc)).counted
    · cases e

/-- References of the accessor are taken before anything else. -/
theorem Valid.drifts_of_defineAccessor {x : Ledger} {getter setter : Option Handle}
    {res : Except OutOfMemory Bool} (hv : h.Valid x)
    (e : (AllocM.defineAccessor r atom flags getter setter).run h = .ok (res, h')) :
    h.Drifts (h.SoleOf r) h' := by
  obtain ⟨_, h₁, e₁, e⟩ := AllocM.lift_bind_eq_ok e
  obtain ⟨_, h₂, e₂, e⟩ := AllocM.lift_bind_eq_ok e
  obtain ⟨hs₁, hk₁, _⟩ := hv.sound.retainOption e₁
  obtain ⟨_, hk₂, _⟩ := hs₁.retainOption e₂
  have htaken : h.Drifts (h.SoleOf r) h₂ :=
    .of_shifts ((HeapM.Shifting.retainOption _ _ _ _ e₁).trans (HeapM.Shifting.retainOption _ _ _ _ e₂))
  refine htaken.andThen (drifts_of_defineOwn e) fun i hi => .inl ?_
  obtain ⟨o, ho, hi, hone⟩ := hi
  exact ⟨o, hk₁.body? (hk₂.body? ho), hi,
    hv.sound.count_of_retainOption e₁ (hs₁.count_of_retainOption e₂ hone)⟩

/-- The variable that an own property stands for, if the property may be assigned to. -/
def assignee? (h : Heap) (r : Handle) (atom : Atom) : Option Handle :=
  (h.findOwn? r atom).bind fun (i, flags) =>
    if flags.contains .writable && flags.kind == .captured then
      (h.object? r).bind fun o =>
        match o.properties[i]? with
        | some (.captured y) => some y
        | _ => none
    else none

/-- An assignment puts the value into the variable the property stands for, or is a run of changes. -/
theorem setProperty_cases {v : Value} {res : Except OutOfMemory Bool}
    (e : (AllocM.setProperty r atom v).run h = .ok (res, h')) :
    (∃ y u, h.assignee? r atom = some y ∧ res = .ok true ∧ HeapM.setVariable y v h = .ok (u, h')) ∨
      h.assignee? r atom = none ∧ h.Drifts (h.SoleOf r) h' := by
  unfold AllocM.setProperty at e
  rw [AllocM.get_bind] at e
  unfold assignee?
  cases hfind : h.findOwn? r atom with
  | none =>
    rw [hfind] at e
    exact .inr ⟨rfl, drifts_of_defineOwn e⟩
  | some found =>
    obtain ⟨index, flags⟩ := found
    rw [hfind] at e
    dsimp only at e
    rw [Option.bind_some]
    dsimp only
    split at e
    · rename_i hrefused
      obtain ⟨_, h₁, e₁, e⟩ := AllocM.lift_bind_eq_ok e
      obtain ⟨_, rfl⟩ := AllocM.pure_eq_ok e
      refine .inr ⟨if_neg fun hok => ?_, .of_shifts (HeapM.Shifting.freeValue v _ _ _ e₁)⟩
      simp only [Bool.and_eq_true, beq_iff_eq] at hok
      rw [hok.1, hok.2] at hrefused
      revert hrefused
      decide
    · rename_i hallowed
      simp only [Bool.or_eq_true, Bool.not_eq_true', not_or, Bool.not_eq_false] at hallowed
      split at e
      · rename_i hcaptured
        rw [if_pos (by rw [hallowed.1, hcaptured]; rfl)]
        obtain ⟨o, _, e₁, e⟩ := AllocM.lift_bind_eq_ok e
        obtain ⟨ho, rfl⟩ := object_eq_ok e₁
        rw [object?_iff_body?.mpr ho, Option.bind_some]
        split at e
        · exact (AllocM.fault_eq_ok e).elim
        · rename_i y hy
          obtain ⟨u, h₁, e₁, e⟩ := AllocM.lift_bind_eq_ok e
          obtain ⟨rfl, rfl⟩ := AllocM.pure_eq_ok e
          exact .inl ⟨y, u, by rw [hy], rfl, e₁⟩
        · exact (AllocM.fault_eq_ok e).elim
      · rename_i hplain
        obtain ⟨_, h₁, e₁, e⟩ := AllocM.lift_bind_eq_ok e
        obtain ⟨_, rfl⟩ := AllocM.pure_eq_ok e
        refine .inr ⟨if_neg fun hok => ?_, .of_shifts (HeapM.Shifting.writeSlot r index v _ _ _ e₁)⟩
        simp only [Bool.and_eq_true] at hok
        exact hplain hok.2

theorem drifts_of_compactProperties {res : Except OutOfMemory Unit}
    (e : (AllocM.compactProperties r).run h = .ok (res, h')) : h.Drifts (h.SoleOf r) h' := by
  rcases AllocM.bind_eq_ok e with ⟨shape, h₁, e₁, e⟩ | ⟨err, e₁, rfl⟩
  · obtain ⟨hd, hT⟩ := drifts_of_ownShape e₁
    refine hd.andThen (S := (shape.index = ·)) ?_ fun i hi => hi ▸ hT shape rfl
    obtain ⟨t, _, e₂, e⟩ := AllocM.lift_bind_eq_ok e
    obtain ⟨_, rfl⟩ := shape_eq_ok e₂
    obtain ⟨o, _, e₃, e⟩ := AllocM.lift_bind_eq_ok e
    obtain ⟨_, rfl⟩ := object_eq_ok e₃
    rw [ask_bind] at e
    split at e
    · split at e
      · exact (AllocM.fault_eq_ok e).elim
      · obtain ⟨_, h₂, e₄, e⟩ := AllocM.lift_bind_eq_ok e
        obtain ⟨_, h₃, e₅, e⟩ := AllocM.lift_bind_eq_ok e
        obtain ⟨_, h₄, e₆, e⟩ := AllocM.lift_bind_eq_ok e
        obtain ⟨_, e₇, _⟩ := AllocM.lift_eq_ok e
        have hrest : h₂.Shifts h' := (HeapM.Shifting.modifyObject r _ _ _ _ e₅).trans
          ((HeapM.Shifting.unchargeCell shape _ _ _ _ e₆).trans (HeapM.Shifting.unchargeCell r _ _ _ _ e₇))
        exact (HeapM.Drifts.modifyShape rfl _ _ _ e₄).trans (.of_shifts hrest)
    · cases e
      exact .refl _
  · exact (drifts_of_ownShape e₁).1

theorem body?_of_replaceProperty {o : Object} {index : Nat} {p old : Property}
    (ho : h.body? r = some (.object o)) (e : HeapM.replaceProperty r index p h = .ok (old, h')) :
    ∃ ps, h'.body? r = some (.object { o with properties := ps }) := by
  obtain ⟨o', _, e₁, e⟩ := HeapM.bind_eq_ok e
  obtain ⟨ho', rfl⟩ := object_eq_ok e₁
  rw [ho] at ho'
  cases ho'
  cases hq : o.properties[index]? with
  | none =>
    rw [hq] at e
    exact (HeapM.fault_eq_ok e).elim
  | some q =>
    rw [hq] at e
    obtain ⟨_, h₁, e₂, e⟩ := HeapM.bind_eq_ok e
    obtain ⟨_, rfl⟩ := HeapM.pure_eq_ok e
    obtain ⟨_, _, _, _, rfl⟩ := modifyObject_eq_ok e₂
    obtain ⟨c, hc, hb⟩ := body?_eq_some_iff.mp ho
    exact ⟨_, (Updates.modifyObjectAt hc hb _).body_self⟩

/-- The object has the shape it took over after the property was given up. -/
theorem TakesOver.soleOf_of_removal {x : Ledger} {o : Object} {t₀ t : Shape} {index : Nat} {old : Property}
    {u u' : Unit} {h₂ h₃ : Heap} (htake : TakesOver x r s o t₀ t h h₁)
    (e₁ : HeapM.modifyShape s (·.remove index) h₁ = .ok (u, h₂))
    (e₂ : HeapM.replaceProperty r index .undefined h₂ = .ok (old, h₃))
    (e₃ : HeapM.releaseProperty old h₃ = .ok (u', h')) {i : Nat} (hi : h'.SoleOf r i) : s.index = i := by
  obtain ⟨o', ho', hi, _⟩ := hi
  obtain ⟨hv₃, _⟩ := htake.of_vacating e₁ e₂
  obtain ⟨_, hk⟩ := hv₃.of_releaseProperty e₃
  obtain ⟨_, hre⟩ := Rewrites.of_modifyShape e₁
  have hother : r ≠ s := fun hrs => by
    have hshape := htake.shape
    rw [← hrs, htake.object] at hshape
    cases hshape
  obtain ⟨ps, ho₃⟩ := body?_of_replaceProperty ((hre.others r hother).trans htake.object) e₂
  rw [hk.body? ho'] at ho₃
  cases ho₃
  exact hi

/-- A layout that is compacted after a deletion is the one the object took over for it. -/
theorem Valid.drifts_of_deleteProperty {x : Ledger} {res : Except OutOfMemory Bool} (hv : h.Valid x)
    (e : (AllocM.deleteProperty r atom).run h = .ok (res, h')) : h.Drifts (h.SoleOf r) h' := by
  unfold AllocM.deleteProperty at e
  rw [AllocM.get_bind] at e
  split at e
  · obtain ⟨_, rfl⟩ := AllocM.pure_eq_ok e
    exact .refl _
  · rename_i index flags _
    split at e
    · obtain ⟨_, rfl⟩ := AllocM.pure_eq_ok e
      exact .refl _
    · rcases AllocM.bind_eq_ok e with ⟨s, h₁, e₁, e⟩ | ⟨err, e₁, rfl⟩
      · obtain ⟨hd, hT⟩ := drifts_of_ownShape e₁
        rcases hv.of_ownShape e₁ with ⟨s', o, t₀, t, hres, htake⟩ | ⟨⟨_, he⟩, _⟩
        · cases hres
          obtain ⟨_, _, e₂, e⟩ := AllocM.lift_bind_eq_ok e
          obtain ⟨_, rfl⟩ := shape_eq_ok e₂
          dsimp only at e
          split at e
          · rcases AllocM.bind_eq_ok e with ⟨_, _, hfault, _⟩ | ⟨_, hfault, _⟩
            · cases hfault
            · cases hfault
          · obtain ⟨_, h₂, e₃, e⟩ := AllocM.lift_bind_eq_ok e
            obtain ⟨t', _, e₄, e⟩ := AllocM.lift_bind_eq_ok e
            obtain ⟨_, rfl⟩ := shape_eq_ok e₄
            obtain ⟨old, h₃, e₅, e⟩ := AllocM.lift_bind_eq_ok e
            obtain ⟨_, h₄, e₆, e⟩ := AllocM.lift_bind_eq_ok e
            have hremove : h₁.Drifts (s.index = ·) h₄ := (HeapM.Drifts.modifyShape rfl _ _ _ e₃).trans
              (.of_shifts ((HeapM.Shifting.replaceProperty r index _ _ _ _ e₅).trans
                (HeapM.Shifting.releaseProperty old _ _ _ e₆)))
            have hd₄ := hd.andThen hremove fun i hi => hi ▸ hT s rfl
            have hagain : ∀ i, h₄.SoleOf r i → h.SoleOf r i ∨ h.Fresh h₄ i := by
              intro i hi
              rw [← htake.soleOf_of_removal e₃ e₅ e₆ hi]
              exact (hT s rfl).imp id (hremove.fresh_left (hd.frees _))
            split at e
            · rcases AllocM.bind_eq_ok e with ⟨_, h₅, e₇, e⟩ | ⟨err, e₇, rfl⟩
              · obtain ⟨_, rfl⟩ := AllocM.pure_eq_ok e
                rcases AllocM.tryCatch_eq_ok e₇ with ⟨_, e₇, _⟩ | ⟨_, h₆, e₇, e₈⟩
                · exact hd₄.andThen (drifts_of_compactProperties e₇) hagain
                · obtain ⟨_, rfl⟩ := AllocM.pure_eq_ok e₈
                  exact hd₄.andThen (drifts_of_compactProperties e₇) hagain
              · rcases AllocM.tryCatch_eq_ok e₇ with ⟨_, _, hres⟩ | ⟨_, _, _, e₈⟩
                · cases hres
                · cases e₈
            · obtain ⟨_, rfl⟩ := AllocM.pure_eq_ok e
              exact hd₄
        · cases he
      · exact (drifts_of_ownShape e₁).1

theorem drifts_of_setPrototype {proto : Option Handle} {res : Except OutOfMemory Bool}
    (e : (AllocM.setPrototype r proto).run h = .ok (res, h')) : h.Drifts (h.SoleOf r) h' := by
  unfold AllocM.setPrototype at e
  rw [AllocM.get_bind] at e
  split at e
  · obtain ⟨_, rfl⟩ := AllocM.pure_eq_ok e
    exact .refl _
  · obtain ⟨_, _, e₁, e⟩ := AllocM.lift_bind_eq_ok e
    obtain ⟨_, _, _, rfl⟩ := objectShape_eq_ok e₁
    obtain ⟨_, _, e₂, e⟩ := AllocM.lift_bind_eq_ok e
    obtain ⟨_, rfl⟩ := shape_eq_ok e₂
    split at e
    · obtain ⟨_, rfl⟩ := AllocM.pure_eq_ok e
      exact .refl _
    · rcases AllocM.bind_eq_ok e with ⟨shape, h₁, e₃, e⟩ | ⟨err, e₃, rfl⟩
      · obtain ⟨hd, hT⟩ := drifts_of_ownShape e₃
        refine hd.andThen (S := (shape.index = ·)) ?_ fun i hi => hi ▸ hT shape rfl
        obtain ⟨_, h₂, e₄, e⟩ := AllocM.lift_bind_eq_ok e
        obtain ⟨t, _, e₅, e⟩ := AllocM.lift_bind_eq_ok e
        obtain ⟨_, rfl⟩ := shape_eq_ok e₅
        obtain ⟨_, h₃, e₆, e⟩ := AllocM.lift_bind_eq_ok e
        obtain ⟨_, h₄, e₇, e⟩ := AllocM.lift_bind_eq_ok e
        obtain ⟨_, rfl⟩ := AllocM.pure_eq_ok e
        exact (Drifts.of_shifts (HeapM.Shifting.retainOption proto _ _ _ e₄)).trans
          ((HeapM.Drifts.modifyShape rfl _ _ _ e₆).trans
            (.of_shifts (HeapM.Shifting.releaseAll _ _ _ _ e₇)))
      · exact (drifts_of_ownShape e₃).1

/-! ## Making objects, functions and realms -/

theorem drifts_of_newObjectFromShape {payload : Payload} {res : Except OutOfMemory Handle}
    (e : (AllocM.newObjectFromShape s payload).run h = .ok (res, h')) : h.Drifts T h' := by
  obtain ⟨t, _, e₁, e⟩ := AllocM.lift_bind_eq_ok e
  obtain ⟨_, rfl⟩ := shape_eq_ok e₁
  exact (drifts_of_install e (by exact nofun)).1

theorem drifts_of_newObject (proto : Option Handle) : AllocM.Drifts T (AllocM.newObject proto) :=
  .bind (fun _ _ _ e => (drifts_of_shapeForNewObject e).1) fun _ _ _ _ e => drifts_of_newObjectFromShape e

theorem drifts_of_newArray (ctx : Handle) : AllocM.Drifts T (AllocM.newArray ctx) :=
  .bind (.lift (.read _)) fun x => .bind (.shift (.retain x.arrayShape)) fun _ =>
    .bind (fun _ _ _ e => drifts_of_newObjectFromShape e) fun r =>
      .bind (.shift (.setLength r 0)) fun _ => .pure r

theorem drifts_of_arrayPush (r : Handle) (v : Value) : AllocM.Drifts T (AllocM.arrayPush r v) := by
  refine .bind (.shift (.arrayExtent r)) fun p => ?_
  dsimp only
  have hlast (f : Object → Object) : AllocM.Drifts T (do
      HeapM.modifyObject r f
      HeapM.setLength r (p.1 + 1) : AllocM Unit) :=
    .bind (.shift (.modifyObject r f)) fun _ => .shift (.setLength r _)
  split
  · refine .bind ?_ fun _ => .bind (.shift (.modifyObject r _)) fun _ => hlast _
    exact .tryCatch (.of_shifting (.growCell r _ _)) fun _ => .bind (.shift (.freeValue v)) fun _ => .throw _
  · exact hlast _

theorem drifts_of_newBytecode {name : Option Atom} {realm : Option Handle} {pool : Array Value}
    {res : Except OutOfMemory Handle} (e : (AllocM.newBytecode name realm pool).run h = .ok (res, h')) :
    h.Drifts T h' := by
  rcases AllocM.bind_eq_ok e with ⟨p, h₂, e₁, e⟩ | ⟨err, e₁, rfl⟩
  · rcases AllocM.reserveOr_cases e₁ with ⟨_, h₁, hres, hready, ht⟩ | ⟨⟨_, hres⟩, _⟩
    · cases hres
      obtain ⟨_, h₃, e₂, e⟩ := AllocM.lift_bind_eq_ok e
      obtain ⟨_, e₃, _⟩ := AllocM.lift_eq_ok e
      exact (hready.make ht e₂ e₃ (by exact nofun)).1
    · cases hres
  · rcases AllocM.reserveOr_cases e₁ with ⟨_, _, hres, _⟩ | ⟨_, hready⟩
    · cases hres
    · exact .of_shifts hready

theorem drifts_of_newClosure (proto : Option Handle) (bytecode : Handle) (captured : Array Handle)
    (home : Option Handle) : AllocM.Drifts T (AllocM.newClosure proto bytecode captured home) := by
  refine .bind (.shift (.retain bytecode)) fun _ => .bind (.shift (.retainOption home)) fun _ =>
    .bind (.tryCatch (fun _ _ _ e => (drifts_of_shapeForNewObject e).1) fun _ => ?_) fun _ _ _ _ e =>
      drifts_of_newObjectFromShape e
  exact .bind (.shift (.releaseAll _)) fun _ => .throw _

theorem drifts_of_newSuspension {receiver resolve reject : Value} {values : Array Value}
    {res : Except OutOfMemory Handle}
    (e : (AllocM.newSuspension receiver values resolve reject).run h = .ok (res, h')) : h.Drifts T h' :=
  (drifts_of_install e (by exact nofun)).1

theorem drifts_of_guarding {α : Type} {owned : List Handle} {act : AllocM α} (hact : AllocM.Drifts T act) :
    AllocM.Drifts T (AllocM.guarding owned act) :=
  .tryCatch hact fun _ => .bind (.shift (.releaseAll _)) fun _ => .throw _

/-- One more object is made on the way to a realm. -/
theorem Made.drifts_newObject {x : Ledger} {α : Type} {k : Nat} {ds : List (Handle × Option Handle)}
    {ps : List (Handle × Kind)} {h₀ : Heap} {proto : Option Handle} {next : Handle → AllocM α}
    {res : Except OutOfMemory α} (hm : Made x k ds ps h₀ h) (hd : h₀.Drifts T h)
    (hproto : ∀ q ∈ proto, (q, .object) ∈ ps) (hk : k < 100)
    (e : (AllocM.guarding (ps.map (·.1)) (AllocM.newObject proto) >>= next).run h = .ok (res, h')) :
    (∃ r h₁, Made x (k + 2) (ds ++ [(r, proto)]) (ps ++ [(r, .object)]) h₀ h₁ ∧ h₀.Drifts T h₁ ∧
        (next r).run h₁ = .ok (res, h')) ∨ h₀.Drifts T h' := by
  have hstep : AllocM.Drifts T (AllocM.guarding (ps.map (·.1)) (AllocM.newObject proto)) :=
    drifts_of_guarding (drifts_of_newObject proto)
  rcases AllocM.bind_eq_ok e with ⟨r, h₁, e₁, e₂⟩ | ⟨err, e₁, _⟩
  · refine .inl ⟨r, h₁, ?_, hd.trans (hstep _ _ _ e₁), e₂⟩
    have halone : (AllocM.guarding (ps.map (·.1)) (AllocM.newObject proto) >>= pure).run h =
        .ok (.ok r, h₁) := by rw [bind_pure]; exact e₁
    rcases hm.newObject hproto hk halone with ⟨r', h₂, hm₂, e₃⟩ | ⟨⟨_, he⟩, _⟩
    · cases e₃
      exact hm₂
    · cases he
  · exact .inr (hd.trans (hstep _ _ _ e₁))

/-- The empty shape a realm extends for its arrays is new, or has another owner. -/
theorem Sound.drifts_of_arrayShape {x : Ledger} {n : Nat} {proto : Option Handle} {made : List Handle}
    {owned : Handle → List Handle} {α : Type} {next : Handle × Nat → AllocM α}
    {res : Except OutOfMemory α} (hs : h.Sound x n) (hnext : ∀ q, AllocM.Drifts T (next q))
    (e : (AllocM.guarding made (AllocM.shapeForNewObject proto) >>= fun s =>
      AllocM.guarding (owned s) (AllocM.addProperty s atom flags) >>= next).run h = .ok (res, h')) :
    h.Drifts T h' := by
  have hempty : AllocM.Drifts T (AllocM.shapeForNewObject proto) := fun _ _ _ e =>
    (drifts_of_shapeForNewObject e).1
  rcases AllocM.bind_eq_ok e with ⟨s, h₁, e₁, e⟩ | ⟨err, e₁, _⟩
  · rcases guarding_eq_ok e₁ with ⟨_, hres, e₁⟩ | ⟨_, _, hres, _⟩
    · cases hres
      obtain ⟨hd, hnew⟩ := drifts_of_shapeForNewObject (T := T) e₁
      refine hd.andThen (S := fun i => h₁.Sole s i ∨ T i) ?_ fun i hi => ?_
      · rcases AllocM.bind_eq_ok e with ⟨q, h₂, e₂, e⟩ | ⟨err, e₂, _⟩
        · rcases guarding_eq_ok e₂ with ⟨_, hres, e₂⟩ | ⟨_, _, hres, _⟩
          · exact ((drifts_of_addProperty e₂).mono fun _ => .inl).trans ((hnext q _ _ _ e).mono fun _ => .inr)
          · cases hres
        · rcases guarding_eq_ok e₂ with ⟨_, hres, _⟩ | ⟨_, h₂, _, e₂, e₃⟩
          · cases hres
          · exact ((drifts_of_addProperty e₂).mono fun _ => .inl).trans
              (.of_shifts (HeapM.Shifting.releaseAll _ _ _ _ e₃))
      · rcases hi with ⟨rfl, hone⟩ | hi
        · rcases hnew s rfl with hf | ⟨c, hc, htwo⟩
          · exact .inr hf
          · rw [hone] at htwo
            have hzero : c.refCount = 0 := by simpa using htwo.symm
            exact absurd hzero (hs.settled _ _ (tenant?_of_cell? hc)).counted
        · exact .inl hi
    · cases hres
  · exact drifts_of_guarding hempty _ _ _ e₁

/-- All that a realm needs is made for it. -/
theorem Valid.drifts_of_newRealm {x : Ledger} {res : Except OutOfMemory Handle} (hv : h.Valid x)
    (e : AllocM.newRealm.run h = .ok (res, h')) : h.Drifts T h' := by
  rcases AllocM.bind_eq_ok e with ⟨a, h₁, e₁, e₂⟩ | ⟨err, e₁, _⟩
  · have hd₁ : h.Drifts T h₁ := drifts_of_newObject none _ _ _ e₁
    rcases hv.of_newObject (fun _ hq => by cases hq) e₁ with ⟨_, hres, hi⟩ | ⟨⟨_, hres⟩, _⟩
    · cases hres
      have hm₁ := hv.made.of_newObject (by simp) (by omega) (by simpa using hi) e₁
      rcases hm₁.drifts_newObject hd₁ (by simp) (by omega) e₂ with ⟨b, h₂, hm₂, hd₂, e₃⟩ | hd
      · rcases hm₂.drifts_newObject hd₂ (by simp) (by omega) e₃ with ⟨c, h₃, hm₃, hd₃, e₄⟩ | hd
        · rcases hm₃.drifts_newObject hd₃ (by simp) (by omega) e₄ with ⟨d, h₄, hm₄, hd₄, e₅⟩ | hd
          · refine hd₄.trans (hm₄.valid.sound.drifts_of_arrayShape (fun q => ?_) e₅)
            intro g res g' e
            rcases AllocM.bind_eq_ok e with ⟨p, g₂, e₆, e⟩ | ⟨err, e₆, _⟩
            · rcases guarding_eq_ok e₆ with ⟨_, hres, e₆⟩ | ⟨_, _, hres, _⟩
              · cases hres
                rcases AllocM.reserve_cases e₆ with ⟨_, g₁, hres, hready, ht⟩ | ⟨⟨_, hres⟩, _⟩
                · cases hres
                  obtain ⟨_, e₇, _⟩ := AllocM.lift_eq_ok e
                  exact (hready.make (o := none) (u := ()) ht rfl e₇ (by exact nofun)).1
                · cases hres
              · cases hres
            · rcases guarding_eq_ok e₆ with ⟨_, hres, _⟩ | ⟨_, g₁, _, e₆, e₇⟩
              · cases hres
              · rcases AllocM.reserve_cases e₆ with ⟨_, _, hres, _⟩ | ⟨_, hready⟩
                · cases hres
                · exact .of_shifts (hready.trans (HeapM.Shifting.releaseAll _ _ _ _ e₇))
          · exact hd
        · exact hd
      · exact hd
    · cases hres
  · exact drifts_of_newObject none _ _ _ e₁

end Heap

end ObjectMemory
