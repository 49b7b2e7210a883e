import ObjectMemory.Proofs.Edits
import ObjectMemory.Proofs.Shifting
set_option autoImplicit false

/-!
# The history of every call

Every call keeps to `Heap.Evolves`, for any arguments and from any heap (`Call.evolves`).  Actions that
make no cell do, as runs of changes (`HeapM.Shifting`).  The ones that put bodies of the same kind into
cells are followed part by part, and the ones that edit a layout in place through `Heap.Edits`: extending
a shape, taking a shape over for changes (`prepareUpdate`), and what objects do with a shape they took
over.
-/

namespace ObjectMemory

/-! ## Slots -/

namespace Heap

variable {h h' : Heap} {p : Reservation} {body : Body} {listed : Bool} {r : Handle}

/-- A cell put into a reserved slot: the slot was vacant, and nothing else changes in the slots. -/
theorem putCell_eq_ok (e : h.putCell p body listed = .ok (r, h')) :
    h.tenant? p.index = none ∧ p.index < h.slots.size ∧ r = h.handle p.index ∧
      h'.slots.size = h.slots.size ∧ (∀ i, h'.frees i = h.frees i) ∧
      ∀ i, h'.tenant? i = if p.index = i then
        some ⟨1, false, if listed then .live h.nextTicket else .unlisted, p.size, body⟩
        else h.tenant? i := by
  unfold putCell at e
  split at e
  · cases e
  · rename_i s hs
    split at e
    · cases e
    · rename_i hv
      have hv : s.cell = none := by simpa using hv
      have hlt := (Array.getElem?_eq_some_iff.mp hs).1
      have hvac : h.tenant? p.index = none := by
        unfold tenant?
        rw [hs]
        exact hv
      have hhandle : (⟨p.index, s.generation⟩ : Handle) = h.handle p.index := by
        unfold handle frees
        rw [hs]
        rfl
      have hview : ∀ (c : Cell) (i : Nat),
          ((h.slots.modify p.index fun s => { s with cell := some c })[i]?.bind (·.cell)) =
            if p.index = i then some c else h.tenant? i := by
        intro c i
        rw [Array.getElem?_modify]
        split
        · rename_i hi
          subst hi
          rw [hs]
          rfl
        · rfl
      have hcount : ∀ (c : Cell) (i : Nat),
          ((h.slots.modify p.index fun s => { s with cell := some c })[i]?.map (·.frees)).getD 0 =
            h.frees i := by
        intro c i
        rw [Array.getElem?_modify]
        split
        · rename_i hi
          subst hi
          rw [hs]
          simp [frees, hs]
        · rfl
      cases listed with
      | false =>
        cases e
        exact ⟨hvac, hlt, hhandle, by simp, hcount _, hview _⟩
      | true =>
        cases e
        refine ⟨hvac, hlt, hhandle, by simp [joinLive, setPlace], fun i => ?_, fun i => ?_⟩
        · rw [if_pos rfl, frees_joinLive]
          exact hcount _ i
        · rw [if_pos rfl, tenant?_joinLive]
          unfold tenant?
          rw [hview ⟨1, false, .unlisted, p.size, body⟩ i]
          split
          · rfl
          · rfl

theorem Evolves.putCell (e : h.putCell p body listed = .ok (r, h')) : Evolves 1 h h' := by
  obtain ⟨hvac, _, _, hsize, hfrees, htenant⟩ := putCell_eq_ok e
  refine ⟨Nat.le_of_eq hsize.symm, fun i => Nat.le_of_eq (hfrees i).symm, fun i => ?_,
    fun i c hc _ => ?_⟩
  · unfold Heap.tenures
    rw [hfrees, htenant]
    split <;> simp
  · rw [htenant]
    split
    · rename_i hi
      rw [← hi, hvac] at hc
      cases hc
    · exact ⟨c, hc, .refl _⟩

theorem Evolves.detach {id : FrameId} {st st' : Heap × Array Value}
    (e : Heap.detach id st r = .ok st') : Evolves 0 st.1 st'.1 := by
  obtain ⟨⟨h₁, locals⟩, e₁, e⟩ := except_bind_eq_ok e
  obtain ⟨c, hc, e⟩ := except_bind_eq_ok e
  have hmove : Evolves 0 st.1 h₁ := by
    unfold Heap.detachAt at e₁
    split at e₁
    · cases e₁
    · rename_i d hd
      split at e₁
      · cases e₁
      · rename_i hb
        split at e₁
        · cases e₁
        · cases e₁
          refine .modifyCell _ r.index _ fun d' hd' => ?_
          rw [tenant?_of_cell? hd] at hd'
          cases hd'
          rw [hb]
          exact .of_kind rfl (by simp [Body.kind])
      · cases e₁
        exact .refl _
  split at e
  · cases e
  · cases e
    exact hmove.trans (.joinLive h₁ r.index c.place)

theorem Evolves.takeSlot {i : Nat} (e : h.takeSlot = .ok (i, h')) : Evolves 0 h h' := by
  obtain ⟨hsize, hfrees, htenant⟩ := takeSlot_eq_ok e
  exact .of_tenants hsize hfrees htenant

end Heap

/-! ## Cells, variables and locals -/

namespace HeapM.Tracks

/-- What makes no cell keeps to the history, as a run of changes. -/
theorem of_shifting {α : Type} {n : Nat} {act : HeapM α} (ha : act.Shifting) : Tracks n act :=
  fun h a h' e => (ha h a h' e).evolves.mono (Nat.zero_le n)

theorem install (p : Reservation) (body : Body) (listed : Bool) : Tracks 1 (install p body listed) :=
  fun _ _ _ e => Heap.Evolves.putCell e

/-- A shape may be replaced by one that follows it. -/
theorem modifyShape (r : Handle) {f : Shape → Shape} (hf : ∀ s : Shape, s.Follows (f s)) :
    Tracks 0 (modifyShape r f) := by
  intro h a h' e
  obtain ⟨t, d, hd, hb, rfl⟩ := Heap.modifyShape_eq_ok e
  refine .modifyCell h r.index _ fun c _ => ?_
  cases hb : c.body with
  | shape s => exact ⟨rfl, fun t ht => by cases ht; exact ⟨f s, rfl, hf s⟩⟩
  | _ => exact .refl _

/-- Whether a shape is registered has no part in its layout. -/
theorem modifyHashed {h : Heap} {r : Handle} {c : Cell} {s : Shape} (hc : h.cell? r = some c)
    (hb : c.body = .shape s) (hashed : Bool) :
    h.Evolves 0 (h.modifyShapeAt r.index fun s => { s with isHashed := hashed }) :=
  modifyShape r (f := fun s => { s with isHashed := hashed })
    (fun s => ⟨Nat.le_refl _, fun _ => ⟨rfl, rfl, rfl⟩⟩) h () _
    (by rw [HeapM.modifyShape, Heap.shape?_eq_some_iff.mpr ⟨c, hc, hb⟩])

theorem register (r : Handle) : Tracks 0 (register r) := by
  intro h a h' e
  obtain ⟨s, c, hc, hb, -, rfl⟩ := Heap.register_eq_ok e
  exact (modifyHashed hc hb true).then_slots rfl

theorem unregister (r : Handle) : Tracks 0 (unregister r) := by
  intro h a h' e
  obtain ⟨s, c, table, hc, hb, -, -, rfl⟩ := Heap.unregister_eq_ok e
  exact (modifyHashed hc hb false).then_slots rfl

theorem setLocal (id : FrameId) (slot : Nat) (v : Value) : Tracks 0 (setLocal id slot v) := by
  refine .get_bind fun h => ?_
  split
  · exact .fault _
  · split
    · exact .fault _
    · exact .bind (.modify fun _ => .of_slots rfl) fun _ => .of_shifting (.freeValue _)

theorem setVariable (r : Handle) (v : Value) : Tracks 0 (setVariable r v) := by
  intro h a h' e
  obtain ⟨id, slot, -, e⟩ | ⟨old, hv, e⟩ := Heap.setVariable_eq_ok e
  · exact setLocal id slot v h a h' e
  · obtain ⟨c, hc, hb⟩ := Heap.captured?_eq_some_iff.mp hv
    refine Heap.Evolves.trans (n := 0) (.modifyCell h r.index _ fun d hd => ?_)
      (Shifting.freeValue old _ _ _ e).evolves
    rw [Heap.tenant?_of_cell? hc] at hd
    cases hd
    rw [hb]
    exact .of_kind rfl (by simp [Body.kind])

theorem popFrame (id : FrameId) : Tracks 0 (popFrame id) := by
  intro h a h' e
  obtain ⟨f, locals, h₁, h₂, -, hdetach, e₁, e₂⟩ := Heap.popFrame_eq_ok e
  have hpop : h.Evolves 0 { h with frames := h.frames.pop id.index } := .of_slots rfl
  have hdetached := foldlM_ok_induct
    (P := fun s => Heap.Evolves 0 { h with frames := h.frames.pop id.index } s.1)
    (fun _ _ _ hs hstep => hs.trans (Heap.Evolves.detach hstep)) (.refl _) hdetach
  have hrest : h₁.Shifts h' := (Shifting.freeValues _ _ _ _ e₁).trans (Shifting.uncharge _ _ _ _ e₂)
  exact (hpop.trans hdetached).trans hrest.evolves

end HeapM.Tracks

/-! ## Allocating -/

namespace AllocM.Tracks

theorem of_shifting {α : Type} {n : Nat} {act : AllocM α} (ha : act.Shifting) : Tracks n act :=
  HeapM.Tracks.of_shifting ha

/-- An action that makes no cell and cannot run out of memory. -/
theorem shift {α : Type} {n : Nat} {act : HeapM α} (ha : act.Shifting) : Tracks n (liftM act : AllocM α) :=
  .of_shifting (.lift ha)

theorem reserve (size : Nat) {arrays : Nat → List Request} {failure : OutOfMemory} :
    Tracks 0 (reserve size arrays failure) := by
  intro h res h' e
  obtain ⟨_, h₁, -, hd, ht⟩ | ⟨-, hd⟩ := reserve_cases e
  · exact hd.evolves.trans (.takeSlot ht)
  · exact hd.evolves

theorem reserveOr (size : Nat) (owned : List Handle) {arrays : Nat → List Request} :
    Tracks 0 (reserveOr size owned arrays) :=
  .tryCatch (.reserve size) fun _ => .bind (.shift (.releaseAll owned)) fun _ => .throw _

/-- A cell is made in the slot set apart for it. -/
theorem install (p : Reservation) (body : Body) (listed : Bool) :
    Tracks 1 (liftM (HeapM.install p body listed) : AllocM Handle) := .lift (.install p body listed)

theorem newShape (proto : Option Handle) : Tracks 1 (newShape proto) :=
  .bind (.reserve _) fun p => .bind (.shift (.retainOption proto)) fun _ =>
    .andThen (n := 1) (m := 0) (.install p _ true) fun r => .bind (.lift (.register r)) fun _ => .pure r

theorem shapeForNewObject (proto : Option Handle) : Tracks 1 (shapeForNewObject proto) := by
  refine .get_bind fun h => ?_
  split
  · exact .bind (.shift (.retain _)) fun _ => .pure _
  · exact .newShape proto

theorem cloneShape (r : Handle) : Tracks 1 (cloneShape r) :=
  .bind (.shift (.shape r)) fun _ => .bind (.reserve _) fun p => .bind (.shift (.shape r)) fun s =>
    .bind (.shift (.retainOption s.proto)) fun _ => .install p _ true

end AllocM.Tracks

/-! ## Editing shapes -/

namespace AllocM

open HeapM

variable {h h' : Heap} {r clone : Handle} {atom : Atom} {flags : Flags}

/-- A copy stands in a slot that held no shape before. -/
theorem edits_of_cloneShape (e : (cloneShape r).run h = .ok (.ok clone, h')) (k : Nat) :
    h.Edits clone.index k 1 h' := by
  obtain ⟨s, h₁, e₁, e⟩ := lift_bind_eq_ok e
  rcases bind_eq_ok e with ⟨p, h₂, e₂, e⟩ | ⟨err, _, hres⟩
  · obtain ⟨s', h₃, e₃, e⟩ := lift_bind_eq_ok e
    obtain ⟨_, h₄, e₄, e⟩ := lift_bind_eq_ok e
    obtain ⟨_, e₅, hr⟩ := lift_eq_ok e
    cases hr
    have hput : h₄.putCell p (.shape s'.copy) true = .ok (clone, h') := e₅
    obtain ⟨hvac, _, hhandle, _⟩ := Heap.putCell_eq_ok hput
    have hbefore : h.Evolves 0 h₄ :=
      ((HeapM.Shifting.shape r _ _ _ e₁).evolves.trans (Tracks.reserve _ _ _ _ e₂)).trans
        ((HeapM.Shifting.shape r _ _ _ e₃).evolves.trans (HeapM.Shifting.retainOption _ _ _ _ e₄).evolves)
    have hindex : clone.index = p.index := by
      rw [hhandle]
      rfl
    rw [hindex]
    exact Heap.Edits.of_vacant hbefore (.putCell hput) hvac k
  · cases hres

theorem edits_of_modifyShape {f : Shape → Shape} {k : Nat} {u : Unit}
    (e : modifyShape r f h = .ok (u, h')) (hf : ∀ s, s.changes + k ≤ (f s).changes) :
    h.Edits r.index k 0 h' := by
  unfold modifyShape at e
  split at e
  · cases e
    exact .modifyShapeAt h r.index hf
  · cases e

theorem edits_of_growShape {count : Nat} {u : Unit}
    (e : (growShape r count).run h = .ok (.ok u, h')) : h.Edits r.index 0 0 h' := by
  obtain ⟨s, h₁, e₁, e⟩ := lift_bind_eq_ok e
  rcases bind_eq_ok e with ⟨_, h₂, e₂, e⟩ | ⟨err, _, hres⟩
  · obtain ⟨_, e₃, _⟩ := lift_eq_ok e
    have hcharge :=
      (HeapM.Shifting.shape r _ _ _ e₁).evolves.trans (Shifting.growCell r _ _ _ _ _ e₂).evolves
    have hgrow : h₂.Edits r.index 0 0 h' := by
      refine edits_of_modifyShape e₃ fun s => ?_
      unfold Shape.grow
      dsimp only
      split <;> exact Nat.le_refl _
    exact (Heap.Edits.of_evolves hcharge r.index).trans hgrow
  · cases hres

/-- If there is no room, the layout has not been touched. -/
theorem evolves_of_growShape_error {count : Nat} {err : OutOfMemory}
    (e : (growShape r count).run h = .ok (.error err, h')) : h.Evolves 0 h' := by
  obtain ⟨s, h₁, e₁, e⟩ := lift_bind_eq_ok e
  rcases bind_eq_ok e with ⟨_, h₂, _, e⟩ | ⟨_, e₂, _⟩
  · obtain ⟨_, _, hres⟩ := lift_eq_ok e
    cases hres
  · exact (HeapM.Shifting.shape r _ _ _ e₁).evolves.trans (Shifting.growCell r _ _ _ _ _ e₂).evolves

/-- The push that ends an extension counts the change. -/
theorem evolves_of_push {h₁ : Heap} {count : Nat} {res : Except OutOfMemory Nat}
    (hedits : h.Edits r.index 0 0 h₁)
    (e : ((liftM (modifyShape r (·.push atom flags)) : AllocM Unit) >>= fun _ => pure count).run h₁ =
      .ok (res, h')) : h.Evolves 0 h' := by
  obtain ⟨_, h₂, e₂, e⟩ := lift_bind_eq_ok e
  obtain ⟨_, rfl⟩ := pure_eq_ok e
  have hpush : h₁.Edits r.index 1 0 h' := edits_of_modifyShape e₂ fun _ => Nat.le_refl _
  exact (hedits.trans hpush).evolves (by omega)

/-- A shape that was in the table goes back under its new hash before the push. -/
theorem evolves_of_rehash {h₁ : Heap} {count : Nat} {hash : UInt32} {res : Except OutOfMemory Nat}
    (hedits : h.Edits r.index 0 0 h₁)
    (e : ((liftM (modifyShape r fun s => { s with hash := hash }) : AllocM Unit) >>= fun _ =>
      (liftM (register r) : AllocM Unit) >>= fun _ =>
      (liftM (modifyShape r (·.push atom flags)) : AllocM Unit) >>= fun _ => pure count).run h₁ =
      .ok (res, h')) : h.Evolves 0 h' := by
  obtain ⟨_, h₂, e₂, e⟩ := lift_bind_eq_ok e
  obtain ⟨_, h₃, e₃, e⟩ := lift_bind_eq_ok e
  have hhash : h₁.Edits r.index 0 0 h₂ := edits_of_modifyShape e₂ fun _ => Nat.le_refl _
  have hregister := (hedits.trans hhash).then_evolves (HeapM.Tracks.register r _ _ _ e₃)
  exact evolves_of_push hregister e

/-- Extending a shape in place ends with a counted change, or with the shape as it was. -/
theorem tracks_extendShape (r : Handle) (atom : Atom) (flags : Flags) :
    Tracks 0 (extendShape r atom flags) := by
  intro h res h' e
  obtain ⟨s, h₁, e₁, e⟩ := lift_bind_eq_ok e
  have hread : h.Evolves 0 h₁ := (HeapM.Shifting.shape r _ _ _ e₁).evolves
  dsimp only at e
  generalize s.isHashed = hashed at e
  cases hashed with
  | false =>
    simp only [Bool.false_eq_true, if_false] at e
    split at e
    · rcases bind_eq_ok e with ⟨_, h₂, e₂, e⟩ | ⟨_, e₂, _⟩
      · rcases tryCatch_eq_ok e₂ with ⟨_, e₃, _⟩ | ⟨_, _, _, e₃⟩
        · exact evolves_of_push ((Heap.Edits.of_evolves hread _).trans (edits_of_growShape e₃)) e
        · cases e₃
      · rcases tryCatch_eq_ok e₂ with ⟨_, _, hres⟩ | ⟨_, h₃, e₃, e₄⟩
        · cases hres
        · obtain ⟨_, rfl⟩ := throw_eq_ok e₄
          exact hread.trans (evolves_of_growShape_error e₃)
    · exact evolves_of_push (.of_evolves hread _) e
  | true =>
    simp only [if_true] at e
    obtain ⟨_, h₂, e₂, e⟩ := lift_bind_eq_ok e
    have hout := hread.trans (HeapM.Tracks.unregister r _ _ _ e₂)
    split at e
    · rcases bind_eq_ok e with ⟨_, h₃, e₃, e⟩ | ⟨_, e₃, _⟩
      · rcases tryCatch_eq_ok e₃ with ⟨_, e₄, _⟩ | ⟨_, _, _, e₄⟩
        · exact evolves_of_rehash ((Heap.Edits.of_evolves hout _).trans (edits_of_growShape e₄)) e
        · obtain ⟨_, _, _, e₄⟩ := lift_bind_eq_ok e₄
          cases e₄
      · rcases tryCatch_eq_ok e₃ with ⟨_, _, hres⟩ | ⟨_, h₄, e₄, e₅⟩
        · cases hres
        · obtain ⟨_, h₅, e₅, e₆⟩ := lift_bind_eq_ok e₅
          obtain ⟨_, rfl⟩ := throw_eq_ok e₆
          exact (hout.trans (evolves_of_growShape_error e₄)).trans
            (HeapM.Tracks.register r _ _ _ e₅)
    · exact evolves_of_rehash (.of_evolves hout _) e

theorem tracks_addProperty (r : Handle) (atom : Atom) (flags : Flags) :
    Tracks 1 (addProperty r atom flags) := by
  refine .bind (.shift (.shape r)) fun s => .get_bind fun h => ?_
  dsimp only
  generalize (if s.isHashed = true then h.sharedTransition? s atom flags else none) = found
  cases found with
  | some next =>
    exact .bind (.shift (.retain next)) fun _ => .bind (.shift (.release r)) fun _ =>
      .bind (.shift (.shape next)) fun _ => .pure _
  | none =>
    refine .get_bind fun h => ?_
    split
    · refine .andThen (n := 1) (m := 0) (.cloneShape r) fun clone => .bind ?_ fun index => ?_
      · exact .tryCatch (tracks_extendShape clone atom flags) fun _ =>
          .bind (.shift (.release clone)) fun _ => .throw _
      · refine .bind (.shift (.release r)) fun _ => ?_
        split
        · refine .bind (.lift (.modifyShape clone fun s => ?_)) fun _ =>
            .bind (.lift (.register clone)) fun _ => .pure _
          exact ⟨Nat.le_refl _, fun _ => ⟨rfl, rfl, rfl⟩⟩
        · exact .pure _
    · exact .bind (tracks_extendShape r atom flags) fun _ => .pure _

/-- A shape taken over for changes has counted one already. -/
theorem edits_of_prepareUpdate (e : (prepareUpdate r).run h = .ok (.ok clone, h')) :
    h.Edits clone.index 1 1 h' := by
  unfold prepareUpdate at e
  rw [get_bind] at e
  split at e
  · rcases bind_eq_ok e with ⟨c, h₁, e₁, e⟩ | ⟨_, _, hres⟩
    · obtain ⟨_, h₂, e₂, e⟩ := lift_bind_eq_ok e
      obtain ⟨_, h₃, e₃, e⟩ := lift_bind_eq_ok e
      obtain ⟨hc, rfl⟩ := pure_eq_ok e
      cases hc
      have hclone := edits_of_cloneShape e₁ 0
      have hbump : h₂.Edits clone.index 1 0 h' := edits_of_modifyShape e₃ fun _ => Nat.le_refl _
      exact (hclone.then_evolves (HeapM.Shifting.release r _ _ _ e₂).evolves).trans hbump
    · cases hres
  · obtain ⟨s, h₁, e₁, e⟩ := lift_bind_eq_ok e
    have hread : h.Evolves 0 h₁ := (HeapM.Shifting.shape r _ _ _ e₁).evolves
    have hlast : ∀ {h₂ : Heap}, h.Evolves 0 h₂ →
        ((liftM (modifyShape r (·.bump)) : AllocM Unit) >>= fun _ => pure r).run h₂ =
          .ok (.ok clone, h') → h.Edits clone.index 1 1 h' := by
      intro h₂ hev e
      obtain ⟨_, h₃, e₃, e⟩ := lift_bind_eq_ok e
      obtain ⟨hc, rfl⟩ := pure_eq_ok e
      cases hc
      have hbump : h₂.Edits r.index 1 0 h' := edits_of_modifyShape e₃ fun _ => Nat.le_refl _
      exact (Heap.Edits.of_evolves (hev.mono (Nat.zero_le 1)) r.index).trans hbump
    dsimp only at e
    split at e
    · obtain ⟨_, h₂, e₂, e⟩ := lift_bind_eq_ok e
      exact hlast (hread.trans (HeapM.Tracks.unregister r _ _ _ e₂)) e
    · exact hlast hread e

theorem tracks_prepareUpdate (r : Handle) : Tracks 1 (prepareUpdate r) := by
  have hbump : ∀ x, Tracks 0 (liftM (modifyShape x (·.bump)) : AllocM Unit) := fun x =>
    .lift (.modifyShape x fun s => .of_lt (Nat.lt_succ_self _))
  refine .get_bind fun h => ?_
  split
  · exact .andThen (n := 1) (m := 0) (.cloneShape r) fun clone => .bind (.shift (.release r)) fun _ =>
      .bind (hbump clone) fun _ => .pure _
  · refine .bind (.shift (.shape r)) fun s => ?_
    dsimp only
    split
    · exact .bind (.lift (.unregister r)) fun _ => .bind (hbump r) fun _ => .pure _
    · exact .bind (hbump r) fun _ => .pure _

/-! ## Objects -/

theorem tracks_newObjectFromShape (shape : Handle) (payload : Payload) :
    Tracks 1 (newObjectFromShape shape payload) :=
  .bind (.shift (.shape shape)) fun _ => .bind (.reserveOr _ _) fun p => .install p _ true

theorem tracks_newObject (proto : Option Handle) : Tracks 2 (newObject proto) :=
  .andThen (.shapeForNewObject proto) fun shape => tracks_newObjectFromShape shape .ordinary

theorem tracks_ownShape (r : Handle) : Tracks 1 (ownShape r) := by
  refine .bind (.shift (.objectShape r)) fun old => .andThen (n := 1) (m := 0) ?_ fun shape =>
    .bind (.shift (.setShape r shape)) fun _ => .pure shape
  exact .tryCatch (tracks_prepareUpdate old) fun _ => .bind (.shift (.setShape r old)) fun _ => .throw _

theorem edits_of_ownShape {shape : Handle} (e : (ownShape r).run h = .ok (.ok shape, h')) :
    h.Edits shape.index 1 1 h' := by
  obtain ⟨old, h₁, e₁, e⟩ := lift_bind_eq_ok e
  have hread : h.Evolves 0 h₁ := (HeapM.Shifting.objectShape r _ _ _ e₁).evolves
  rcases bind_eq_ok e with ⟨new, h₂, e₂, e⟩ | ⟨_, _, hres⟩
  · obtain ⟨_, h₃, e₃, e⟩ := lift_bind_eq_ok e
    obtain ⟨hres, rfl⟩ := pure_eq_ok e
    cases hres
    rcases tryCatch_eq_ok e₂ with ⟨_, e₂, hres⟩ | ⟨_, _, _, e₂⟩
    · cases hres
      have htake := (Heap.Edits.of_evolves hread shape.index).trans (edits_of_prepareUpdate e₂)
      exact htake.then_evolves (HeapM.Shifting.setShape r shape _ _ _ e₃).evolves
    · obtain ⟨_, _, _, e₂⟩ := lift_bind_eq_ok e₂
      cases e₂
  · cases hres

theorem tracks_reserveProperty (r : Handle) : Tracks 0 (reserveProperty r) := by
  refine .bind (.shift (.object r)) fun o => ?_
  dsimp only
  split
  · exact .bind (.of_shifting (.growCell r _ _)) fun _ => .shift (.modifyObject r _)
  · exact .pure ()

theorem tracks_appendProperty (r : Handle) (atom : Atom) (flags : Flags) (p : Property) :
    Tracks 1 (appendProperty r atom flags p) := by
  refine .bind ?_ fun _ => .bind (.shift (.objectShape r)) fun old => .andThen (n := 1) (m := 0) ?_
    fun q => .bind (.shift (.setShape r q.1)) fun _ => .bind (.shift (.modifyObject r _)) fun _ =>
      .bind (.shift (.object r)) fun o => ?_
  · exact .tryCatch (tracks_reserveProperty r) fun _ => .bind (.shift (.releaseProperty p)) fun _ =>
      .throw _
  · exact .tryCatch (tracks_addProperty old atom flags) fun _ =>
      .bind (.shift (.setShape r old)) fun _ => .bind (.shift (.releaseProperty p)) fun _ => .throw _
  · split
    · exact .lift (.fault _)
    · exact .pure ()

/-- New flags are written into a shape that was taken over. -/
theorem tracks_reflag (r : Handle) (p : Property) (index : Nat) (flags : Flags) :
    Tracks 1 (tryCatch (ownShape r) (fun err => do releaseProperty p; throw err) >>= fun shape =>
      liftM (modifyShape shape (·.setFlags index flags)) : AllocM Unit) := by
  intro h res h' e
  rcases bind_eq_ok e with ⟨shape, h₁, e₁, e⟩ | ⟨err, e₁, _⟩
  · rcases tryCatch_eq_ok e₁ with ⟨_, e₁, hres⟩ | ⟨_, _, _, e₁⟩
    · cases hres
      obtain ⟨_, e₂, _⟩ := lift_eq_ok e
      have hflags : h₁.Edits shape.index 0 0 h' := edits_of_modifyShape e₂ fun _ => Nat.le_refl _
      exact ((edits_of_ownShape e₁).trans hflags).evolves (by omega)
    · obtain ⟨_, _, _, e₁⟩ := lift_bind_eq_ok e₁
      cases e₁
  · rcases tryCatch_eq_ok e₁ with ⟨_, _, hres⟩ | ⟨_, h₂, e₂, e₃⟩
    · cases hres
    · obtain ⟨_, h₃, e₃, e₄⟩ := lift_bind_eq_ok e₃
      obtain ⟨_, rfl⟩ := throw_eq_ok e₄
      exact (tracks_ownShape r _ _ _ e₂).trans (HeapM.Shifting.releaseProperty p _ _ _ e₃).evolves

theorem tracks_defineOwn (r : Handle) (atom : Atom) (flags : Flags) (p : Property) :
    Tracks 1 (defineOwn r atom flags p) := by
  refine .bind (.shift (.objectShape r)) fun shape => .get_bind fun h => ?_
  split
  · rename_i index oldFlags _
    have hreplace : Tracks 0 ((do
        let old ← replaceProperty r index p
        releaseProperty old
        return true) : AllocM Bool) :=
      .bind (.shift (.replaceProperty r index p)) fun old =>
        .bind (.shift (.releaseProperty old)) fun _ => .pure true
    dsimp only
    split
    · have hflags := Tracks.andThen (m := 0) (tracks_reflag r p index flags) fun _ => hreplace
      simpa only [bind_assoc] using hflags
    · exact hreplace.mono (Nat.zero_le 1)
  · refine .bind (.shift (.object r)) fun o => ?_
    split
    · exact .andThen (n := 1) (m := 0) (tracks_appendProperty r atom flags p) fun _ => .pure true
    · exact .bind (.shift (.releaseProperty p)) fun _ => .pure false

theorem tracks_defineAccessor (r : Handle) (atom : Atom) (flags : Flags)
    (getter setter : Option Handle) : Tracks 1 (defineAccessor r atom flags getter setter) :=
  .bind (.shift (.retainOption getter)) fun _ => .bind (.shift (.retainOption setter)) fun _ =>
    tracks_defineOwn r atom _ _

theorem tracks_setProperty (r : Handle) (atom : Atom) (v : Value) :
    Tracks 1 (setProperty r atom v) := by
  refine .get_bind fun h => ?_
  split
  · rename_i index flags _
    split
    · exact .bind (.shift (.freeValue v)) fun _ => .pure false
    · split
      · refine .bind (.shift (.object r)) fun o => ?_
        split
        · exact .lift (.fault _)
        · exact .bind (.lift (.setVariable _ v)) fun _ => .pure true
        · exact .lift (.fault _)
      · exact .bind (.shift (.writeSlot r index v)) fun _ => .pure true
  · exact tracks_defineOwn r atom _ _

theorem tracks_compactProperties (r : Handle) : Tracks 1 (compactProperties r) := by
  refine .andThen (n := 1) (m := 0) (tracks_ownShape r) fun shape => .bind (.shift (.shape shape))
    fun s => .bind (.shift (.object r)) fun o => .bind (.of_shifting (.ask _ (.pure ()) _)) fun _ => ?_
  split
  · exact .lift (.fault _)
  · refine .bind (.lift (.modifyShape shape fun s => .of_lt ?_)) fun _ =>
      .bind (.shift (.modifyObject r _)) fun _ => .bind (.shift (.unchargeCell shape _)) fun _ =>
        .shift (.unchargeCell r _)
    exact Nat.lt_succ_self _

theorem tracks_deleteProperty (r : Handle) (atom : Atom) : Tracks 2 (deleteProperty r atom) := by
  refine .get_bind fun h => ?_
  split
  · exact .pure true
  · rename_i index flags _
    split
    · exact .pure false
    · refine .andThen (n := 1) (m := 1) (tracks_ownShape r) fun shape => .bind (.shift (.shape shape))
        fun s => ?_
      have hremove : Tracks 0 (liftM (modifyShape shape (·.remove index)) : AllocM Unit) :=
        .lift (.modifyShape shape fun s => .of_lt (Nat.lt_succ_self _))
      dsimp only
      split
      · exact .fault_bind _ _
      · refine .bind hremove fun _ => .bind (.shift (.shape shape)) fun s =>
          .bind (.shift (.replaceProperty r index _)) fun old =>
            .bind (.shift (.releaseProperty old)) fun _ => ?_
        split
        · exact .andThen (n := 1) (m := 0)
            (.tryCatch (tracks_compactProperties r) fun _ => .pure ()) fun _ => .pure true
        · exact .pure true

/-- A new prototype is written into a shape that was taken over. -/
theorem tracks_setPrototype (r : Handle) (proto : Option Handle) :
    Tracks 1 (setPrototype r proto) := by
  refine .get_bind fun h => ?_
  split
  · exact .pure false
  · refine .bind (.shift (.objectShape r)) fun old => .bind (.shift (.shape old)) fun s => ?_
    split
    · exact .pure true
    · intro h res h' e
      rcases bind_eq_ok e with ⟨shape, h₁, e₁, e⟩ | ⟨_, e₁, _⟩
      · obtain ⟨_, h₂, e₂, e⟩ := lift_bind_eq_ok e
        obtain ⟨s, h₃, e₃, e⟩ := lift_bind_eq_ok e
        obtain ⟨_, h₄, e₄, e⟩ := lift_bind_eq_ok e
        obtain ⟨_, h₅, e₅, e⟩ := lift_bind_eq_ok e
        obtain ⟨_, rfl⟩ := pure_eq_ok e
        have htake := (edits_of_ownShape e₁).then_evolves
          ((HeapM.Shifting.retainOption proto _ _ _ e₂).evolves.trans
            (HeapM.Shifting.shape shape _ _ _ e₃).evolves)
        have hproto : h₃.Edits shape.index 0 0 h₄ := edits_of_modifyShape e₄ fun _ => Nat.le_refl _
        exact ((htake.trans hproto).evolves (by omega)).trans
          (HeapM.Shifting.releaseAll s.proto.toList _ _ _ e₅).evolves
      · exact tracks_ownShape r _ _ _ e₁

/-! ## Arrays, functions, realms and frames -/

theorem tracks_newArray (ctx : Handle) : Tracks 1 (newArray ctx) :=
  .bind (.lift (.read _)) fun x => .bind (.shift (.retain x.arrayShape)) fun _ =>
    .andThen (n := 1) (m := 0) (tracks_newObjectFromShape _ _) fun r =>
      .bind (.shift (.setLength r 0)) fun _ => .pure r

theorem tracks_arrayPush (r : Handle) (v : Value) : Tracks 0 (arrayPush r v) := by
  refine .bind (.shift (.arrayExtent r)) fun p => ?_
  dsimp only
  have hlast (f : Object → Object) : Tracks 0 (do
      modifyObject r f
      setLength r (p.1 + 1) : AllocM Unit) :=
    .bind (.shift (.modifyObject r f)) fun _ => .shift (.setLength r _)
  split
  · refine .bind ?_ fun _ => .bind (.shift (.modifyObject r _)) fun _ => hlast _
    exact .tryCatch (.of_shifting (.growCell r _ _)) fun _ => .bind (.shift (.freeValue v)) fun _ => .throw _
  · exact hlast _

theorem tracks_newBytecode (name : Option Atom) (realm : Option Handle) (pool : Array Value) :
    Tracks 1 (newBytecode name realm pool) :=
  .bind (.reserveOr _ _) fun p => .bind (.shift (.retainOption realm)) fun _ => .install p _ true

theorem tracks_newClosure (proto : Option Handle) (bytecode : Handle) (captured : Array Handle)
    (home : Option Handle) : Tracks 2 (newClosure proto bytecode captured home) := by
  refine .bind (.shift (.retain bytecode)) fun _ => .bind (.shift (.retainOption home)) fun _ => ?_
  refine .andThen (n := 1) (m := 1) ?_ fun shape => tracks_newObjectFromShape shape _
  exact .tryCatch (.shapeForNewObject proto) fun _ => .bind (.shift (.releaseAll _)) fun _ => .throw _

theorem tracks_newSuspension (receiver : Value) (values : Array Value) (resolve reject : Value) :
    Tracks 1 (newSuspension receiver values resolve reject) :=
  .bind (.reserveOr _ _) fun p => .install p _ true

theorem Tracks.guarding {α : Type} {n : Nat} (owned : List Handle) {act : AllocM α}
    (h : Tracks n act) : Tracks n (guarding owned act) :=
  .tryCatch h fun _ => .bind (.shift (.releaseAll _)) fun _ => .throw _

theorem tracks_newRealm : Tracks 11 newRealm :=
  .andThen (n := 2) (tracks_newObject none) fun _ =>
    .andThen (n := 2) (.guarding _ (tracks_newObject _)) fun _ =>
      .andThen (n := 2) (.guarding _ (tracks_newObject _)) fun _ =>
        .andThen (n := 2) (.guarding _ (tracks_newObject _)) fun _ =>
          .andThen (n := 1) (.guarding _ (.shapeForNewObject _)) fun _ =>
            .andThen (n := 1) (.guarding _ (tracks_addProperty _ _ _)) fun _ =>
              .bind (.guarding _ (.reserve _)) fun p => .install p _ true

theorem tracks_pushFrame (locals : Array Value) : Tracks 0 (pushFrame locals) := by
  refine .bind ?_ fun _ => .lift ?_
  · exact .tryCatch (.of_shifting (.reserveFrame _)) fun _ => .bind (.shift (.freeValues locals)) fun _ => .throw _
  · intro h a h' e
    cases e
    exact .of_slots rfl

theorem tracks_captureVariable (id : FrameId) (slot : Nat) :
    Tracks 1 (captureVariable id slot) := by
  refine .get_bind fun h => ?_
  split
  · exact .lift (.fault _)
  · split
    · split
      · exact .bind (.shift (.retain _)) fun _ => .pure _
      · refine .bind (.reserve _) fun p => .get_bind fun h => ?_
        dsimp only
        split
        · exact .fault_bind _ _
        · exact .andThen (n := 1) (m := 0) (.install p _ false) fun r =>
            .bind (.modify fun _ => .of_slots rfl) fun _ => .pure r
    · exact .lift (.fault _)

theorem tracks_newVariable (v : Value) : Tracks 1 (newVariable v) :=
  .bind (.reserveOr _ _) fun p => .install p _ true

end AllocM

/-! ## Calls -/

namespace Call

variable {α : Type} {n : Nat} {h h' : Heap} {reply : Reply}

theorem evolves_of_answer {act : HeapM α} {f : α → Reply} (ht : act.Tracks 0)
    (e : answer act f h = .ok (reply, h')) : h.Evolves 11 h' := by
  obtain ⟨a, ha, _⟩ := answer_eq_ok e
  exact (ht h a h' ha).mono (by decide)

theorem evolves_of_attempt {act : AllocM α} {f : α → Reply} (ht : act.Tracks n) (hn : n ≤ 11)
    (e : attempt act f h = .ok (reply, h')) : h.Evolves 11 h' := by
  rcases attempt_eq_ok e with ⟨a, ha, _⟩ | ⟨err, ha, _⟩
  · exact (ht h _ h' ha).mono hn
  · exact (ht h _ h' ha).mono hn

/-- The heap after any call may come after the heap before it.  The call that gives slots to most cells
makes a realm, and it makes eleven. -/
theorem evolves (call : Call) (e : call.perform h = .ok (reply, h')) : h.Evolves 11 h' := by
  cases call with
  | retain r => exact evolves_of_answer (.of_shifting (.retain r)) e
  | release r => exact evolves_of_answer (.of_shifting (.release r)) e
  | dupValue v => exact evolves_of_answer (.of_shifting (.dupValue v)) e
  | freeValue v => exact evolves_of_answer (.of_shifting (.freeValue v)) e
  | root r => exact evolves_of_answer (.of_shifting (.root r)) e
  | cloneRoot x => exact evolves_of_answer (.of_shifting (.cloneRoot x)) e
  | dropRoot x => exact evolves_of_answer (.of_shifting (.dropRoot x)) e
  | flushRoots => exact evolves_of_answer (.of_shifting .flushRoots) e
  | collect => exact evolves_of_answer (.of_shifting .collect) e
  | setMemoryLimit limit =>
    exact evolves_of_answer (.modify (f := fun h => h.setMemoryLimit limit) fun _ => .of_slots rfl) e
  | setThreshold n =>
    exact evolves_of_answer (.modify (f := fun h => h.setThreshold n) fun _ => .of_slots rfl) e
  | setRefused requests =>
    exact evolves_of_answer (.modify (f := fun h => h.setRefused requests) fun _ => .of_slots rfl) e
  | shapeForNewObject proto => exact evolves_of_attempt (.shapeForNewObject proto) (by decide) e
  | addProperty shape atom flags =>
    exact evolves_of_attempt (AllocM.tracks_addProperty shape atom flags) (by decide) e
  | prepareUpdate shape => exact evolves_of_attempt (AllocM.tracks_prepareUpdate shape) (by decide) e
  | newObject proto => exact evolves_of_attempt (AllocM.tracks_newObject proto) (by decide) e
  | newObjectFromShape shape payload =>
    exact evolves_of_attempt (AllocM.tracks_newObjectFromShape shape payload) (by decide) e
  | getProperty r atom => exact evolves_of_answer (.of_shifting (.getProperty r atom)) e
  | readSlot r offset => exact evolves_of_answer (.of_shifting (.readSlot r offset)) e
  | writeSlot r offset v => exact evolves_of_answer (.of_shifting (.writeSlot r offset v)) e
  | defineProperty r atom flags v => exact evolves_of_attempt (AllocM.tracks_defineOwn r atom _ _) (by decide) e
  | defineAccessor r atom flags getter setter =>
    exact evolves_of_attempt (AllocM.tracks_defineAccessor r atom flags getter setter) (by decide) e
  | defineCaptured r atom flags x => exact evolves_of_attempt (AllocM.tracks_defineOwn r atom _ _) (by decide) e
  | setProperty r atom v => exact evolves_of_attempt (AllocM.tracks_setProperty r atom v) (by decide) e
  | deleteProperty r atom => exact evolves_of_attempt (AllocM.tracks_deleteProperty r atom) (by decide) e
  | compactProperties r => exact evolves_of_attempt (AllocM.tracks_compactProperties r) (by decide) e
  | setPrototype r proto => exact evolves_of_attempt (AllocM.tracks_setPrototype r proto) (by decide) e
  | preventExtensions r => exact evolves_of_answer (.of_shifting (.preventExtensions r)) e
  | newArray ctx => exact evolves_of_attempt (AllocM.tracks_newArray ctx) (by decide) e
  | arrayPush r v => exact evolves_of_attempt (AllocM.tracks_arrayPush r v) (by decide) e
  | newBytecode name realm pool =>
    exact evolves_of_attempt (AllocM.tracks_newBytecode name realm pool) (by decide) e
  | newClosure proto bytecode captured home =>
    exact evolves_of_attempt (AllocM.tracks_newClosure proto bytecode captured home) (by decide) e
  | newSuspension receiver values resolve reject =>
    exact evolves_of_attempt (AllocM.tracks_newSuspension receiver values resolve reject) (by decide) e
  | finishSuspension r => exact evolves_of_answer (.of_shifting (.finishSuspension r)) e
  | newRealm => exact evolves_of_attempt AllocM.tracks_newRealm (by decide) e
  | pushFrame locals => exact evolves_of_attempt (AllocM.tracks_pushFrame locals) (by decide) e
  | getLocal id slot => exact evolves_of_answer (.of_shifting (.getLocal id slot)) e
  | setLocal id slot v => exact evolves_of_answer (.setLocal id slot v) e
  | captureVariable id slot => exact evolves_of_attempt (AllocM.tracks_captureVariable id slot) (by decide) e
  | popFrame id => exact evolves_of_answer (.popFrame id) e
  | newVariable v => exact evolves_of_attempt (AllocM.tracks_newVariable v) (by decide) e
  | getVariable r => exact evolves_of_answer (.of_shifting (.getVariable r)) e
  | setVariable r v => exact evolves_of_answer (.setVariable r v) e

end Call

end ObjectMemory
