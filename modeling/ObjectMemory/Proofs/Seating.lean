import ObjectMemory.Proofs.Turns
set_option autoImplicit false

/-!
# Faults of variables and frames

Four faults say that a variable and its frame do not know each other (`Fault.isDangling`).  None of them
comes about where attached variables are seated (`Heap.Seated`), whatever handles an operation is given
and whatever it frees or collects on the way: a variable that is freed finds its frame.

Every action is followed for this.  It *seats* if it takes a seated heap to a seated heap or fails for
another reason (`HeapM.Seats`, `AllocM.Seats`).  Only an assignment to a local may be given a frame that is
gone.
-/

namespace ObjectMemory

/-- A variable is attached to a frame that is gone, or a frame lists a variable that is not attached. -/
def Fault.isDangling : Fault → Bool
  | frameDead _ | openVariableStale _ _ | openVariableDetached _ _ | variableOfDeadFrame _ _ => true
  | _ => false

/-- A result of which `R` holds, or a fault that is not about a variable and its frame. -/
abbrev Intact {α : Type} (R : α → Prop) (x : Except Fault α) : Prop := Yields Fault.isDangling R x

namespace Heap

variable {h h' : Heap} {i : Nat} {r : Handle} {id : FrameId}

/-- Attached variables keep their locals where nothing happens to variables and frames. -/
theorem Undisturbed.seated (e : Undisturbed h h') (hs : h.Seated) : h'.Seated := by
  refine ⟨fun r id slot hr => ?_, fun r q id slot hr hq =>
    hs.single r q id slot (e.captured r _ hr) (e.captured q _ hq)⟩
  rw [e.locals? id]
  exact hs.inside r id slot (e.captured r _ hr)

theorem Shifts.seated (e : Shifts h h') (hs : h.Seated) : h'.Seated :=
  (Moves.undisturbed (E := fun _ => False) e.moves).seated hs

/-- The frame of a seated variable is there. -/
theorem Seated.frame {slot : Nat} (hs : h.Seated) (hr : h.captured? r = some (.attached id slot)) :
    ∃ f, h.frames.get? id = some f ∧ slot < f.locals.size := by
  obtain ⟨locals, hl, hlt⟩ := hs.inside r id slot hr
  obtain ⟨f, hf, rfl⟩ := Option.map_eq_some_iff.mp hl
  exact ⟨f, hf, hlt⟩

/-! ## Freeing -/

theorem intact_cellAt (h : Heap) (i : Nat) : Intact (fun _ => True) (h.cellAt i) := by
  unfold cellAt
  split
  · rfl
  · split
    · rfl
    · trivial

theorem intact_free (hs : h.Seated) (i : Nat) : Intact Seated (h.free i) := by
  cases hfree : h.free i with
  | ok h' => exact (Shifts.free hfree).seated hs
  | error err =>
    unfold free at hfree
    split at hfree
    · rename_i hcell
      cases hfree
      exact (intact_cellAt h i).of_error hcell
    · split at hfree
      · cases hfree
        rfl
      · cases hfree

/-- A variable that is freed finds its frame. -/
theorem Seated.intact_freeNow {body : Body} (hs : h.Seated) (hb : h.body? r = some body) :
    Intact Seated (h.freeNow r body) := by
  cases hfree : h.freeNow r body with
  | ok h' => exact (Shifts.freeNow hfree).seated hs
  | error err =>
    unfold freeNow at hfree
    split at hfree
    · rename_i s
      split at hfree
      · rename_i h₁ hforget
        exact (intact_free ((Shifts.forgetShape hforget).seated hs) r.index).of_error hfree
      · rename_i hforget
        cases hfree
        unfold forgetShape at hforget
        split at hforget
        · split at hforget
          · cases hforget
          · cases hforget
            rfl
        · cases hforget
    · rename_i v
      split at hfree
      · rename_i h₁ hgone
        unfold forgetVariable at hfree
        split at hfree
        · cases hfree
        · rename_i id slot
          obtain ⟨f, hf, _⟩ := hs.frame (captured?_iff_body?.mpr hb)
          obtain ⟨_, _, _, _, heq⟩ := free_eq_ok_iff.mp hgone
          have hframe : h₁.frames.get? id = some f := by
            rw [heq]
            exact hf
          rw [hframe] at hfree
          cases hfree
      · rename_i hgone
        cases hfree
        exact (intact_free hs r.index).of_error hgone
    · exact (intact_free hs r.index).of_error hfree
    · exact (intact_free hs r.index).of_error hfree
    all_goals
      cases hfree
      rfl

theorem Seated.intact_step (hs : h.Seated) (task : Task) (rest : List Task) :
    Intact (fun st => st.1.Seated) (h.step task rest) := by
  cases hstep : h.step task rest with
  | ok st => exact (Shifts.step hstep).seated hs
  | error err =>
    cases task with
    | release r =>
      replace hstep : h.stepRelease r rest = .error err := hstep
      unfold stepRelease at hstep
      split at hstep
      · cases hstep
        rfl
      · rename_i c hc
        split at hstep
        · cases hstep
          rfl
        · dsimp only at hstep
          split at hstep
          · cases hstep
          · split at hstep
            · cases hstep
            · split at hstep
              · cases hstep
              · rename_i hfree
                cases hstep
                have hset := (Shifts.setRefCount h r.index (c.refCount - 1)).seated hs
                have hu := Updates.setRefCount hc (c.refCount - 1)
                exact (hset.intact_freeNow hu.body_self).of_error hfree
    | finalize i =>
      replace hstep : h.stepFinalize i rest = .error err := hstep
      unfold stepFinalize at hstep
      split at hstep
      · rename_i hcell
        cases hstep
        exact (intact_cellAt h i).of_error hcell
      · split at hstep
        · cases hstep
          rfl
        · split at hstep
          · cases hstep
          · cases hstep
            rfl
    | dispose i =>
      replace hstep : h.stepDispose i rest = .error err := hstep
      unfold stepDispose at hstep
      split at hstep
      · rename_i hcell
        cases hstep
        exact (intact_cellAt h i).of_error hcell
      · split at hstep
        · cases hstep
        · split at hstep
          · cases hstep
          · rename_i hfree
            cases hstep
            exact (intact_free hs i).of_error hfree
    | drain =>
      replace hstep : h.stepDrain rest = .error err := hstep
      unfold stepDrain at hstep
      split at hstep
      · cases hstep
      · rename_i i q _
        split at hstep
        · rename_i hcell
          cases hstep
          exact (intact_cellAt h i).of_error hcell
        · split at hstep
          · cases hstep
            rfl
          · cases hstep

theorem Seated.intact_run (hs : h.Seated) (tasks : List Task) : Intact Seated (h.run tasks) := by
  fun_induction Heap.run h tasks with
  | case1 h => exact hs
  | case2 h task rest err he => exact (hs.intact_step task rest).of_error he
  | case3 h task rest h₁ tasks he ih => exact ih ((hs.intact_step task rest).of_ok he)

/-! ## Collecting -/

theorem intact_childrenAt (h : Heap) (i : Nat) : Intact (fun _ => True) (h.childrenAt i) := by
  unfold childrenAt
  split
  · trivial
  · rename_i hcell
    exact (intact_cellAt h i).of_error hcell

theorem intact_trialEdge (st : Heap × List Nat) (child : Nat) :
    Intact (fun _ => True) (trialEdge st child) := by
  unfold trialEdge
  dsimp only
  split
  · rename_i hcell
    exact (intact_cellAt _ _).of_error hcell
  · split
    · rfl
    · split
      · trivial
      · trivial

theorem intact_trialCell (st : Heap × List Nat) (i : Nat) : Intact (fun _ => True) (trialCell st i) := by
  refine (intact_childrenAt st.1 i).bind fun children _ _ => ?_
  refine (Yields.foldlM (P := fun _ => True) (fun st child _ => intact_trialEdge st child) children
    trivial).bind fun st₁ _ _ => ?_
  refine (intact_cellAt st₁.1 i).bind fun c _ _ => ?_
  split
  · trivial
  · trivial

theorem intact_trialDeletion (h : Heap) : Intact (fun _ => True) h.trialDeletion :=
  (Yields.foldlM (P := fun _ => True) (fun st i _ => intact_trialCell st i) h.liveOrder trivial).bind
    fun _ _ _ => trivial

theorem intact_rescueEdge (st : Heap × List Nat) (child : Nat) :
    Intact (fun _ => True) (rescueEdge st child) := by
  unfold rescueEdge
  dsimp only
  split
  · rename_i hcell
    exact (intact_cellAt _ _).of_error hcell
  · split
    · trivial
    · trivial

theorem intact_rescueCell (st : Heap × List Nat) (i : Nat) : Intact (fun _ => True) (rescueCell st i) := by
  unfold rescueCell
  dsimp only
  split
  · exact Yields.foldlM (fun st child _ => intact_rescueEdge st child) _ trivial
  · rename_i hchildren
    exact (intact_childrenAt _ i).of_error hchildren

theorem intact_rescue (h : Heap) (cells : List Nat) : Intact (fun _ => True) (h.rescue cells) := by
  have hround : ∀ (h : Heap) (cells : List Nat), Intact (fun _ => True) (cells.foldlM rescueCell (h, [])) :=
    fun _ cells => Yields.foldlM (fun st i _ => intact_rescueCell st i) cells trivial
  fun_induction Heap.rescue h cells with
  | case1 h cells err he => exact (hround h cells).of_error he
  | case2 h cells h₁ he => trivial
  | case3 h cells h₁ j saved he ih => exact ih

theorem intact_restoreCell (h : Heap) (i : Nat) : Intact (fun _ => True) (h.restoreCell i) := by
  refine (intact_childrenAt h i).bind fun children _ _ => Yields.foldlM (fun h child _ => ?_) children trivial
  unfold restoreEdge
  split
  · trivial
  · rename_i hcell
    exact (intact_cellAt h child).of_error hcell

theorem Seated.intact_removeCell (hs : h.Seated) (i : Nat) : Intact Seated (h.removeCell i) := by
  cases hremove : h.removeCell i with
  | ok h' => exact (Shifts.removeCell hremove).seated hs
  | error err =>
    unfold removeCell at hremove
    split at hremove
    · split at hremove
      · rename_i hcell
        cases hremove
        exact (intact_cellAt h i).of_error hcell
      · split at hremove
        · split at hremove
          · cases hremove
          · rename_i hrun
            cases hremove
            exact (hs.intact_run _).of_error hrun
        · cases hremove
    · cases hremove

theorem Seated.intact_sweepCell (hs : h.Seated) (i : Nat) : Intact Seated (h.sweepCell i) := by
  unfold sweepCell
  split
  · split
    · rename_i hcell
      exact (intact_cellAt h i).of_error hcell
    · split
      · exact intact_free hs i
      · rfl
  · exact hs

theorem Seated.aside (hs : h.Seated) (hslots : h'.slots = h.slots) (hfree : h'.freeSlots = h.freeSlots)
    (hframes : h'.frames = h.frames) (hlists : h'.lists = h.lists)
    (htickets : h'.nextTicket = h.nextTicket) : h'.Seated :=
  (Shifts.aside hslots hfree hframes hlists htickets).seated hs

theorem Seated.intact_removeGarbage (hs : h.Seated) (garbage : List Nat) :
    Intact Seated (h.removeGarbage garbage) := by
  have hbegin : Seated { h with phase := .removingCycles } := hs.aside rfl rfl rfl rfl rfl
  refine (Yields.foldlM (fun h i hs => hs.intact_removeCell i) garbage hbegin).bind fun h₁ _ hs₁ => ?_
  have hend : Seated { h₁ with phase := .idle } := hs₁.aside rfl rfl rfl rfl rfl
  exact Yields.foldlM (fun h i hs => hs.intact_sweepCell i) garbage hend

theorem Seated.intact_collectCycles (hs : h.Seated) : Intact Seated h.collectCycles := by
  refine (intact_trialDeletion h).bind fun st e₁ _ =>
    (intact_rescue st.1 st.1.liveOrder).bind fun h₂ e₂ _ => ?_
  have hs₂ : h₂.Seated := ((Shifts.trialDeletion e₁).trans (Shifts.rescue e₂)).seated hs
  dsimp only
  refine (Yields.foldlM (P := fun _ => True) (fun h i _ => intact_restoreCell h i) _ trivial).bind
    fun h₃ e₃ _ => ?_
  have hs₃ : h₃.Seated := (Shifts.foldlM id (fun _ _ _ => Shifts.restoreCell) e₃).seated hs₂
  exact (hs₃.intact_removeGarbage _).bind fun h₄ _ hs₄ => hs₄.aside rfl rfl rfl rfl rfl

/-- A cell that is no variable may be made. -/
theorem Undisturbed.of_putCell {p : Reservation} {body : Body} {listed : Bool}
    (e : h.putCell p body listed = .ok (r, h')) (hb : body.kind ≠ .captured) : Undisturbed h h' := by
  obtain ⟨_, _, _, _, hfrees, htenant⟩ := putCell_eq_ok e
  refine .of_bodies (fun id => by rw [(putCell_rest e).1.frames]) fun i v hv => ⟨?_, hfrees i⟩
  rw [bodyAt?, htenant] at hv
  split at hv
  · cases hv
    exact absurd rfl hb
  · exact hv

end Heap

/-! ## Actions -/

namespace HeapM

variable {α β : Type} {h : Heap}

/-- Where attached variables are seated the action ends with them seated, or fails for another reason. -/
def Seats (act : HeapM α) : Prop := ∀ h : Heap, h.Seated → Intact (fun p => p.2.Seated) (act h)

namespace Seats

theorem pure (a : α) : Seats (pure a : HeapM α) := fun _ hs => hs

theorem bind {x : HeapM α} {f : α → HeapM β} (hx : Seats x) (hf : ∀ a, Seats (f a)) : Seats (x >>= f) := by
  intro h hs
  rw [bind_apply]
  split
  · rename_i a h₁ e
    exact hf a h₁ ((hx h hs).of_ok e)
  · rename_i e
    exact (hx h hs).of_error e

theorem get_bind {f : Heap → HeapM β} (hf : ∀ h, Seats (f h)) : Seats ((get : HeapM Heap) >>= f) :=
  fun h hs => hf h h hs

theorem read {f : Heap → Except Fault α} (hf : ∀ h : Heap, h.Seated → Intact (fun _ => True) (f h)) :
    Seats (read f) := by
  intro h hs
  unfold HeapM.read
  split
  · exact hs
  · rename_i e
    exact (hf h hs).of_error e

theorem fault {cause : Fault} (hcause : cause.isDangling = false) : Seats (fault cause : HeapM α) :=
  fun _ _ => hcause

theorem modify {f : Heap → Heap} (hf : ∀ h : Heap, h.Shifts (f h)) : Seats (modify f : HeapM Unit) :=
  fun h hs => (hf h).seated hs

theorem change {f : Heap → Except Fault Heap} (hf : ∀ h : Heap, h.Seated → Intact Heap.Seated (f h)) :
    Seats (change f) := by
  intro h hs
  unfold HeapM.change
  split
  · rename_i e
    exact (hf h hs).of_ok e
  · rename_i e
    exact (hf h hs).of_error e

/-- An action that leaves variables and frames, and fails for other reasons. -/
theorem of_undisturbed {act : HeapM α} (hok : ∀ h a h', act h = .ok (a, h') → h.Undisturbed h')
    (herror : ∀ h err, act h = .error err → err.isDangling = false) : Seats act := by
  intro h hs
  cases e : act h with
  | ok p => exact (hok h p.1 p.2 e).seated hs
  | error err => exact herror h err e

theorem of_shifting {act : HeapM α} (hok : act.Shifting)
    (herror : ∀ h err, act h = .error err → err.isDangling = false) : Seats act :=
  .of_undisturbed (fun h a h' e => (hok h a h' e).undisturbed) herror

/-! ### References -/

theorem retain (r : Handle) : Seats (retain r) := by
  refine .of_shifting (.retain r) fun h err e => ?_
  unfold HeapM.retain at e
  split at e
  · cases e
  · cases e
    rfl

theorem retainOption (r : Option Handle) : Seats (retainOption r) := by
  cases r with
  | none => exact .pure ()
  | some r => exact .retain r

theorem release (r : Handle) : Seats (release r) := .change fun _ hs => hs.intact_run _

theorem releaseAll (rs : List Handle) : Seats (releaseAll rs) := by
  induction rs with
  | nil => exact .pure ()
  | cons r rest ih => exact .bind (.release r) fun _ => ih

theorem dupValue (v : Value) : Seats (dupValue v) := .bind (.retainOption v.ref?) fun _ => .pure v

theorem freeValue (v : Value) : Seats (freeValue v) := .releaseAll _

theorem freeValues (vs : Array Value) : Seats (freeValues vs) := .releaseAll _

theorem flushRoots : Seats flushRoots :=
  .get_bind fun _ => .bind (.modify fun _ => .aside rfl rfl rfl rfl rfl) fun _ => .releaseAll _

theorem collect : Seats collect := by
  refine .get_bind fun h => ?_
  split
  · exact .pure 0
  · refine .bind .flushRoots fun _ => .get_bind fun _ => ?_
    exact .bind (.change fun _ hs => hs.intact_collectCycles) fun _ => .get_bind fun _ => .pure _

theorem root (r : Handle) : Seats (root r) := by
  refine .get_bind fun h => ?_
  split
  · exact .pure _
  · exact .fault rfl

theorem cloneRoot (x : Root) : Seats (cloneRoot x) := .bind (.retain _) fun _ => .root _

theorem dropRoot (x : Root) : Seats (dropRoot x) := .modify fun _ => .aside rfl rfl rfl rfl rfl

/-! ### Accounts, shapes and objects -/

theorem uncharge (n : Nat) : Seats (uncharge n) := by
  refine .of_shifting (.uncharge n) fun h err e => ?_
  unfold HeapM.uncharge at e
  split at e
  · cases e
    rfl
  · cases e

theorem unchargeCell (r : Handle) (n : Nat) : Seats (unchargeCell r n) := by
  refine .bind (.uncharge n) fun _ => .bind (.read fun h _ => h.intact_cellAt r.index) fun c => ?_
  split
  · exact .fault rfl
  · exact .modify fun h => .touch h r.index (fun _ => rfl) fun _ => rfl

theorem collectIfDue : Seats collectIfDue := by
  refine .get_bind fun h => ?_
  split
  · exact .bind .collect fun _ => .modify fun _ => .aside rfl rfl rfl rfl rfl
  · exact .pure ()

theorem shape (r : Handle) : Seats (shape r) := by
  refine .read fun h _ => ?_
  split
  · trivial
  · rfl

theorem modifyShape (r : Handle) (f : Shape → Shape) : Seats (modifyShape r f) := by
  refine .of_undisturbed (fun h a h' e => ?_) fun h err e => ?_
  · exact (HeapM.Drifts.modifyShape (T := fun _ => True) trivial h a h' e).undisturbed
  · unfold HeapM.modifyShape at e
    split at e
    · cases e
    · cases e
      rfl

theorem register (r : Handle) : Seats (register r) := by
  refine .of_undisturbed (fun h a h' e => ?_) fun h err e => ?_
  · exact (HeapM.Drifts.register (T := fun _ => True) trivial h a h' e).undisturbed
  · unfold HeapM.register at e
    split at e
    · cases e
      rfl
    · split at e
      · cases e
        rfl
      · cases e

theorem unregister (r : Handle) : Seats (unregister r) := by
  refine .of_undisturbed (fun h a h' e => ?_) fun h err e => ?_
  · exact (HeapM.Drifts.unregister (T := fun _ => True) trivial h a h' e).undisturbed
  · unfold HeapM.unregister at e
    split at e
    · cases e
      rfl
    · split at e
      · split at e
        · cases e
        · cases e
          rfl
      · cases e
        rfl

theorem object (r : Handle) : Seats (object r) := by
  refine .read fun h _ => ?_
  split
  · trivial
  · rfl

theorem objectShape (r : Handle) : Seats (objectShape r) := by
  refine .read fun h _ => ?_
  split
  · trivial
  · rfl

theorem modifyObject (r : Handle) (f : Object → Object) : Seats (modifyObject r f) := by
  refine .of_shifting (.modifyObject r f) fun h err e => ?_
  unfold HeapM.modifyObject at e
  split at e
  · cases e
  · cases e
    rfl

theorem setShape (r shape : Handle) : Seats (setShape r shape) := .modifyObject r _

theorem replaceProperty (r : Handle) (i : Nat) (p : Property) : Seats (replaceProperty r i p) := by
  refine .bind (.object r) fun o => ?_
  split
  · exact .fault rfl
  · exact .bind (.modifyObject r _) fun _ => .pure _

theorem releaseProperty (p : Property) : Seats (releaseProperty p) := .releaseAll _

theorem install_error {p : Reservation} {body : Body} {listed : Bool} {err : Fault}
    (e : HeapM.install p body listed h = .error err) : err.isDangling = false := by
  unfold HeapM.install Heap.putCell at e
  cases hslot : h.slots[p.index]? with
  | none =>
    rw [hslot] at e
    cases e
    rfl
  | some s =>
    rw [hslot] at e
    dsimp only at e
    split at e
    · cases e
      rfl
    · cases e

/-- A cell that is no variable is made. -/
theorem install (p : Reservation) {body : Body} (listed : Bool) (hb : body.kind ≠ .captured) :
    Seats (install p body listed) := by
  refine .of_undisturbed (fun h a h' e => .of_putCell e hb) fun h err e => ?_
  exact install_error e

/-! ### Reading and writing -/

/-- An attached variable has the value of its local. -/
theorem getVariable (r : Handle) : Seats (getVariable r) := by
  refine .bind (.read fun h hs => ?_) fun v => .dupValue v
  unfold Heap.variableValue
  split
  · trivial
  · rename_i hr
    obtain ⟨f, hf, _⟩ := hs.frame hr
    rw [hf]
    dsimp only
    split
    · trivial
    · rfl
  · rfl

/-- An assignment to a local fails for a frame only if that frame is gone. -/
theorem setLocal_error {id : FrameId} {slot : Nat} {v : Value} {err : Fault} (hs : h.Seated)
    (e : HeapM.setLocal id slot v h = .error err) (herr : err.isDangling = true) :
    err = .frameDead id ∧ h.frames.get? id = none := by
  unfold HeapM.setLocal at e
  rw [HeapM.get_bind] at e
  cases hf : h.frames.get? id with
  | none =>
    rw [hf] at e
    cases e
    exact ⟨rfl, rfl⟩
  | some f =>
    rw [hf] at e
    dsimp only at e
    cases hold : f.locals[slot]? with
    | none =>
      rw [hold] at e
      cases e
      cases herr
    | some old =>
      rw [hold] at e
      have hput := (Heap.turns_of_putLocal (T := fun _ => False) hf hold v).seated hs
      rw [(Seats.freeValue old _ hput).of_error e] at herr
      cases herr

theorem setVariable (r : Handle) (v : Value) : Seats (setVariable r v) := by
  intro h hs
  cases e : HeapM.setVariable r v h with
  | ok p => exact (Heap.turns_of_setVariable (T := fun _ => False) e).seated hs
  | error err =>
    unfold HeapM.setVariable at e
    rw [HeapM.get_bind] at e
    cases hv : h.captured? r with
    | none =>
      rw [hv] at e
      cases e
      rfl
    | some w =>
      rw [hv] at e
      cases w with
      | attached id slot =>
        obtain ⟨f, hf, _⟩ := hs.frame hv
        by_contra hnot
        obtain ⟨_, hgone⟩ := setLocal_error hs e (Bool.eq_true_of_not_eq_false hnot)
        rw [hf] at hgone
        cases hgone
      | detached old =>
        have hput := (Heap.turns_of_putVariable (T := fun _ => False) hv v).seated hs
        exact (Seats.freeValue old _ hput).of_error e

theorem readSlot (r : Handle) (offset : Nat) : Seats (readSlot r offset) := by
  refine .get_bind fun h => ?_
  split
  · exact .pure _
  · split
    · exact .bind (.dupValue _) fun _ => .pure _
    · exact .bind (.getVariable _) fun _ => .pure _
    · exact .pure _
    · exact .pure _

theorem writeSlot (r : Handle) (offset : Nat) (v : Value) : Seats (writeSlot r offset v) := by
  refine .bind (.object r) fun o => ?_
  split
  · exact .fault rfl
  · exact .bind (.modifyObject r _) fun _ => .freeValue _
  · exact .fault rfl

theorem getProperty (r : Handle) (atom : Atom) : Seats (getProperty r atom) := by
  refine .get_bind fun h => ?_
  split
  · exact .bind (.readSlot _ _) fun _ => .pure _
  · exact .pure _

theorem preventExtensions (r : Handle) : Seats (preventExtensions r) := .modifyObject r _

theorem setLength (r : Handle) (n : Nat) : Seats (setLength r n) := by
  refine .bind (.objectShape r) fun shape => .get_bind fun h => ?_
  split
  · exact .pure ()
  · refine .bind (.object r) fun o => ?_
    split
    · exact .modifyObject r _
    · exact .fault rfl

theorem arrayExtent (r : Handle) : Seats (arrayExtent r) := by
  refine .bind (.object r) fun o => ?_
  split
  · exact .pure _
  · exact .fault rfl

theorem realm (r : Handle) : Seats (realm r) := by
  refine .read fun h _ => ?_
  split
  · trivial
  · rfl

theorem finishSuspension (r : Handle) : Seats (finishSuspension r) := by
  intro h hs
  cases e : HeapM.finishSuspension r h with
  | ok p => exact (Shifting.finishSuspension r h _ _ e).undisturbed.seated hs
  | error err =>
    unfold HeapM.finishSuspension at e
    rw [HeapM.get_bind] at e
    cases hr : h.suspension? r with
    | none =>
      rw [hr] at e
      cases e
      rfl
    | some s =>
      rw [hr] at e
      dsimp only at e
      split at e
      · have hgive : Seats (do HeapM.freeValue s.receiver; HeapM.freeValues s.values) :=
          .bind (.freeValue _) fun _ => .freeValues _
        refine (hgive _ (Heap.Shifts.seated (.single (.rewrite h r.index fun c hc => .inr ?_)) hs)).of_error e
        obtain ⟨d, hd, hb⟩ := Heap.suspension?_eq_some_iff.mp hr
        rw [Heap.tenant?_of_cell? hd] at hc
        cases hc
        rw [hb]
        exact ⟨rfl, rfl⟩
      · cases e

theorem getLocal (id : FrameId) (slot : Nat) : Seats (getLocal id slot) := by
  refine .get_bind fun h => ?_
  split
  · exact .pure _
  · exact .bind (.dupValue _) fun _ => .pure _

theorem getRecording (c : InlineCache) (r : Handle) (atom : Atom) : Seats (getRecording c r atom) := by
  refine .get_bind fun h => ?_
  split
  · exact .pure _
  · exact .bind (.readSlot _ _) fun _ => .pure _

theorem getCached (c : InlineCache) (r : Handle) (atom : Atom) : Seats (getCached c r atom) := by
  refine .get_bind fun h => ?_
  split
  split
  · exact .getRecording _ r atom
  · refine .bind (.readSlot _ _) fun v => ?_
    split
    · exact .pure _
    · exact .getRecording _ r atom

end Seats

end HeapM

namespace AllocM

variable {α β : Type} {h : Heap}

/-- Where attached variables are seated the action ends with them seated, also if memory runs out, or fails
for another reason. -/
def Seats (act : AllocM α) : Prop := HeapM.Seats act.run

namespace Seats

theorem pure (a : α) : Seats (pure a : AllocM α) := HeapM.Seats.pure (Except.ok a)

theorem throw (err : OutOfMemory) : Seats (throw err : AllocM α) := HeapM.Seats.pure (Except.error err)

theorem bind {x : AllocM α} {f : α → AllocM β} (hx : Seats x) (hf : ∀ a, Seats (f a)) : Seats (x >>= f) := by
  refine HeapM.Seats.bind (x := x.run) hx fun res => ?_
  cases res with
  | ok a => exact hf a
  | error err => exact HeapM.Seats.pure _

theorem get_bind {f : Heap → AllocM β} (hf : ∀ h, Seats (f h)) : Seats ((get : AllocM Heap) >>= f) :=
  fun h hs => hf h h hs

theorem lift {x : HeapM α} (hx : x.Seats) : Seats (liftM x : AllocM α) := by
  intro h hs
  rw [lift_apply]
  cases e : x h with
  | ok p => exact (hx h hs).of_ok e
  | error err => exact (hx h hs).of_error e

theorem fault {cause : Fault} (hcause : cause.isDangling = false) :
    Seats (liftM (HeapM.fault cause : HeapM α) : AllocM α) := .lift (.fault hcause)

theorem fault_bind {cause : Fault} (hcause : cause.isDangling = false) (f : α → AllocM β) :
    Seats ((liftM (HeapM.fault cause : HeapM α) : AllocM α) >>= f) := fun _ _ => hcause

theorem tryCatch {x : AllocM α} {c : OutOfMemory → AllocM α} (hx : Seats x) (hc : ∀ err, Seats (c err)) :
    Seats (tryCatch x c) := by
  simp only [MonadExcept.tryCatch, tryCatchThe, MonadExceptOf.tryCatch, ExceptT.tryCatch]
  refine HeapM.Seats.bind (x := x.run) hx fun res => ?_
  cases res with
  | ok a => exact HeapM.Seats.pure _
  | error err => exact hc err

/-! ### Cells and shapes -/

theorem charge (n : Nat) : Seats (charge n) := by
  refine HeapM.Seats.of_shifting (Shifting.charge n) fun h err e => ?_
  rw [Heap.charge_run] at e
  split at e
  · cases e
  · cases e

theorem ask (requests : List Request) {undo : HeapM Unit} (hundo : undo.Seats) (failure : OutOfMemory) :
    Seats (ask requests undo failure) := by
  refine .get_bind fun h => ?_
  split
  · exact .bind (.lift hundo) fun _ => .throw _
  · exact .pure _

theorem growCell (r : Handle) (n : Nat) (arrays : List Request) : Seats (growCell r n arrays) := by
  refine .bind (.bind (.charge n) fun _ => .lift (.modify fun h => ?_)) fun _ => .ask _ (.unchargeCell r n) _
  exact .touch h r.index (fun _ => rfl) fun _ => rfl

theorem reserveFrame (n : Nat) : Seats (reserveFrame n) :=
  .bind (.charge n) fun _ => .get_bind fun _ => .ask _ (.uncharge n) _

theorem claimSlot (size : Nat) (arrays : Nat → List Request) (failure : OutOfMemory) :
    Seats (claimSlot size arrays failure) := by
  intro h hs
  obtain ⟨p, h', -, -, htake, hrun⟩ | ⟨err, h', hsame, hrun⟩ | ⟨-, hrun⟩ :=
    Heap.claimSlot_cases size arrays failure h
  · have hsame : Heap.SameCells { h with used := h.used + size } h' := .takeSlot htake
    have hd : h.Undisturbed h' := by
      refine ⟨fun r v hv => ?_, fun id => by rw [Heap.takeSlot_rest htake]⟩
      rw [Heap.captured?_iff_body?, hsame.body?] at hv
      exact Heap.captured?_iff_body?.mpr hv
    exact hrun ▸ hd.seated hs
  · have hshifts : h.Shifts h' := by
      obtain rfl | rfl := hsame
      · exact .refl _
      · exact .single (.widen h)
    exact hrun ▸ hshifts.seated hs
  · exact hrun ▸ rfl

theorem reserve (size : Nat) {arrays : Nat → List Request} {failure : OutOfMemory} :
    Seats (reserve size arrays failure) :=
  .bind (.lift .flushRoots) fun _ => .bind (.lift .collectIfDue) fun _ => .claimSlot size arrays failure

theorem reserveOr (size : Nat) (owned : List Handle) {arrays : Nat → List Request} :
    Seats (reserveOr size owned arrays) :=
  .tryCatch (.reserve size) fun _ => .bind (.lift (.releaseAll owned)) fun _ => .throw _

theorem newShape (proto : Option Handle) : Seats (newShape proto) :=
  .bind (.reserve _) fun p => .bind (.lift (.retainOption proto)) fun _ =>
    .bind (.lift (.install p true nofun)) fun r => .bind (.lift (.register r)) fun _ => .pure r

theorem shapeForNewObject (proto : Option Handle) : Seats (shapeForNewObject proto) := by
  refine .get_bind fun h => ?_
  split
  · exact .bind (.lift (.retain _)) fun _ => .pure _
  · exact .newShape proto

theorem cloneShape (r : Handle) : Seats (cloneShape r) :=
  .bind (.lift (.shape r)) fun _ => .bind (.reserve _) fun p => .bind (.lift (.shape r)) fun _ =>
    .bind (.lift (.retainOption _)) fun _ => .lift (.install p true nofun)

theorem growShape (r : Handle) (count : Nat) : Seats (growShape r count) :=
  .bind (.lift (.shape r)) fun _ => .bind (.growCell r _ _) fun _ => .lift (.modifyShape r _)

theorem extendShape (r : Handle) (atom : Atom) (flags : Flags) : Seats (extendShape r atom flags) := by
  refine .bind (.lift (.shape r)) fun s => ?_
  have hpush : Seats ((liftM (HeapM.modifyShape r (·.push atom flags)) : AllocM Unit) >>= fun _ =>
      Pure.pure s.entries.size) := .bind (.lift (.modifyShape r _)) fun _ => .pure _
  dsimp only
  generalize s.isHashed = hashed
  cases hashed with
  | false =>
    simp only [Bool.false_eq_true, if_false]
    split
    · exact .bind (.tryCatch (.growShape r _) fun _ => .throw _) fun _ => hpush
    · exact hpush
  | true =>
    simp only [if_true]
    have hback : Seats ((liftM (HeapM.modifyShape r fun t =>
        { t with hash := Shape.transitionHash s.hash atom flags }) : AllocM Unit) >>= fun _ =>
        (liftM (HeapM.register r) : AllocM Unit) >>= fun _ =>
        (liftM (HeapM.modifyShape r (·.push atom flags)) : AllocM Unit) >>= fun _ =>
        Pure.pure s.entries.size) :=
      .bind (.lift (.modifyShape r _)) fun _ => .bind (.lift (.register r)) fun _ => hpush
    refine .bind (.lift (.unregister r)) fun _ => ?_
    split
    · exact .bind (.tryCatch (.growShape r _) fun _ => .bind (.lift (.register r)) fun _ => .throw _)
        fun _ => hback
    · exact hback

theorem addProperty (r : Handle) (atom : Atom) (flags : Flags) : Seats (addProperty r atom flags) := by
  refine .bind (.lift (.shape r)) fun s => .get_bind fun h => ?_
  dsimp only
  generalize (if s.isHashed = true then h.sharedTransition? s atom flags else none) = found
  cases found with
  | some next =>
    exact .bind (.lift (.retain next)) fun _ => .bind (.lift (.release r)) fun _ =>
      .bind (.lift (.shape next)) fun _ => .pure _
  | none =>
    refine .get_bind fun h => ?_
    split
    · refine .bind (.cloneShape r) fun clone => .bind ?_ fun index => ?_
      · exact .tryCatch (.extendShape clone atom flags) fun _ =>
          .bind (.lift (.release clone)) fun _ => .throw _
      · refine .bind (.lift (.release r)) fun _ => ?_
        split
        · exact .bind (.lift (.modifyShape clone _)) fun _ => .bind (.lift (.register clone)) fun _ => .pure _
        · exact .pure _
    · exact .bind (.extendShape r atom flags) fun _ => .pure _

theorem prepareUpdate (r : Handle) : Seats (prepareUpdate r) := by
  refine .get_bind fun h => ?_
  split
  · exact .bind (.cloneShape r) fun clone => .bind (.lift (.release r)) fun _ =>
      .bind (.lift (.modifyShape clone _)) fun _ => .pure _
  · refine .bind (.lift (.shape r)) fun s => ?_
    dsimp only
    split
    · exact .bind (.lift (.unregister r)) fun _ => .bind (.lift (.modifyShape r _)) fun _ => .pure _
    · exact .bind (.lift (.modifyShape r _)) fun _ => .pure _

/-! ### Objects -/

theorem newObjectFromShape (shape : Handle) (payload : Payload) : Seats (newObjectFromShape shape payload) :=
  .bind (.lift (.shape shape)) fun _ => .bind (.reserveOr _ _) fun p => .lift (.install p true nofun)

theorem newObject (proto : Option Handle) : Seats (newObject proto) :=
  .bind (.shapeForNewObject proto) fun shape => .newObjectFromShape shape .ordinary

theorem ownShape (r : Handle) : Seats (ownShape r) := by
  refine .bind (.lift (.objectShape r)) fun old =>
    .bind (.tryCatch (.prepareUpdate old) fun _ => ?_) fun _ => ?_
  · exact .bind (.lift (.setShape r old)) fun _ => .throw _
  · exact .bind (.lift (.setShape r _)) fun _ => .pure _

theorem reserveProperty (r : Handle) : Seats (reserveProperty r) := by
  refine .bind (.lift (.object r)) fun o => ?_
  dsimp only
  split
  · exact .bind (.growCell r _ _) fun _ => .lift (.modifyObject r _)
  · exact .pure _

theorem appendProperty (r : Handle) (atom : Atom) (flags : Flags) (p : Property) :
    Seats (appendProperty r atom flags p) := by
  refine .bind (.tryCatch (.reserveProperty r) fun _ => .bind (.lift (.releaseProperty p)) fun _ => .throw _)
    fun _ => .bind (.lift (.objectShape r)) fun old =>
      .bind (.tryCatch (.addProperty old atom flags) fun _ => ?_) fun res => ?_
  · exact .bind (.lift (.setShape r old)) fun _ => .bind (.lift (.releaseProperty p)) fun _ => .throw _
  · obtain ⟨shape, index⟩ := res
    refine .bind (.lift (.setShape r shape)) fun _ => .bind (.lift (.modifyObject r _)) fun _ =>
      .bind (.lift (.object r)) fun o => ?_
    split
    · exact .fault rfl
    · exact .pure _

theorem defineOwn (r : Handle) (atom : Atom) (flags : Flags) (p : Property) :
    Seats (defineOwn r atom flags p) := by
  refine .bind (.lift (.objectShape r)) fun shape => .get_bind fun h => ?_
  split
  · rename_i index oldFlags _
    have hreplace : Seats (do
        let old ← HeapM.replaceProperty r index p
        HeapM.releaseProperty old
        return true) :=
      .bind (.lift (.replaceProperty r index p)) fun old =>
        .bind (.lift (.releaseProperty old)) fun _ => .pure true
    split
    · refine .bind (.tryCatch (.ownShape r) fun _ => ?_) fun shape =>
        .bind (.lift (.modifyShape shape _)) fun _ => hreplace
      exact .bind (.lift (.releaseProperty p)) fun _ => .throw _
    · exact hreplace
  · refine .bind (.lift (.object r)) fun o => ?_
    split
    · exact .bind (.appendProperty r atom flags p) fun _ => .pure true
    · exact .bind (.lift (.releaseProperty p)) fun _ => .pure false

theorem defineAccessor (r : Handle) (atom : Atom) (flags : Flags) (getter setter : Option Handle) :
    Seats (defineAccessor r atom flags getter setter) :=
  .bind (.lift (.retainOption getter)) fun _ => .bind (.lift (.retainOption setter)) fun _ =>
    .defineOwn r atom _ _

theorem setProperty (r : Handle) (atom : Atom) (v : Value) : Seats (setProperty r atom v) := by
  refine .get_bind fun h => ?_
  split
  · split
    · exact .bind (.lift (.freeValue v)) fun _ => .pure false
    · split
      · refine .bind (.lift (.object r)) fun o => ?_
        split
        · exact .fault rfl
        · exact .bind (.lift (.setVariable _ v)) fun _ => .pure true
        · exact .fault rfl
      · exact .bind (.lift (.writeSlot r _ v)) fun _ => .pure true
  · exact .defineOwn r atom _ _

theorem compactProperties (r : Handle) : Seats (compactProperties r) := by
  refine .bind (.ownShape r) fun shape => .bind (.lift (.shape shape)) fun s =>
    .bind (.lift (.object r)) fun o => .bind (.ask _ (.pure ()) _) fun _ => ?_
  split
  · exact .fault rfl
  · exact .bind (.lift (.modifyShape shape _)) fun _ => .bind (.lift (.modifyObject r _)) fun _ =>
      .bind (.lift (.unchargeCell shape _)) fun _ => .lift (.unchargeCell r _)

theorem deleteProperty (r : Handle) (atom : Atom) : Seats (deleteProperty r atom) := by
  refine .get_bind fun h => ?_
  split
  · exact .pure true
  · split
    · exact .pure false
    · refine .bind (.ownShape r) fun shape => .bind (.lift (.shape shape)) fun s => ?_
      dsimp only
      split
      · exact .fault_bind rfl _
      · refine .bind (.lift (.modifyShape shape _)) fun _ => .bind (.lift (.shape shape)) fun s =>
          .bind (.lift (.replaceProperty r _ _)) fun old => .bind (.lift (.releaseProperty old)) fun _ => ?_
        split
        · exact .bind (.tryCatch (.compactProperties r) fun _ => .pure ()) fun _ => .pure true
        · exact .pure true

theorem setPrototype (r : Handle) (proto : Option Handle) : Seats (setPrototype r proto) := by
  refine .get_bind fun h => ?_
  split
  · exact .pure false
  · refine .bind (.lift (.objectShape r)) fun old => .bind (.lift (.shape old)) fun s => ?_
    split
    · exact .pure true
    · exact .bind (.ownShape r) fun shape => .bind (.lift (.retainOption proto)) fun _ =>
        .bind (.lift (.shape shape)) fun s => .bind (.lift (.modifyShape shape _)) fun _ =>
          .bind (.lift (.releaseAll _)) fun _ => .pure true

/-! ### Other cells -/

theorem newArray (ctx : Handle) : Seats (newArray ctx) :=
  .bind (.lift (.realm ctx)) fun x => .bind (.lift (.retain x.arrayShape)) fun _ =>
    .bind (.newObjectFromShape _ _) fun r => .bind (.lift (.setLength r 0)) fun _ => .pure r

theorem arrayPush (r : Handle) (v : Value) : Seats (arrayPush r v) := by
  refine .bind (.lift (.arrayExtent r)) fun p => ?_
  dsimp only
  have hlast (f : Object → Object) : Seats (do
      HeapM.modifyObject r f
      HeapM.setLength r (p.1 + 1) : AllocM Unit) :=
    .bind (.lift (.modifyObject r f)) fun _ => .lift (.setLength r _)
  split
  · refine .bind ?_ fun _ => .bind (.lift (.modifyObject r _)) fun _ => hlast _
    exact .tryCatch (.growCell r _ _) fun _ => .bind (.lift (.freeValue v)) fun _ => .throw _
  · exact hlast _

theorem newBytecode (name : Option Atom) (realm : Option Handle) (pool : Array Value) :
    Seats (newBytecode name realm pool) :=
  .bind (.reserveOr _ _) fun p => .bind (.lift (.retainOption realm)) fun _ =>
    .lift (.install p true nofun)

theorem newClosure (proto : Option Handle) (bytecode : Handle) (captured : Array Handle)
    (home : Option Handle) : Seats (newClosure proto bytecode captured home) := by
  refine .bind (.lift (.retain bytecode)) fun _ => .bind (.lift (.retainOption home)) fun _ => ?_
  refine .bind ?_ fun shape => .newObjectFromShape shape _
  exact .tryCatch (.shapeForNewObject proto) fun _ => .bind (.lift (.releaseAll _)) fun _ => .throw _

theorem newSuspension (receiver : Value) (values : Array Value) (resolve reject : Value) :
    Seats (newSuspension receiver values resolve reject) :=
  .bind (.reserveOr _ _) fun p => .lift (.install p true nofun)

theorem guarding {α : Type} (owned : List Handle) {act : AllocM α} (hact : Seats act) :
    Seats (guarding owned act) :=
  .tryCatch hact fun _ => .bind (.lift (.releaseAll _)) fun _ => .throw _

theorem newRealm : Seats newRealm :=
  .bind (.newObject none) fun _ => .bind (.guarding _ (.newObject _)) fun _ =>
    .bind (.guarding _ (.newObject _)) fun _ => .bind (.guarding _ (.newObject _)) fun _ =>
      .bind (.guarding _ (.shapeForNewObject _)) fun _ =>
        .bind (.guarding _ (.addProperty _ _ _)) fun _ =>
          .bind (.reserveOr _ _) fun p => .lift (.install p true nofun)

/-! ### Property caches -/

theorem setRecording (c : InlineCache) (r : Handle) (atom : Atom) (v : Value) :
    Seats (setRecording c r atom v) := by
  refine .bind (.setProperty r atom v) fun done => ?_
  split
  · refine .get_bind fun h => ?_
    split
    · split
      · exact .pure _
      · exact .pure _
    · exact .pure _
  · exact .pure _

theorem setAnswered (hit? : Option CacheHit) (c : InlineCache) (r : Handle) (atom : Atom) (v : Value) :
    Seats (setAnswered hit? c r atom v) := by
  unfold AllocM.setAnswered
  split
  · split
    · exact .bind (.lift (.writeSlot r _ v)) fun _ => .pure _
    · exact .setRecording c r atom v
  · exact .setRecording c r atom v

theorem setCached (c : InlineCache) (r : Handle) (atom : Atom) (v : Value) :
    HeapM.Seats (setCached c r atom v) := by
  refine .get_bind fun h => ?_
  split
  refine .bind (Seats.setAnswered _ _ r atom v) fun res => ?_
  split
  · exact .pure _
  · exact .pure _

/-! ### Variables and frames -/

/-- What is done to variables is known (`turns_of_newVariable`), which leaves that no frame is missed. -/
theorem newVariable (v : Value) : Seats (newVariable v) := by
  intro h hs
  cases e : (AllocM.newVariable v).run h with
  | ok p =>
    rcases Heap.turns_of_newVariable (T := fun _ => False) e with ⟨_, _, ht⟩ | ⟨_, ht⟩
    · exact ht.seated hs
    · exact ht.seated hs
  | error err =>
    have hends : Intact (fun _ => True) ((AllocM.newVariable v).run h) := by
      refine yields_bind (Seats.reserveOr Size.cell v.ref?.toList h hs) (fun p h₁ _ _ => ?_)
        fun _ _ _ _ => trivial
      refine yields_lift ?_
      cases e : HeapM.install p (.captured (.detached v)) true h₁ with
      | ok _ => trivial
      | error err => exact HeapM.Seats.install_error e
    exact hends.of_error e

end Seats

end AllocM

namespace Heap

variable {h h' : Heap} {r : Handle} {id : FrameId} {slot : Nat} {x : Ledger}

/-- Setting a slot apart leaves the frames alive that were. -/
theorem isFrameLive_of_reserve {size : Nat} {arrays : Nat → List Request} {failure : OutOfMemory}
    {p : Reservation} {f : Frame} (e : (AllocM.reserve size arrays failure).run h = .ok (.ok p, h'))
    (hf : h.frames.get? id = some f) : h'.isFrameLive id = true := by
  rcases AllocM.reserve_cases e with ⟨p', h₁, hres, hready, ht⟩ | ⟨⟨_, hres⟩, _⟩
  · have hl := hready.undisturbed.locals? id
    have hframes : h'.frames = h₁.frames := by rw [takeSlot_rest ht]
    rw [locals?, locals?, ← hframes, hf] at hl
    obtain ⟨g, hg, _⟩ := Option.map_eq_some_iff.mp hl
    rw [isFrameLive, hg]
    rfl
  · cases hres

/-- A capture finds the frame alive that was alive before it took a slot. -/
theorem Seated.intact_captureVariable (hs : h.Seated) (id : FrameId) (slot : Nat) :
    Intact (fun _ => True) ((AllocM.captureVariable id slot).run h) := by
  unfold AllocM.captureVariable
  rw [AllocM.get_bind]
  cases hf : h.frames.get? id with
  | none => rfl
  | some f =>
    dsimp only
    split
    · split
      · exact AllocM.yields_lift_bind (HeapM.Seats.retain _ h hs) fun _ _ _ _ => trivial
      · refine AllocM.yields_bind (AllocM.Seats.reserve Size.cell h hs) (fun p h₁ e _ => ?_)
          fun _ _ _ _ => trivial
        rw [AllocM.get_bind, isFrameLive_of_reserve e hf]
        refine AllocM.yields_lift_bind (R := fun _ => True) ?_ fun r h₃ _ _ => trivial
        cases e : HeapM.install p (.captured (.attached id slot)) false h₁ with
        | ok _ => trivial
        | error err => exact HeapM.Seats.install_error e
    · rfl

theorem Seated.intact_pushFrame (hs : h.Seated) (locals : Array Value) :
    Intact (fun _ => True) ((AllocM.pushFrame locals).run h) := by
  refine AllocM.yields_bind (R := fun _ => True) ?_ (fun _ _ _ _ => trivial) fun _ _ _ _ => trivial
  refine AllocM.yields_tryCatch (AllocM.Seats.reserveFrame _ h hs) (fun _ _ _ _ => trivial) fun err h₁ _ hs₁ => ?_
  exact AllocM.yields_lift_bind (HeapM.Seats.freeValues locals h₁ hs₁) fun _ _ _ _ => trivial

/-! ## Popping -/

/-- An attached variable that is on no list can be detached. -/
theorem exists_detach {c : Cell} {locals : Array Value} (hc : h.cell? r = some c)
    (hb : c.body = .captured (.attached id slot)) (hplace : c.place = .unlisted)
    (hslot : slot < locals.size) : ∃ h' locals', Heap.detach id (h, locals) r = .ok (h', locals') := by
  have hat : h.detachAt id locals r = .ok (h.modifyBody r.index fun _ => .captured (.detached locals[slot]),
      locals.setIfInBounds slot .undefined) := by
    unfold detachAt
    rw [hc]
    dsimp only
    rw [hb]
    dsimp only
    rw [Array.getElem?_eq_getElem hslot]
  have hu := Updates.modifyCell hc fun c => { c with body := .captured (.detached locals[slot]) }
  have hcell := cellAt_eq_ok_iff.mpr (tenant?_of_cell? hu.cell_self)
  unfold Heap.detach
  dsimp only
  rw [hat]
  dsimp only [bind, Except.bind]
  unfold modifyBody
  rw [hcell]
  dsimp only
  rw [hplace]
  exact ⟨_, _, rfl⟩

/-- Every open variable of a frame that is popped can be detached, if each has a local of its own. -/
theorem Popping.exists_detachAll {n : Nat} {locals : Array Value} {rest : List Handle} {h₀ : Heap}
    (hp : Popping x n id locals rest h₀ h)
    (hinside : ∀ r ∈ rest, ∀ slot, h.captured? r = some (.attached id slot) → slot < locals.size) :
    ∃ h' locals', rest.foldlM (Heap.detach id) (h, locals) = .ok (h', locals') := by
  induction rest generalizing h locals with
  | nil => exact ⟨h, locals, rfl⟩
  | cons r rest ih =>
    obtain ⟨c, slot, hc, hb⟩ := attached_of_frameOf? (hp.left r List.mem_cons_self)
    have hslot := hinside r List.mem_cons_self slot (captured?_eq_some_iff.mpr ⟨c, hc, hb⟩)
    have hplace : c.place = .unlisted :=
      (hp.settled r.index c (tenant?_of_cell? hc)).unlisted (by rw [hb]; rfl)
    obtain ⟨h₁, locals₁, e₁⟩ := exists_detach hc hb hplace hslot
    obtain ⟨v, ticket, _, rfl, hu, _⟩ := detach_eq_ok hc hb e₁
    obtain ⟨h', locals', e⟩ := ih (hp.detach e₁) fun q hq k hqk => by
      have hne : q ≠ r := fun hqr => (List.nodup_cons.mp hp.distinct).1 (hqr ▸ hq)
      rw [Array.size_setIfInBounds]
      refine hinside q (List.mem_cons_of_mem r hq) k ?_
      rw [captured?, ← hu.body_other hne]
      exact hqk
    exact ⟨h', locals', by rw [List.foldlM_cons, e₁]; exact e⟩

/-- A live frame can be popped. -/
theorem Valid.exists_popFrame (hv : h.Valid x) (hs : h.Seated) (hlive : h.isFrameLive id = true) :
    ∃ h', HeapM.popFrame id h = .ok ((), h') := by
  obtain ⟨f, hf⟩ := Option.isSome_iff_exists.mp hlive
  have hp := Popping.start hv hf
  obtain ⟨h₁, locals, hdetach⟩ := hp.exists_detachAll fun r _ slot hr => by
    obtain ⟨g, hg, hlt⟩ := hs.frame (r := r) hr
    rw [hf] at hg
    cases hg
    exact hlt
  obtain ⟨h₂, hfree, hs₂, _⟩ := (hp.detachAll hdetach).finish.releaseAll
  have hused : f.size ≤ h₂.used := by
    have := hs₂.coherent.accounted.used
    omega
  refine ⟨{ h₂ with used := h₂.used - f.size }, ?_⟩
  have huncharge : HeapM.uncharge f.size h₂ = .ok ((), { h₂ with used := h₂.used - f.size }) := by
    unfold HeapM.uncharge
    exact if_neg (Nat.not_lt.mpr hused)
  have hlast : (HeapM.freeValues locals >>= fun _ => HeapM.uncharge f.size) h₁ =
      .ok ((), { h₂ with used := h₂.used - f.size }) := by
    rw [HeapM.bind_apply, HeapM.freeValues, hfree]
    exact huncharge
  unfold HeapM.popFrame
  rw [HeapM.get_bind, hf]
  dsimp only
  rw [HeapM.bind_apply]
  dsimp only [modify, modifyGet, MonadStateOf.modifyGet, StateT.modifyGet, pure, Except.pure]
  rw [HeapM.bind_apply, hdetach]
  exact hlast

/-- Popping fails only for a frame that is gone. -/
theorem Valid.intact_popFrame (hv : h.Valid x) (hs : h.Seated) (id : FrameId) :
    Intact (fun _ => True) (HeapM.popFrame id h) := by
  cases hlive : h.isFrameLive id with
  | true =>
    obtain ⟨h', e⟩ := hv.exists_popFrame hs hlive
    rw [e]
    trivial
  | false =>
    have hf : h.frames.get? id = none := Option.isSome_eq_false_iff.mp hlive |> Option.isNone_iff_eq_none.mp
    unfold HeapM.popFrame
    rw [HeapM.get_bind, hf]
    rfl

/-! ## Operations -/

theorem Seated.intact_answer {α : Type} {act : HeapM α} {f : α → Reply} (hs : h.Seated) (hact : act.Seats) :
    Intact (fun _ => True) (Call.answer act f h) :=
  HeapM.yields_bind (hact h hs) fun _ _ _ _ => trivial

/-- Where variables are seated no call but an assignment to a local fails for a variable and its frame. -/
theorem Valid.intact_of_call (hv : h.Valid x) (hs : h.Seated) (call : Call)
    (hnot : ∀ id slot v, call ≠ .setLocal id slot v) : Intact (fun _ => True) (call.perform h) := by
  cases call with
  | retain r => exact hs.intact_answer (.retain r)
  | release r => exact hs.intact_answer (.release r)
  | dupValue v => exact hs.intact_answer (.dupValue v)
  | freeValue v => exact hs.intact_answer (.freeValue v)
  | root r => exact hs.intact_answer (.root r)
  | cloneRoot x => exact hs.intact_answer (.cloneRoot x)
  | dropRoot x => exact hs.intact_answer (.dropRoot x)
  | flushRoots => exact hs.intact_answer .flushRoots
  | collect => exact hs.intact_answer .collect
  | setMemoryLimit limit =>
    exact hs.intact_answer (.modify (f := fun h => h.setMemoryLimit limit) fun _ => .aside rfl rfl rfl rfl rfl)
  | setThreshold n =>
    exact hs.intact_answer (.modify (f := fun h => h.setThreshold n) fun _ => .aside rfl rfl rfl rfl rfl)
  | setRefused requests =>
    exact hs.intact_answer (.modify (f := fun h => h.setRefused requests) fun _ => .aside rfl rfl rfl rfl rfl)
  | shapeForNewObject proto => exact Call.yields_attempt (AllocM.Seats.shapeForNewObject proto h hs)
  | addProperty shape atom flags => exact Call.yields_attempt (AllocM.Seats.addProperty shape atom flags h hs)
  | prepareUpdate shape => exact Call.yields_attempt (AllocM.Seats.prepareUpdate shape h hs)
  | newObject proto => exact Call.yields_attempt (AllocM.Seats.newObject proto h hs)
  | newObjectFromShape shape payload =>
    exact Call.yields_attempt (AllocM.Seats.newObjectFromShape shape payload h hs)
  | getProperty r atom => exact hs.intact_answer (.getProperty r atom)
  | readSlot r offset => exact hs.intact_answer (.readSlot r offset)
  | writeSlot r offset v => exact hs.intact_answer (.writeSlot r offset v)
  | defineProperty r atom flags v => exact Call.yields_attempt (AllocM.Seats.defineOwn r atom _ _ h hs)
  | defineAccessor r atom flags getter setter =>
    exact Call.yields_attempt (AllocM.Seats.defineAccessor r atom flags getter setter h hs)
  | defineCaptured r atom flags x => exact Call.yields_attempt (AllocM.Seats.defineOwn r atom _ _ h hs)
  | setProperty r atom v => exact Call.yields_attempt (AllocM.Seats.setProperty r atom v h hs)
  | deleteProperty r atom => exact Call.yields_attempt (AllocM.Seats.deleteProperty r atom h hs)
  | compactProperties r => exact Call.yields_attempt (AllocM.Seats.compactProperties r h hs)
  | setPrototype r proto => exact Call.yields_attempt (AllocM.Seats.setPrototype r proto h hs)
  | preventExtensions r => exact hs.intact_answer (.preventExtensions r)
  | newArray ctx => exact Call.yields_attempt (AllocM.Seats.newArray ctx h hs)
  | arrayPush r v => exact Call.yields_attempt (AllocM.Seats.arrayPush r v h hs)
  | newBytecode name realm pool => exact Call.yields_attempt (AllocM.Seats.newBytecode name realm pool h hs)
  | newClosure proto bytecode captured home =>
    exact Call.yields_attempt (AllocM.Seats.newClosure proto bytecode captured home h hs)
  | newSuspension receiver values resolve reject =>
    exact Call.yields_attempt (AllocM.Seats.newSuspension receiver values resolve reject h hs)
  | finishSuspension r => exact hs.intact_answer (.finishSuspension r)
  | newRealm => exact Call.yields_attempt (AllocM.Seats.newRealm h hs)
  | pushFrame locals => exact Call.yields_attempt (hs.intact_pushFrame locals)
  | getLocal id slot => exact hs.intact_answer (.getLocal id slot)
  | setLocal id slot v => exact absurd rfl (hnot id slot v)
  | captureVariable id slot => exact Call.yields_attempt (hs.intact_captureVariable id slot)
  | popFrame id => exact HeapM.yields_bind (hv.intact_popFrame hs id) fun _ _ _ _ => trivial
  | newVariable v => exact Call.yields_attempt (AllocM.Seats.newVariable v h hs)
  | getVariable r => exact hs.intact_answer (.getVariable r)
  | setVariable r v => exact hs.intact_answer (.setVariable r v)

/-- Where variables are seated an operation that fails for a variable and its frame is an assignment to a
local of a frame that is gone. -/
theorem Valid.frame_gone_of_dangling (hv : h.Valid x) (hs : h.Seated) (op : Operation) {err : Fault}
    (e : op.perform h = .error err) (herr : err.isDangling = true) :
    ∃ id slot v, op = .call (.setLocal id slot v) ∧ err = .frameDead id ∧ h.frames.get? id = none := by
  cases op with
  | call call =>
    by_cases hnot : ∀ id slot v, call ≠ .setLocal id slot v
    · rw [(hv.intact_of_call hs call hnot).of_error e] at herr
      cases herr
    · push Not at hnot
      obtain ⟨id, slot, v, rfl⟩ := hnot
      exact ⟨id, slot, v, rfl, HeapM.Seats.setLocal_error hs (Call.answer_eq_error e) herr⟩
  | get cache r atom =>
    have hget : Intact (fun _ => True) ((Operation.get cache r atom).perform h) :=
      HeapM.yields_bind (HeapM.Seats.getCached cache r atom h hs) fun _ _ _ _ => trivial
    rw [hget.of_error e] at herr
    cases herr
  | set cache r atom v =>
    have hset : Intact (fun _ => True) ((Operation.set cache r atom v).perform h) := by
      refine HeapM.yields_bind (AllocM.Seats.setCached cache r atom v h hs) fun p _ _ _ => ?_
      obtain ⟨res, cache'⟩ := p
      cases res with
      | ok a => trivial
      | error err => trivial
    rw [hset.of_error e] at herr
    cases herr

end Heap

end ObjectMemory
