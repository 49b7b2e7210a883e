import ObjectMemory.Proofs.CallDrifts
set_option autoImplicit false

/-!
# What operations do to variables and frames

Few operations touch a captured variable or a local, and each does one thing to one of them: `Effect` is
that thing.  An effect says which variable is under a handle afterwards (`Effect.captured?`), which locals a
frame has (`Effect.locals?`), and what it asks of the heap before (`Effect.Fits`).  Freeing is no effect: a
variable that is left is the one the effect says, and any may be gone.

`Heap.Turns T ef h h'` holds of an operation with effect `ef` that edits no layout that was there before
but in slots of `T`.  The main statement is that every operation of a client turns the heap so
(`Operation.turns`), with `Operation.effect` and `Operation.edits`.  Popping a frame needs its attached
variables to be seated: each at a local of its own (`Heap.Seated`), which every effect keeps.
-/

namespace ObjectMemory

/-- The one thing an operation does to a variable or a frame. -/
inductive Effect where
  | none
  /-- a value is put into a local -/
  | write (id : FrameId) (slot : Nat) (v : Value)
  /-- a value is put into a detached variable -/
  | store (r : Handle) (v : Value)
  /-- a frame is entered -/
  | enter (id : FrameId) (locals : Array Value)
  /-- a frame is popped, and its variables take over their locals -/
  | leave (id : FrameId)
  /-- there is a variable for a local -/
  | attach (r : Handle) (id : FrameId) (slot : Nat)
  /-- a detached variable is made -/
  | create (r : Handle) (v : Value)
  deriving DecidableEq, Repr, Inhabited

namespace Heap

/-- The locals of a frame. -/
def locals? (h : Heap) (id : FrameId) : Option (Array Value) := (h.frames.get? id).map (·.locals)

/-- The value of a local. -/
def local? (h : Heap) (id : FrameId) (slot : Nat) : Option Value := (h.locals? id).bind (·[slot]?)

end Heap

namespace Effect

/-- The variable under a handle afterwards, if it is left. -/
def captured? (h : Heap) (r : Handle) : Effect → Option Variable
  | none | write _ _ _ | enter _ _ => h.captured? r
  | store q v | create q v => if r = q then some (.detached v) else h.captured? r
  | attach q id slot => if r = q then some (.attached id slot) else h.captured? r
  | leave id =>
    match h.captured? r with
    | some (.attached j slot) =>
      if j = id then (h.local? id slot).map .detached else some (.attached j slot)
    | v => v

/-- The locals of a frame afterwards. -/
def locals? (h : Heap) (j : FrameId) : Effect → Option (Array Value)
  | write id slot v => if j = id then (h.locals? j).map (·.setIfInBounds slot v) else h.locals? j
  | enter id locals => if j = id then some locals else h.locals? j
  | leave id => if j = id then Option.none else h.locals? j
  | none | store _ _ | attach _ _ _ | create _ _ => h.locals? j

/-- What the effect asks of the heap. -/
def Fits (h : Heap) : Effect → Prop
  | none => True
  | write id slot _ => ∃ locals, h.locals? id = some locals ∧ slot < locals.size
  | store r _ => ∃ old, h.captured? r = some (.detached old)
  | enter id _ => h.locals? id = Option.none
  | leave id => ∃ locals, h.locals? id = some locals
  | attach r id slot => (∃ locals, h.locals? id = some locals ∧ slot < locals.size) ∧
      (∀ q, h.captured? q = some (.attached id slot) → q = r) ∧
      (h.captured? r = some (.attached id slot) ∨ h.contains r = false)
  | create r _ => h.contains r = false

end Effect

namespace Heap

variable {T : Nat → Prop} {h h₁ h₂ h' : Heap} {r : Handle} {id : FrameId} {slot : Nat} {v : Value}
  {ef : Effect} {u : Unit} {x : Ledger}

/-- An operation of one effect, after which a layout that is left is what it was unless it is in a slot of
`T`. -/
structure Turns (T : Nat → Prop) (ef : Effect) (h h' : Heap) : Prop where
  fits : ef.Fits h
  lasts : Lasts T h h'
  roomy : h.Roomy → h'.Roomy
  captured : ∀ r v, h'.captured? r = some v → ef.captured? h r = some v
  locals : ∀ id, h'.locals? id = ef.locals? h id

/-- Every attached variable is at a local of a live frame, and no other is. -/
structure Seated (h : Heap) : Prop where
  inside : ∀ r id slot, h.captured? r = some (.attached id slot) →
    ∃ locals, h.locals? id = some locals ∧ slot < locals.size
  single : ∀ r q id slot, h.captured? r = some (.attached id slot) →
    h.captured? q = some (.attached id slot) → r = q

theorem seated_new (config : Config) : (new config).Seated := by
  have hnone : ∀ r, (new config).captured? r = none := by
    intro r
    simp [captured?, body?, cell?, new]
  refine ⟨fun r id slot hr => ?_, fun r q id slot hr _ => ?_⟩
  · rw [hnone] at hr
    cases hr
  · rw [hnone] at hr
    cases hr

/-- A frame that is left takes the variables at its locals along, and no other. -/
theorem captured?_of_leave {j : FrameId} (hr : Effect.captured? h r (.leave j) = some (.attached id slot)) :
    id ≠ j ∧ h.captured? r = some (.attached id slot) := by
  simp only [Effect.captured?] at hr
  split at hr
  · rename_i k slot' hv
    split at hr
    · obtain ⟨w, _, hw⟩ := Option.map_eq_some_iff.mp hr
      cases hw
    · rename_i hk
      cases hr
      exact ⟨hk, hv⟩
  · rename_i hnot
    exact absurd hr (hnot id slot)

/-- After every effect an attached variable is at a local. -/
theorem Seated.inside_after (hs : h.Seated) (hfits : ef.Fits h)
    (hr : ef.captured? h r = some (.attached id slot)) :
    ∃ locals, ef.locals? h id = some locals ∧ slot < locals.size := by
  cases ef with
  | none => exact hs.inside r id slot hr
  | store y w | create y w =>
    simp only [Effect.captured?] at hr
    split at hr
    · cases hr
    · exact hs.inside r id slot hr
  | write j k w =>
    obtain ⟨locals, hl, hlt⟩ := hs.inside r id slot hr
    simp only [Effect.locals?]
    split
    · exact ⟨_, by rw [hl]; rfl, by simpa using hlt⟩
    · exact ⟨locals, hl, hlt⟩
  | enter j locals =>
    obtain ⟨locals, hl, hlt⟩ := hs.inside r id slot hr
    simp only [Effect.locals?]
    split
    · rename_i hj
      rw [hj, hfits] at hl
      cases hl
    · exact ⟨locals, hl, hlt⟩
  | leave j =>
    obtain ⟨hne, hv⟩ := captured?_of_leave hr
    simp only [Effect.locals?, if_neg hne]
    exact hs.inside r id slot hv
  | attach y j k =>
    simp only [Effect.captured?] at hr
    split at hr
    · cases hr
      exact hfits.1
    · exact hs.inside r id slot hr

/-- After every effect no two variables are attached to one local. -/
theorem Seated.single_after {q : Handle} (hs : h.Seated) (hfits : ef.Fits h)
    (hr : ef.captured? h r = some (.attached id slot)) (hq : ef.captured? h q = some (.attached id slot)) :
    r = q := by
  cases ef with
  | none | write _ _ _ | enter _ _ => exact hs.single r q id slot hr hq
  | store y w | create y w =>
    simp only [Effect.captured?] at hr hq
    split at hr
    · cases hr
    · split at hq
      · cases hq
      · exact hs.single r q id slot hr hq
  | leave j => exact hs.single r q id slot (captured?_of_leave hr).2 (captured?_of_leave hq).2
  | attach y j k =>
    simp only [Effect.captured?] at hr hq
    split at hr
    · rename_i hry
      cases hr
      split at hq
      · rename_i hqy
        rw [hry, hqy]
      · rw [hry, hfits.2.1 q hq]
    · split at hq
      · rename_i hqy
        cases hq
        rw [hqy, hfits.2.1 r hr]
      · exact hs.single r q id slot hr hq

/-- Every effect leaves attached variables at locals of their own. -/
theorem Turns.seated (e : Turns T ef h h') (hs : h.Seated) : h'.Seated := by
  refine ⟨fun r id slot hr => ?_, fun r q id slot hr hq => ?_⟩
  · rw [e.locals]
    exact hs.inside_after e.fits (e.captured r _ hr)
  · exact hs.single_after e.fits (e.captured r _ hr) (e.captured q _ hq)

/-! ## Runs of changes as turns -/

theorem Drifts.lasts (e : Drifts T h h') : Lasts T h h' := by
  obtain ⟨E, hm, hE⟩ := e
  refine ⟨hm.lasts.frees, fun i b hb hfrees => ?_⟩
  obtain ⟨b', hb', hsame⟩ := hm.lasts.kept i b hb hfrees
  obtain ⟨c, hc, _⟩ := tenant?_of_bodyAt? hb
  exact ⟨b', hb', fun t ht hT => hsame t ht fun hi => (hE i hi).elim hT fun hf => hf c hc hfrees⟩

theorem Undisturbed.locals? (e : Undisturbed h h') (id : FrameId) : h'.locals? id = h.locals? id := e.locals id

theorem Drifts.turns (e : Drifts T h h') : Turns T .none h h' :=
  ⟨trivial, e.lasts, e.roomy, e.undisturbed.captured, e.undisturbed.locals?⟩

theorem Shifts.turns (e : Shifts h h') : Turns T .none h h' := (Drifts.of_shifts e).turns

theorem Lasts.after_slots (e : Lasts T h₁ h') (hslots : h₁.slots = h.slots) : Lasts T h h' := by
  refine Lasts.trans (.of_same (fun i => ?_) fun i => ?_) e
  · rw [Heap.frees, hslots]
    rfl
  · rw [bodyAt?, tenant?, hslots]
    rfl

/-- An effect may be followed by changes that have none. -/
theorem Turns.then (e : Turns T ef h h₁) (hrest : Shifts h₁ h') : Turns T ef h h' :=
  ⟨e.fits, e.lasts.trans (Drifts.of_shifts hrest).lasts, fun hr => hrest.roomy (e.roomy hr),
    fun r v hv => e.captured r v (hrest.undisturbed.captured r v hv),
    fun id => (hrest.undisturbed.locals? id).trans (e.locals id)⟩

/-! ## Putting values into locals and variables -/

/-- A local is written over. -/
theorem turns_of_putLocal {f : Frame} {old : Value} (hf : h.frames.get? id = some f)
    (hold : f.locals[slot]? = some old) (v : Value) : Turns T (.write id slot v) h { h with
      frames := h.frames.modify id.index fun f => { f with locals := f.locals.setIfInBounds slot v } } := by
  refine ⟨⟨f.locals, by rw [locals?, hf]; rfl, (Array.getElem?_eq_some_iff.mp hold).1⟩,
    .of_same (fun _ => rfl) fun _ => rfl, fun hr => hr.of_slots rfl rfl, fun _ _ hv => hv, fun j => ?_⟩
  simp only [locals?, Effect.locals?, FrameTable.get?_modify]
  by_cases hj : j = id
  · rw [if_pos (by rw [hj]), if_pos hj, Option.map_map, Option.map_map]
    rfl
  · rw [if_neg hj]
    split
    · rename_i hindex
      cases hg : h.frames.get? j with
      | none => rfl
      | some g => exact absurd (FrameTable.id_eq_of_get? hf hg hindex.symm) hj
    · rfl

theorem turns_of_setLocal (e : HeapM.setLocal id slot v h = .ok (u, h')) :
    Turns T (.write id slot v) h h' := by
  obtain ⟨f, old, hf, hold, e⟩ := setLocal_eq_ok e
  exact (turns_of_putLocal hf hold v).then (HeapM.Shifting.freeValue old _ _ _ e)

/-- A body is put in the place of a variable. -/
theorem captured?_modifyBody (hr : ∃ w, h.captured? r = some w) (w : Variable) (q : Handle) :
    (h.modifyBody r.index fun _ => .captured w).captured? q =
      if q = r then some w else h.captured? q := by
  obtain ⟨w₀, hw₀⟩ := hr
  obtain ⟨c, hc, hb⟩ := captured?_eq_some_iff.mp hw₀
  have hu : Updates r (some { c with body := .captured w }) h (h.modifyBody r.index fun _ => .captured w) :=
    .modifyCell hc fun c => { c with body := .captured w }
  by_cases hq : q = r
  · rw [if_pos hq, hq]
    exact captured?_iff_body?.mpr hu.body_self
  · rw [if_neg hq, captured?, captured?, hu.body_other hq]

/-- The effect of putting a value into a variable. -/
def assigned (h : Heap) (r : Handle) (v : Value) : Effect :=
  match h.captured? r with
  | some (.attached id slot) => .write id slot v
  | some (.detached _) => .store r v
  | none => .none

/-- A detached variable is written over. -/
theorem turns_of_putVariable {old : Value} (hv : h.captured? r = some (.detached old)) (v : Value) :
    Turns T (.store r v) h (h.modifyBody r.index fun _ => .captured (.detached v)) := by
  refine ⟨⟨old, hv⟩, .of_bodies (fun j => frees_modifyCell h r.index _ j) fun i b hb => ?_,
    fun hr => hr.modifyCell r.index _, fun q w hw => ?_, fun _ => rfl⟩
  · by_cases hi : r.index = i
    · subst hi
      refine ⟨_, bodyAt?_rewrite hb, fun t ht _ => ?_⟩
      rw [(body?_iff_bodyAt?.mp (captured?_iff_body?.mp hv)).1] at hb
      cases hb
      cases ht
    · exact ⟨b, by rw [modifyBody, bodyAt?_modifyCell, if_neg hi, hb], fun _ _ _ => rfl⟩
  · rw [captured?_modifyBody ⟨_, hv⟩] at hw
    exact hw

theorem turns_of_setVariable (e : HeapM.setVariable r v h = .ok (u, h')) : Turns T (h.assigned r v) h h' := by
  unfold assigned
  obtain ⟨id, slot, hv, e⟩ | ⟨old, hv, e⟩ := setVariable_eq_ok e
  · rw [hv]
    exact turns_of_setLocal e
  · rw [hv]
    exact (turns_of_putVariable hv v).then (HeapM.Shifting.freeValue old _ _ _ e)

/-! ## Making variables -/

/-- A variable is made in the slot that was set apart. -/
theorem Shifts.putVariable {p : Reservation} {w : Variable} {listed : Bool} (hready : h.Shifts h₁)
    (ht : h₁.takeSlot = .ok (p.index, h₂)) (hp : HeapM.install p (.captured w) listed h₂ = .ok (r, h')) :
    Lasts T h h' ∧ (h.Roomy → h'.Roomy) ∧
      (∀ q w', h'.captured? q = some w' → (if q = r then some w else h.captured? q) = some w') ∧
      ∀ id, h'.locals? id = h.locals? id := by
  have hputs : Puts p.index (.captured w) h₁ h' := puts_of_make (o := none) (u := ()) ht rfl hp
  obtain ⟨_, hu⟩ := Updates.putCell hp
  refine ⟨(Drifts.of_shifts hready).lasts.trans hputs.lasts, fun hr => hputs.roomy (hready.roomy hr),
    fun q w' hw' => ?_, fun id => ?_⟩
  · rw [captured?_iff_body?] at hw'
    by_cases hq : q = r
    · rw [hq, hu.body_self] at hw'
      cases hw'
      rw [if_pos hq]
    · rw [hu.body_other hq, (SameCells.takeSlot ht).body?] at hw'
      rw [if_neg hq]
      exact hready.undisturbed.captured q w' (captured?_iff_body?.mpr hw')
  · rw [← hready.undisturbed.locals? id, locals?, locals?, hputs.frames]

/-- The handle of a new variable named nothing before. -/
theorem Evolves.contains_of_install {p : Reservation} {body : Body} {listed : Bool} (ev : Evolves 0 h h₂)
    (hp : HeapM.install p body listed h₂ = .ok (r, h')) : h.contains r = false := by
  obtain ⟨hnone, hu⟩ := Updates.putCell hp
  refine ev.fresh (.putCell hp) (by omega) ?_ ?_
  · rw [contains, hnone]
    rfl
  · rw [contains, hu.cell_self]
    rfl

theorem turns_of_newVariable {res : Except OutOfMemory Handle}
    (e : (AllocM.newVariable v).run h = .ok (res, h')) :
    (∃ r, res = .ok r ∧ Turns T (.create r v) h h') ∨ (∃ err, res = .error err) ∧ Turns T .none h h' := by
  rcases AllocM.bind_eq_ok e with ⟨p, h₂, e₁, e₂⟩ | ⟨err, e₁, rfl⟩
  · rcases AllocM.reserveOr_cases e₁ with ⟨p', h₁, hres, hready, ht⟩ | ⟨⟨_, hres⟩, _⟩
    · cases hres
      obtain ⟨r, e₃, rfl⟩ := AllocM.lift_eq_ok e₂
      obtain ⟨hlasts, hroomy, hcaptured, hlocals⟩ := hready.putVariable ht e₃
      exact .inl ⟨r, rfl, (AllocM.Tracks.reserveOr _ _ _ _ _ e₁).contains_of_install e₃, hlasts, hroomy,
        hcaptured, hlocals⟩
    · cases hres
  · rcases AllocM.reserveOr_cases e₁ with ⟨_, _, hres, _⟩ | ⟨_, hready⟩
    · cases hres
    · exact .inr ⟨⟨err, rfl⟩, hready.turns⟩

theorem attached_of_isAttachedTo (hr : h.isAttachedTo slot r = true) :
    ∃ j, h.captured? r = some (.attached j slot) := by
  unfold isAttachedTo at hr
  split at hr
  · rename_i j k hv
    rw [beq_iff_eq] at hr
    exact ⟨j, hr ▸ hv⟩
  · cases hr

theorem isAttachedTo_of_attached {j : FrameId} (hr : h.captured? r = some (.attached j slot)) :
    h.isAttachedTo slot r = true := by
  unfold isAttachedTo
  rw [hr]
  exact beq_self_eq_true slot

theorem frameOf?_of_attached (hr : h.captured? r = some (.attached id slot)) : h.frameOf? r = some id := by
  rw [frameOf?, captured?_iff_body?.mp hr]
  rfl

/-- A capture answers the variable that is open for the local, or makes one. -/
theorem Seated.turns_of_captureVariable {res : Except OutOfMemory Handle} (hs : h.Seated) (hb : h.Bound)
    (e : (AllocM.captureVariable id slot).run h = .ok (res, h')) :
    (∃ r, res = .ok r ∧ Turns T (.attach r id slot) h h') ∨
      (∃ err, res = .error err) ∧ Turns T .none h h' := by
  unfold AllocM.captureVariable at e
  rw [AllocM.get_bind] at e
  cases hf : h.frames.get? id with
  | none =>
    rw [hf] at e
    exact (AllocM.fault_eq_ok e).elim
  | some f =>
    rw [hf] at e
    dsimp only at e
    split at e
    · rename_i hslot
      have hinside : ∃ locals, h.locals? id = some locals ∧ slot < locals.size :=
        ⟨f.locals, by rw [locals?, hf]; rfl, hslot⟩
      split at e
      · rename_i r hfound
        obtain ⟨_, h₁, e₁, e⟩ := AllocM.lift_bind_eq_ok e
        obtain ⟨rfl, rfl⟩ := AllocM.pure_eq_ok e
        obtain ⟨j, hr⟩ := attached_of_isAttachedTo (Array.find?_some hfound)
        have hmem : r ∈ f.openVariables.toList := Array.mem_toList_iff.mpr (Array.mem_of_find?_eq_some hfound)
        have hframe := frameOf?_of_attached hr
        rw [hb.attached id f hf r hmem] at hframe
        cases hframe
        have hretain : h.Shifts h' := HeapM.Shifting.retain r _ _ _ e₁
        refine .inl ⟨r, rfl, ⟨hinside, fun q hq => hs.single q r id slot hq hr, .inl hr⟩,
          (Drifts.of_shifts hretain).lasts, hretain.roomy, fun q w hw => ?_, hretain.undisturbed.locals?⟩
        have hbefore := hretain.undisturbed.captured q w hw
        simp only [Effect.captured?]
        split
        · rename_i hq
          rw [← hr, ← hq, hbefore]
        · exact hbefore
      · rename_i hnone
        have hfree : ∀ q, h.captured? q ≠ some (.attached id slot) := by
          intro q hq
          obtain ⟨f', hf', hmem⟩ := hb.listed q id (frameOf?_of_attached hq)
          rw [hf] at hf'
          cases hf'
          exact Array.find?_eq_none.mp hnone q (Array.mem_toList_iff.mp hmem) (isAttachedTo_of_attached hq)
        rcases AllocM.bind_eq_ok e with ⟨p, h₂, e₁, e⟩ | ⟨err, e₁, rfl⟩
        · rcases AllocM.reserve_cases e₁ with ⟨p', h₁, hres, hready, ht⟩ | ⟨⟨_, hres⟩, _⟩
          · cases hres
            rw [AllocM.get_bind] at e
            split at e
            · rcases AllocM.bind_eq_ok e with ⟨_, _, hfault, _⟩ | ⟨_, hfault, _⟩
              · cases hfault
              · cases hfault
            · obtain ⟨r, h₃, e₂, e⟩ := AllocM.lift_bind_eq_ok e
              rcases AllocM.bind_eq_ok e with ⟨_, h₄, e₃, e⟩ | ⟨_, e₃, _⟩
              · obtain ⟨rfl, rfl⟩ := AllocM.pure_eq_ok e
                obtain ⟨_, rfl⟩ := AllocM.modify_eq_ok e₃
                obtain ⟨hlasts, hroomy, hcaptured, hlocals⟩ := hready.putVariable ht e₂
                have hnew := (AllocM.Tracks.reserve _ _ _ _ e₁).contains_of_install e₂
                refine .inl ⟨r, rfl, ⟨hinside, fun q hq => absurd hq (hfree q), .inr hnew⟩,
                  hlasts.trans (.of_same (fun _ => rfl) fun _ => rfl), fun hr => (hroomy hr).of_slots rfl rfl,
                  hcaptured, fun j => ?_⟩
                rw [Effect.locals?, ← hlocals j, locals?, locals?, FrameTable.get?_modify]
                split
                · rw [Option.map_map]
                  rfl
                · rfl
              · cases e₃
          · cases hres
        · rcases AllocM.reserve_cases e₁ with ⟨_, _, hres, _⟩ | ⟨_, hready⟩
          · cases hres
          · exact .inr ⟨⟨err, rfl⟩, hready.turns⟩
    · exact (AllocM.fault_eq_ok e).elim

/-! ## Entering and popping frames -/

theorem Bound.turns_of_pushFrame {locals : Array Value} {res : Except OutOfMemory FrameId} (hb : h.Bound)
    (e : (AllocM.pushFrame locals).run h = .ok (res, h')) :
    (∃ id, res = .ok id ∧ Turns T (.enter id locals) h h') ∨
      (∃ err, res = .error err) ∧ Turns T .none h h' := by
  rcases AllocM.bind_eq_ok e with ⟨_, h₁, e₁, e₂⟩ | ⟨err, e₁, rfl⟩
  · rcases AllocM.tryCatch_eq_ok e₁ with ⟨_, e₁, _⟩ | ⟨_, _, _, e₁⟩
    · obtain ⟨-, hrun⟩ | ⟨_, hrun⟩ := reserveFrame_cases (Size.frameWithLocals locals.size) h
      · rw [hrun] at e₁
        cases e₁
        obtain ⟨id, e₂, rfl⟩ := AllocM.lift_eq_ok e₂
        let size := Size.frameWithLocals locals.size
        have hpush : id = (h.frames.push ⟨locals, #[], size⟩).1 ∧
            h' = { h with used := h.used + size, frames := (h.frames.push ⟨locals, #[], size⟩).2 } := by
          cases e₂
          exact ⟨rfl, rfl⟩
        obtain ⟨rfl, rfl⟩ := hpush
        refine .inl ⟨_, rfl, ?_, .of_same (fun _ => rfl) fun _ => rfl, fun hr => hr.of_slots rfl rfl,
          fun _ _ hv => hv, fun j => ?_⟩
        · rw [Effect.Fits, locals?, hb.tidy.get?_new]
          rfl
        · rw [locals?, Effect.locals?, hb.tidy.get?_push]
          split
          · rfl
          · rfl
      · rw [hrun] at e₁
        cases e₁
    · obtain ⟨_, _, _, e₁⟩ := AllocM.lift_bind_eq_ok e₁
      cases e₁
  · have hgive : AllocM.Drifts T (tryCatch (AllocM.reserveFrame (Size.frameWithLocals locals.size)) fun err => do
        HeapM.freeValues locals
        throw err) :=
      .tryCatch (.of_shifting (.reserveFrame _)) fun _ => .bind (.shift (.freeValues locals)) fun _ => .throw _
    exact .inr ⟨⟨err, rfl⟩, (hgive _ _ _ e₁).turns⟩

/-- A cell that is no layout gets another body. -/
theorem Updates.lasts {c c' : Cell} (hu : Updates r (some c') h h') (hc : h.cell? r = some c)
    (hfrees : ∀ i, h.frees i ≤ h'.frees i) (hk : c.body.kind ≠ .shape) : Lasts T h h' := by
  refine ⟨hfrees, fun i b hb _ => ?_⟩
  by_cases hi : i = r.index
  · rw [hi, bodyAt?_of_tenant? (tenant?_of_cell? hc)] at hb
    cases hb
    refine ⟨c'.body, by rw [hi, bodyAt?_of_tenant? hu.tenant_self], fun t ht _ => ?_⟩
    rw [ht] at hk
    exact absurd rfl hk
  · exact ⟨b, by rw [bodyAt?, hu.tenant_other hi]; exact hb, fun _ _ _ => rfl⟩

theorem Roomy.detach {st st' : Heap × Array Value} (hr : st.1.Roomy) (e : Heap.detach id st r = .ok st') :
    st'.1.Roomy := by
  obtain ⟨⟨h₁, locals⟩, e₁, e⟩ := except_bind_eq_ok e
  obtain ⟨c, hc, e⟩ := except_bind_eq_ok e
  have hmoved : h₁.Roomy := by
    unfold Heap.detachAt at e₁
    split at e₁
    · cases e₁
    · split at e₁
      · cases e₁
      · split at e₁
        · cases e₁
        · cases e₁
          exact hr.modifyCell r.index _
      · cases e₁
        exact hr
  split at e
  · cases e
  · cases e
    exact (Shifts.joinLive (cellAt_eq_ok_iff.mp hc)).moves (E := fun _ => False) |>.roomy hmoved

/-- The variables of a frame that is popped take over the locals they are at. -/
theorem detachAll_views {rest : List Handle} {locals locals' : Array Value} (hnodup : rest.Nodup)
    (hat : ∀ r ∈ rest, ∃ slot, h.captured? r = some (.attached id slot))
    (hsingle : ∀ r q slot, h.captured? r = some (.attached id slot) →
      h.captured? q = some (.attached id slot) → r = q)
    (e : rest.foldlM (Heap.detach id) (h, locals) = .ok (h', locals')) :
    Lasts T h h' ∧ (h.Roomy → h'.Roomy) ∧ h'.frames = h.frames ∧ ∀ q w, h'.captured? q = some w →
      (q ∈ rest ∧ ∃ slot v, h.captured? q = some (.attached id slot) ∧ locals[slot]? = some v ∧
        w = .detached v) ∨ q ∉ rest ∧ h.captured? q = some w := by
  induction rest generalizing h locals with
  | nil =>
    cases e
    exact ⟨.refl _, fun hr => hr, rfl, fun q w hw => .inr ⟨List.not_mem_nil, hw⟩⟩
  | cons r rest ih =>
    obtain ⟨hnot, hnodup⟩ := List.nodup_cons.mp hnodup
    obtain ⟨⟨h₁, locals₁⟩, e₁, e⟩ := except_bind_eq_ok e
    obtain ⟨slot, hr⟩ := hat r List.mem_cons_self
    obtain ⟨c, hc, hb⟩ := captured?_eq_some_iff.mp hr
    obtain ⟨v, ticket, hv, rfl, hu, hrest⟩ := detach_eq_ok hc hb e₁
    have hself : h₁.captured? r = some (.detached v) := captured?_iff_body?.mpr hu.body_self
    have hother : ∀ q, q ≠ r → h₁.captured? q = h.captured? q := fun q hq => by
      rw [captured?, captured?, hu.body_other hq]
    have hback : ∀ q k, h₁.captured? q = some (.attached id k) →
        q ≠ r ∧ h.captured? q = some (.attached id k) := by
      intro q k hq
      have hne : q ≠ r := fun hqr => by
        rw [hqr, hself] at hq
        cases hq
      exact ⟨hne, (hother q hne).symm.trans hq⟩
    obtain ⟨hlasts, hroomy, hframes, hviews⟩ := ih hnodup
      (fun q hq => by
        rw [hother q fun hqr => hnot (hqr ▸ hq)]
        exact hat q (List.mem_cons_of_mem r hq))
      (fun p q k hp hq => hsingle p q k (hback p k hp).2 (hback q k hq).2) e
    have hlast : Lasts T h h₁ := by
      refine hu.lasts hc (Evolves.detach e₁).frees ?_
      rw [hb]
      exact nofun
    refine ⟨hlast.trans hlasts, fun hr => hroomy (Roomy.detach (show (h, locals).1.Roomy from hr) e₁),
      hframes.trans hrest.books.frames, fun q w hw => ?_⟩
    rcases hviews q w hw with ⟨hq, k, w', hqk, hk, rfl⟩ | ⟨hq, hw⟩
    · obtain ⟨hne, hqk⟩ := hback q k hqk
      have hslots : slot ≠ k := fun hsk => hne (hsingle q r k hqk (hsk ▸ hr))
      rw [Array.getElem?_setIfInBounds, if_neg hslots] at hk
      exact .inl ⟨List.mem_cons_of_mem r hq, k, w', hqk, hk, rfl⟩
    · by_cases hqr : q = r
      · rw [hqr, hself] at hw
        cases hw
        exact .inl ⟨hqr ▸ List.mem_cons_self, slot, v, hqr ▸ hr, hv, rfl⟩
      · rw [hother q hqr] at hw
        refine .inr ⟨fun hmem => ?_, hw⟩
        rcases List.mem_cons.mp hmem with hmem | hmem
        · exact hqr hmem
        · exact hq hmem

/-- The frame is off the table and its variables are detached. -/
theorem Seated.turns_of_detachAll {f : Frame} {locals : Array Value} (hs : h.Seated) (hb : h.Bound)
    (hf : h.frames.get? id = some f) (e : f.openVariables.toList.foldlM (Heap.detach id)
      ({ h with frames := h.frames.pop id.index }, f.locals) = .ok (h', locals)) :
    Turns T (.leave id) h h' := by
  have hat : ∀ r ∈ f.openVariables.toList, ∃ slot, h.captured? r = some (.attached id slot) := by
    intro r hr
    obtain ⟨c, slot, hc, hbody⟩ := attached_of_frameOf? (hb.attached id f hf r hr)
    exact ⟨slot, captured?_eq_some_iff.mpr ⟨c, hc, hbody⟩⟩
  obtain ⟨hlasts, hroomy, hframes, hviews⟩ := detachAll_views (T := T)
    (h := { h with frames := h.frames.pop id.index }) (hb.nodup id f hf) hat
    (fun r q slot => hs.single r q id slot) e
  refine ⟨⟨f.locals, by rw [locals?, hf]; rfl⟩, hlasts.after_slots rfl,
    fun hr => hroomy (hr.of_slots rfl rfl), fun q w hw => ?_, fun j => ?_⟩
  · rcases hviews q w hw with ⟨_, slot, v, hq, hv, rfl⟩ | ⟨hq, hw⟩
    · have hq : h.captured? q = some (.attached id slot) := hq
      simp only [Effect.captured?, hq, if_true, local?, locals?, hf, Option.map_some, Option.bind_some, hv]
    · have hw : h.captured? q = some w := hw
      simp only [Effect.captured?, hw]
      split
      · rename_i j slot heq
        cases heq
        rw [if_neg]
        intro hj
        obtain ⟨f', hf', hmem⟩ := hb.listed q id (hj ▸ frameOf?_of_attached hw)
        rw [hf] at hf'
        cases hf'
        exact hq hmem
      · rfl
  · rw [locals?, hframes, Effect.locals?, FrameTable.get?_pop]
    by_cases hj : j = id
    · rw [if_pos (by rw [hj]), if_pos hj]
      rfl
    · rw [if_neg hj, locals?]
      split
      · rename_i hindex
        cases hg : h.frames.get? j with
        | none => rfl
        | some g => exact absurd (FrameTable.id_eq_of_get? hf hg hindex.symm) hj
      · rfl

/-- Popping a frame detaches the variables at its locals, and leaves the other frames. -/
theorem Seated.turns_of_popFrame (hs : h.Seated) (hb : h.Bound) (e : HeapM.popFrame id h = .ok (u, h')) :
    Turns T (.leave id) h h' := by
  obtain ⟨f, locals, h₁, h₂, hf, hdetach, e₁, e₂⟩ := popFrame_eq_ok e
  exact (hs.turns_of_detachAll hb hf hdetach).then
    ((HeapM.Shifting.freeValues _ _ _ _ e₁).trans (HeapM.Shifting.uncharge _ _ _ _ e₂))

end Heap

/-! ## Operations -/

/-- The layout a call edits in place if nobody else has it. -/
def Call.layout? (h : Heap) : Call → Option Handle
  | addProperty shape _ _ => some shape
  | prepareUpdate shape => some shape
  | defineProperty r _ _ _ | defineAccessor r _ _ _ _ | defineCaptured r _ _ _ | setProperty r _ _
  | deleteProperty r _ | compactProperties r | setPrototype r _ => (h.object? r).map (·.shape)
  | _ => none

namespace Operation

/-- The layout an operation edits in place if nobody else has it. -/
def layout? (h : Heap) : Operation → Option Handle
  | call c => c.layout? h
  | get _ _ _ => none
  | set _ r _ _ => (h.object? r).map (·.shape)

/-- The slot of the layout an operation edits in place. -/
def edits (h : Heap) (op : Operation) (i : Nat) : Prop := ∃ s, op.layout? h = some s ∧ h.Sole s i

/-- The variable an operation puts a value into, and the value. -/
def assigns? (h : Heap) : Operation → Option (Handle × Value)
  | call (.setVariable r v) => some (r, v)
  | call (.setProperty r atom v) => (h.assignee? r atom).map (·, v)
  | set cache r atom v =>
    match cache.direct? h atom r with
    | some _ => none
    | none => (h.assignee? r atom).map (·, v)
  | _ => none

/-- What an operation with this answer does to a variable or a frame. -/
def effect (h : Heap) (op : Operation) (reply : Reply) : Effect :=
  match op, reply with
  | call (.pushFrame locals), .frame id => .enter id locals
  | call (.popFrame id), _ => .leave id
  | call (.setLocal id slot v), _ => .write id slot v
  | call (.captureVariable id slot), .handle r => .attach r id slot
  | call (.newVariable v), .handle r => .create r v
  | op, _ => (op.assigns? h).elim .none fun p => h.assigned p.1 p.2

end Operation

namespace Heap

variable {x : Ledger} {T : Nat → Prop} {h h' : Heap} {reply : Reply} {r : Handle} {α : Type}

theorem turns_of_answer {act : HeapM α} {f : α → Reply} (hact : act.Shifting)
    (e : Call.answer act f h = .ok (reply, h')) : Turns T .none h h' := by
  obtain ⟨a, ha, _⟩ := Call.answer_eq_ok e
  exact (hact _ _ _ ha).turns

theorem turns_of_attempt {act : AllocM α} {f : α → Reply}
    (hd : ∀ res h₁, act.run h = .ok (res, h₁) → h.Drifts T h₁)
    (e : Call.attempt act f h = .ok (reply, h')) : Turns T .none h h' := by
  rcases Call.attempt_eq_ok e with ⟨a, ha, _⟩ | ⟨err, ha, _⟩
  · exact (hd _ _ ha).turns
  · exact (hd _ _ ha).turns

/-- A call whose answer tells its effect. -/
theorem turns_of_result {act : AllocM α} {f : α → Reply} {ef : α → Effect}
    (hact : ∀ res h₁, act.run h = .ok (res, h₁) →
      (∃ a, res = .ok a ∧ Turns T (ef a) h h₁) ∨ (∃ err, res = .error err) ∧ Turns T .none h h₁)
    (e : Call.attempt act f h = .ok (reply, h')) :
    (∃ a, reply = f a ∧ Turns T (ef a) h h') ∨ (∃ err, reply = .exhausted err) ∧ Turns T .none h h' := by
  rcases Call.attempt_eq_ok e with ⟨a, ha, hreply⟩ | ⟨err, ha, hreply⟩
  · rcases hact _ _ ha with ⟨_, hres, ht⟩ | ⟨⟨_, hres⟩, _⟩
    · cases hres
      exact .inl ⟨a, hreply, ht⟩
    · cases hres
  · rcases hact _ _ ha with ⟨_, hres, _⟩ | ⟨_, ht⟩
    · cases hres
    · exact .inr ⟨⟨err, hreply⟩, ht⟩

theorem SoleOf.edits {i : Nat} (hi : h.SoleOf r i) :
    ∃ s, (h.object? r).map (·.shape) = some s ∧ h.Sole s i := by
  obtain ⟨o, ho, hi⟩ := hi
  exact ⟨o.shape, by rw [object?_iff_body?.mpr ho]; rfl, hi⟩

/-- A call on an object edits the layout of that object. -/
theorem turns_of_object {act : AllocM α} {f : α → Reply} {T : Nat → Prop}
    (hd : ∀ res h₁, act.run h = .ok (res, h₁) → h.Drifts (h.SoleOf r) h₁)
    (hT : ∀ i, (∃ s, (h.object? r).map (·.shape) = some s ∧ h.Sole s i) → T i)
    (e : Call.attempt act f h = .ok (reply, h')) : Turns T .none h h' :=
  turns_of_attempt (fun res h₁ e₁ => (hd res h₁ e₁).mono fun i hi => hT i hi.edits) e

/-- An assignment has the effect of putting the value into the variable the property stands for, if it
stands for one. -/
theorem turns_of_setProperty {atom : Atom} {v : Value} {res : Except OutOfMemory Bool}
    (e : (AllocM.setProperty r atom v).run h = .ok (res, h')) :
    Turns (fun i => ∃ s, (h.object? r).map (·.shape) = some s ∧ h.Sole s i)
      (((h.assignee? r atom).map (·, v)).elim .none fun p => h.assigned p.1 p.2) h h' := by
  rcases setProperty_cases e with ⟨y, u, hy, _, e⟩ | ⟨hnone, hd⟩
  · rw [hy]
    exact turns_of_setVariable e
  · rw [hnone]
    exact (hd.mono fun i hi => hi.edits).turns

/-- Every call on a valid heap has the effect that can be told from it and its answer, and edits the one
layout that is the caller's own. -/
theorem Valid.turns_of_call (hv : h.Valid x) (hs : h.Seated) (call : Call)
    (e : call.perform h = .ok (reply, h')) :
    Turns ((Operation.call call).edits h) ((Operation.call call).effect h reply) h h' := by
  have hb := hv.sound.coherent.bound
  cases call with
  | retain r => exact turns_of_answer (.retain r) e
  | release r => exact turns_of_answer (.release r) e
  | dupValue v => exact turns_of_answer (.dupValue v) e
  | freeValue v => exact turns_of_answer (.freeValue v) e
  | root r => exact turns_of_answer (.root r) e
  | cloneRoot x => exact turns_of_answer (.cloneRoot x) e
  | dropRoot x => exact turns_of_answer (.dropRoot x) e
  | flushRoots => exact turns_of_answer .flushRoots e
  | collect => exact turns_of_answer .collect e
  | setMemoryLimit limit =>
    exact turns_of_answer (.modify (f := fun h => h.setMemoryLimit limit) fun _ => .aside rfl rfl rfl rfl rfl) e
  | setThreshold n =>
    exact turns_of_answer (.modify (f := fun h => h.setThreshold n) fun _ => .aside rfl rfl rfl rfl rfl) e
  | setRefused requests =>
    exact turns_of_answer (.modify (f := fun h => h.setRefused requests) fun _ => .aside rfl rfl rfl rfl rfl) e
  | shapeForNewObject proto => exact turns_of_attempt (fun _ _ e => (drifts_of_shapeForNewObject e).1) e
  | addProperty shape atom flags =>
    exact turns_of_attempt (fun _ _ e => (drifts_of_addProperty e).mono fun i hi => ⟨shape, rfl, hi⟩) e
  | prepareUpdate shape =>
    exact turns_of_attempt (fun _ _ e => (drifts_of_prepareUpdate e).1.mono fun i hi => ⟨shape, rfl, hi⟩) e
  | newObject proto => exact turns_of_attempt (drifts_of_newObject proto _) e
  | newObjectFromShape shape payload => exact turns_of_attempt (fun _ _ e => drifts_of_newObjectFromShape e) e
  | getProperty r atom => exact turns_of_answer (.getProperty r atom) e
  | readSlot r offset => exact turns_of_answer (.readSlot r offset) e
  | writeSlot r offset v => exact turns_of_answer (.writeSlot r offset v) e
  | defineProperty r atom flags v =>
    exact turns_of_object (fun _ _ e => drifts_of_defineOwn e) (fun _ hi => hi) e
  | defineAccessor r atom flags getter setter =>
    exact turns_of_object (fun _ _ e => hv.drifts_of_defineAccessor e) (fun _ hi => hi) e
  | defineCaptured r atom flags x =>
    exact turns_of_object (fun _ _ e => drifts_of_defineOwn e) (fun _ hi => hi) e
  | setProperty r atom v =>
    rcases Call.attempt_eq_ok e with ⟨_, e, _⟩ | ⟨_, e, _⟩
    · exact turns_of_setProperty e
    · exact turns_of_setProperty e
  | deleteProperty r atom =>
    exact turns_of_object (fun _ _ e => hv.drifts_of_deleteProperty e) (fun _ hi => hi) e
  | compactProperties r =>
    exact turns_of_object (fun _ _ e => drifts_of_compactProperties e) (fun _ hi => hi) e
  | setPrototype r proto =>
    exact turns_of_object (fun _ _ e => drifts_of_setPrototype e) (fun _ hi => hi) e
  | preventExtensions r => exact turns_of_answer (.preventExtensions r) e
  | newArray ctx => exact turns_of_attempt (drifts_of_newArray ctx _) e
  | arrayPush r v => exact turns_of_attempt (drifts_of_arrayPush r v _) e
  | newBytecode name realm pool => exact turns_of_attempt (fun _ _ e => drifts_of_newBytecode e) e
  | newClosure proto bytecode captured home =>
    exact turns_of_attempt (drifts_of_newClosure proto bytecode captured home _) e
  | newSuspension receiver values resolve reject =>
    exact turns_of_attempt (fun _ _ e => drifts_of_newSuspension e) e
  | finishSuspension r => exact turns_of_answer (.finishSuspension r) e
  | newRealm => exact turns_of_attempt (fun _ _ e => hv.drifts_of_newRealm e) e
  | pushFrame locals =>
    rcases turns_of_result (T := (Operation.call (.pushFrame locals)).edits h)
      (fun _ _ e => hb.turns_of_pushFrame e) e with
      ⟨_, rfl, ht⟩ | ⟨⟨_, rfl⟩, ht⟩
    · exact ht
    · exact ht
  | getLocal id slot => exact turns_of_answer (.getLocal id slot) e
  | setLocal id slot v =>
    obtain ⟨_, e, _⟩ := Call.answer_eq_ok e
    exact turns_of_setLocal e
  | captureVariable id slot =>
    rcases turns_of_result (T := (Operation.call (.captureVariable id slot)).edits h)
      (fun _ _ e => hs.turns_of_captureVariable hb e) e with
      ⟨_, rfl, ht⟩ | ⟨⟨_, rfl⟩, ht⟩
    · exact ht
    · exact ht
  | popFrame id =>
    obtain ⟨_, e, _⟩ := Call.answer_eq_ok e
    exact hs.turns_of_popFrame hb e
  | newVariable v =>
    rcases turns_of_result (T := (Operation.call (.newVariable v)).edits h)
      (fun _ _ e => turns_of_newVariable e) e with
      ⟨_, rfl, ht⟩ | ⟨⟨_, rfl⟩, ht⟩
    · exact ht
    · exact ht
  | getVariable r => exact turns_of_answer (.getVariable r) e
  | setVariable r v =>
    obtain ⟨_, e, _⟩ := Call.answer_eq_ok e
    exact turns_of_setVariable e

/-- Every operation on a valid heap has the effect that can be told from it and its answer, and edits the
one layout that is the caller's own. -/
theorem Valid.turns (hv : h.Valid x) (hs : h.Seated) (op : Operation)
    (e : op.perform h = .ok (reply, h')) : Turns (op.edits h) (op.effect h reply) h h' := by
  cases op with
  | call c => exact hv.turns_of_call hs c e
  | get cache r atom =>
    obtain ⟨v, cache', e, _⟩ := Operation.get_eq_ok e
    exact (HeapM.Shifting.getCached cache r atom _ _ _ e).turns
  | set cache r atom v =>
    obtain ⟨res, cache', e, _⟩ := Operation.set_eq_ok e
    simp only [Operation.effect, Operation.assigns?]
    rcases setCached_cases e with ⟨i, u, hdirect, e, _⟩ | ⟨hdirect, e⟩
    · rw [hdirect]
      exact (HeapM.Shifting.writeSlot r i v _ _ _ e).turns
    · rw [hdirect]
      exact turns_of_setProperty e

end Heap

/-! ## The heaps of clients -/

namespace Client

open Heap

variable {allowed : Operation → Prop} {config : Config} {h : Heap} {x : Ledger}

/-- The vacant slots of a client's heap are vacant, and its attached variables at locals of their own. -/
theorem Reached.kept (hr : Reached allowed config h x) : h.Roomy ∧ h.Seated := by
  induction hr with
  | start => exact ⟨roomy_new config, seated_new config⟩
  | next hr op _ _ e ih =>
    obtain ⟨lost, _, hv⟩ := hr.valid
    have ht := hv.turns ih.2 op e
    exact ⟨ht.roomy ih.1, ht.seated ih.2⟩

end Client

end ObjectMemory
