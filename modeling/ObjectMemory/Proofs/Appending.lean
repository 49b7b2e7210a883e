import ObjectMemory.Proofs.Holes
set_option autoImplicit false

/-!
# The check of an added property

To add a property, an object is given a shape with one more entry, and then a slot for it.  The shape may
be found in the table, copied, or changed in place; memory may run out at each of these steps, and a
collection may run before.  At the end it is checked that the entry is opposite the slot.

The main statement is that the check never fails (`Heap.Valid.upheld_of_adds`): the index an extension
answers is the number of entries the layout had, which is the number of slots the object had.
-/

namespace ObjectMemory

namespace HeapM

variable {strict : Prop} {h : Heap} {r : Handle}

theorem upheld_retain : Upheld strict (retain r h) := upheld_retainOption (some r)

theorem upheld_register : Upheld strict (register r h) := by
  unfold register
  cases h.shape? r with
  | none => exact ⟨nofun, nofun⟩
  | some t =>
    dsimp only
    split
    · exact ⟨nofun, nofun⟩
    · trivial

end HeapM

namespace AllocM

variable {α : Type} {strict : Prop} {x : Ledger} {n : Nat} {h : Heap} {r : Handle} {atom : Atom}
  {flags : Flags}

theorem upheld_growCell (r : Handle) (n : Nat) (arrays : List Request) :
    Upheld strict ((growCell r n arrays).run h) := by
  refine upheld_bind ?_ fun _ h₁ _ => ?_
  · rw [Heap.chargeCell_run]
    split
    · trivial
    · trivial
  · rw [Heap.ask_run]
    split
    · trivial
    · have hundo : Upheld strict (HeapM.unchargeCell r n h₁) := HeapM.upheld_unchargeCell r n
      split
      · trivial
      · rename_i e
        rw [e] at hundo
        exact hundo

theorem upheld_growShape (count : Nat) : Upheld strict ((growShape r count).run h) :=
  upheld_lift_bind HeapM.upheld_shape fun _ _ _ => upheld_bind (upheld_growCell r _ _) fun _ _ _ =>
    upheld_lift (HeapM.upheld_modifyShape _)

/-- A shape that is extended in place goes back into the table, if it was there. -/
theorem upheld_extendShape : Upheld strict ((extendShape r atom flags).run h) := by
  refine upheld_lift_bind HeapM.upheld_shape fun t h₁ _ => ?_
  have hpush : ∀ (k : Nat) h₂, Upheld strict
      (((liftM (HeapM.modifyShape r (·.push atom flags)) : AllocM Unit) >>= fun _ => pure k).run h₂) := fun k h₂ =>
    upheld_lift_bind (HeapM.upheld_modifyShape _) fun _ _ _ => trivial
  dsimp only
  cases t.isHashed with
  | false =>
    simp only [Bool.false_eq_true, if_false]
    split
    · exact upheld_bind (upheld_tryCatch (upheld_growShape _) fun _ _ _ => trivial) fun _ h₂ _ => hpush _ h₂
    · exact hpush _ h₁
  | true =>
    simp only [if_true]
    have hrehash : ∀ hash (k : Nat) h₂, Upheld strict
        (((liftM (HeapM.modifyShape r fun t => { t with hash := hash }) :
        AllocM Unit) >>= fun _ => (liftM (HeapM.register r) : AllocM Unit) >>= fun _ =>
        (liftM (HeapM.modifyShape r (·.push atom flags)) : AllocM Unit) >>= fun _ => pure k).run h₂) :=
      fun hash k h₂ => upheld_lift_bind (HeapM.upheld_modifyShape _) fun _ _ _ =>
        upheld_lift_bind HeapM.upheld_register fun _ h₃ _ => hpush k h₃
    refine upheld_lift_bind HeapM.upheld_unregister fun _ h₂ _ => ?_
    split
    · refine upheld_bind (upheld_tryCatch (upheld_growShape _) fun _ h₃ _ => ?_) fun _ h₃ _ => hrehash _ _ h₃
      exact upheld_lift_bind HeapM.upheld_register fun _ _ _ => trivial
    · exact hrehash _ _ h₂

theorem upheld_reserveProperty : Upheld strict ((reserveProperty r).run h) := by
  refine upheld_lift_bind HeapM.upheld_object fun o h₁ _ => ?_
  dsimp only
  split
  · exact upheld_bind (upheld_growCell r _ _) fun _ _ _ => upheld_lift (HeapM.upheld_modifyObject _)
  · trivial

end AllocM

namespace Heap

variable {strict : Prop} {x : Ledger} {n : Nat} {h h' : Heap} {r s old : Handle} {o : Object} {t : Shape}
  {atom : Atom} {flags : Flags} {p : Property}

theorem Sound.upheld_releaseAll {rs : List Handle} (hs : h.Sound (x.plus rs) n) :
    Upheld strict (HeapM.releaseAll rs h) := by
  obtain ⟨_, e, _⟩ := hs.releaseAll
  exact upheld_of_ok e

/-- A shape is extended, or another one found or made that takes its place. -/
theorem Sound.upheld_addProperty (hs : h.Sound x n) :
    Upheld strict ((AllocM.addProperty old atom flags).run h) := by
  refine AllocM.upheld_lift_bind HeapM.upheld_shape fun t₀ h₁ e₀ => ?_
  obtain ⟨ht₀, rfl⟩ := shape_eq_ok e₀
  dsimp only
  rw [AllocM.get_bind]
  generalize hfound : (if t₀.isHashed = true then h.sharedTransition? t₀ atom flags else none) = found
  cases found with
  | some new =>
    dsimp only
    split at hfound
    · rename_i hreg
      refine AllocM.upheld_lift_bind HeapM.upheld_retain fun _ h₁ e₁ => ?_
      obtain ⟨t, hext, _, hne, hs₁, _, hold₁, hnew₁⟩ := hs.retain_sharedTransition ht₀ hreg hfound e₁
      refine AllocM.upheld_lift_bind (hs₁.upheld_release hold₁ hnew₁ hne hext.proto) fun _ _ _ => ?_
      exact AllocM.upheld_lift_bind HeapM.upheld_shape fun _ _ _ => trivial
    · cases hfound
  | none =>
    dsimp only
    rw [AllocM.get_bind]
    split
    · refine AllocM.upheld_bind hs.upheld_cloneShape fun new h₁ e₁ => ?_
      obtain ⟨_, t, hres, hnew, hold, hne⟩ | ⟨⟨_, hres⟩, _⟩ := hs.of_cloneShape e₁
      · cases hres
        refine AllocM.upheld_bind (AllocM.upheld_tryCatch AllocM.upheld_extendShape fun err h₂ e₂ => ?_)
          fun index h₂ e₂ => ?_
        · -- the copy is given up again, and the shape it is a copy of has its prototype too
          obtain ⟨hs₂, t₁, ⟨_, hres, _⟩ | ⟨_, hre⟩⟩ := hnew.sound.of_extendShape e₂
          · cases hres
          · cases hnew.shape.symm.trans hre.before
            exact AllocM.upheld_lift_bind (hs₂.upheld_release hre.after
              ((hre.others old (Ne.symm hne)).trans hold) (Ne.symm hne) rfl) fun _ _ _ => trivial
        · rcases AllocM.tryCatch_eq_ok e₂ with ⟨_, e₃, hres⟩ | ⟨_, _, _, e₃⟩
          · cases hres
            obtain ⟨hs₂, t₁, ⟨t₂, _, hre, hext⟩ | ⟨⟨_, hres⟩, _⟩⟩ := hnew.sound.of_extendShape e₃
            · cases hnew.shape.symm.trans hre.before
              refine AllocM.upheld_lift_bind (hs₂.upheld_release
                ((hre.others old (Ne.symm hne)).trans hold) hre.after hne hext.proto) fun _ h₃ _ => ?_
              split
              · refine AllocM.upheld_lift_bind (HeapM.upheld_modifyShape _) fun _ _ _ => ?_
                exact AllocM.upheld_lift_bind HeapM.upheld_register fun _ _ _ => trivial
              · trivial
            · cases hres
          · obtain ⟨_, _, _, e₃⟩ := AllocM.lift_bind_eq_ok e₃
            cases e₃
      · cases hres
    · exact AllocM.upheld_bind AllocM.upheld_extendShape fun _ _ _ => trivial

/-- The new entry is opposite the new slot. -/
theorem Valid.upheld_appendProperty (hv : h.Valid (x.plus p.refs)) (hnames : h.Names p.typedRefs) :
    Upheld strict ((AllocM.appendProperty r atom flags p).run h) := by
  refine AllocM.upheld_bind (AllocM.upheld_tryCatch AllocM.upheld_reserveProperty fun err h₁ e₁ => ?_)
    fun _ h₁ e₁ => ?_
  · exact AllocM.upheld_lift_bind (hv.of_reserveProperty e₁).valid.sound.upheld_releaseAll fun _ _ _ => trivial
  rcases AllocM.tryCatch_eq_ok e₁ with ⟨_, e₁, _⟩ | ⟨_, _, _, e₁⟩
  · have hv₁ := (hv.of_reserveProperty e₁).valid
    have hnames₁ := (AllocM.tracks_reserveProperty r _ _ _ e₁).names (by omega) hv₁.sound hnames
      p.map_typedRefs
    refine AllocM.upheld_lift_bind HeapM.upheld_objectShape fun old h₂ e₂ => ?_
    obtain ⟨o, ho, rfl, rfl⟩ := objectShape_eq_ok e₂
    refine AllocM.upheld_bind (AllocM.upheld_tryCatch hv₁.sound.upheld_addProperty fun err h₂ e₃ => ?_)
      fun q h₂ e₃ => ?_
    · obtain ⟨_, _, _, hres, _⟩ | ⟨_, _, hres, _⟩ | ⟨_, hs₂, hk⟩ := hv₁.sound.of_addProperty e₃
      · cases hres
      · cases hres
      · refine AllocM.upheld_lift_bind (HeapM.upheld_modifyObject _) fun _ h₃ e₄ => ?_
        obtain ⟨o₂, c, hc, hb, _⟩ := modifyObject_eq_ok e₄
        have ho₂ := body?_eq_some_iff.mpr ⟨c, hc, hb⟩
        cases ho.symm.trans (hk.body? ho₂)
        exact AllocM.upheld_lift_bind (hs₂.of_setShape_same ho₂ e₄).1.upheld_releaseAll fun _ _ _ => trivial
    · obtain ⟨s, index⟩ := q
      rcases AllocM.tryCatch_eq_ok e₃ with ⟨_, e₃, hres⟩ | ⟨_, _, _, e₃⟩
      · cases hres
        refine AllocM.upheld_lift_bind (HeapM.upheld_modifyObject _) fun _ h₃ e₄ => ?_
        refine AllocM.upheld_lift_bind (HeapM.upheld_modifyObject _) fun _ h₄ e₅ => ?_
        obtain ⟨t₀, t', hindex, ht₀, _, hseat⟩ := hv₁.of_push hnames₁ ho e₃ e₄ e₅
        refine AllocM.upheld_lift_bind HeapM.upheld_object fun o' h₅ e₆ => ?_
        obtain ⟨ho', rfl⟩ := object_eq_ok e₆
        cases hseat.object.symm.trans ho'
        have hfits := hv₁.laid.fits r o t₀ ho ht₀
        rw [if_neg (by simp [hindex, hfits])]
        trivial
      · obtain ⟨_, _, _, e₃⟩ := AllocM.lift_bind_eq_ok e₃
        obtain ⟨_, _, _, e₃⟩ := AllocM.lift_bind_eq_ok e₃
        cases e₃
  · obtain ⟨_, _, _, e₁⟩ := AllocM.lift_bind_eq_ok e₁
    cases e₁

/-- A property is put in the place of another, which is given up. -/
theorem Valid.upheld_replace {i : Nat} (hv : h.Valid (x.plus p.refs)) (hnames : h.Names p.typedRefs) :
    Upheld strict (((liftM (HeapM.replaceProperty r i p) : AllocM Property) >>= fun old =>
      (liftM (HeapM.releaseProperty old) : AllocM Unit) >>= fun _ => pure true).run h) := by
  refine AllocM.upheld_lift_bind (HeapM.upheld_replaceProperty i p) fun old h₁ e₁ => ?_
  exact AllocM.upheld_lift_bind (hv.of_replaceProperty hnames e₁).1.sound.upheld_releaseAll
    fun _ _ _ => trivial

theorem Valid.upheld_defineOwn (hv : h.Valid (x.plus p.refs)) (hnames : h.Names p.typedRefs) :
    Upheld strict ((AllocM.defineOwn r atom flags p).run h) := by
  refine AllocM.upheld_lift_bind HeapM.upheld_objectShape fun s h₁ e₁ => ?_
  obtain ⟨o, ho, rfl, rfl⟩ := objectShape_eq_ok e₁
  rw [AllocM.get_bind]
  cases h.findProperty? o.shape atom with
  | none =>
    refine AllocM.upheld_lift_bind HeapM.upheld_object fun o' h₁ e₂ => ?_
    obtain ⟨_, rfl⟩ := object_eq_ok e₂
    split
    · exact AllocM.upheld_bind (hv.upheld_appendProperty hnames) fun _ _ _ => trivial
    · exact AllocM.upheld_lift_bind hv.sound.upheld_releaseAll fun _ _ _ => trivial
  | some found =>
    obtain ⟨index, oldFlags⟩ := found
    dsimp only
    split
    · refine AllocM.upheld_bind (AllocM.upheld_tryCatch hv.sound.upheld_ownShape fun err h₁ e₂ => ?_)
        fun s h₁ e₂ => ?_
      · obtain ⟨_, _, _, _, hres, _⟩ | ⟨_, hgave⟩ := hv.of_ownShape e₂
        · cases hres
        · exact AllocM.upheld_lift_bind hgave.valid.sound.upheld_releaseAll fun _ _ _ => trivial
      · rcases AllocM.tryCatch_eq_ok e₂ with ⟨_, e₂, hres⟩ | ⟨_, _, _, e₂⟩
        · cases hres
          obtain ⟨_, _, _, _, hres, htake⟩ | ⟨⟨_, hres⟩, _⟩ := hv.of_ownShape e₂
          · cases hres
            refine AllocM.upheld_lift_bind (HeapM.upheld_modifyShape _) fun _ h₂ e₃ => ?_
            obtain ⟨hv₂, hre⟩ := htake.valid.of_modifyShape (f := (·.setFlags index flags)) htake.shape rfl
              rfl (by simp [Shape.setFlags])
              (admits_of_unshared (htake.wired.setFlags index flags) htake.unshared.isHashed) e₃
            have hnames₁ := (AllocM.tracks_ownShape r _ _ _ e₂).names (by omega) htake.valid.sound hnames
              p.map_typedRefs
            exact hv₂.upheld_replace ((Spares.of_rewrites hre rfl (x.plus p.refs)).names hnames₁)
          · cases hres
        · obtain ⟨_, _, _, e₂⟩ := AllocM.lift_bind_eq_ok e₂
          cases e₂
    · exact hv.upheld_replace hnames

theorem Valid.upheld_defineAccessor {getter setter : Option Handle} (hv : h.Valid x)
    (hnames : h.Names (Property.accessor getter setter).typedRefs) :
    Upheld strict ((AllocM.defineAccessor r atom flags getter setter).run h) := by
  refine AllocM.upheld_lift_bind (HeapM.upheld_retainOption _) fun _ h₁ e₁ => ?_
  refine AllocM.upheld_lift_bind (HeapM.upheld_retainOption _) fun _ h₂ e₂ => ?_
  obtain ⟨hl, _, hnames₂⟩ := hv.of_retainAccessor hnames e₁ e₂
  exact hl.valid.upheld_defineOwn hnames₂

/-! ## Assignments -/

theorem Sound.upheld_setLocal {id : FrameId} {slot : Nat} {v : Value} (hs : h.Sound (x.plus v.ref?.toList) n)
    (hnames : h.Names v.typedRef?.toList) : Upheld strict (HeapM.setLocal id slot v h) := by
  unfold HeapM.setLocal
  rw [HeapM.get_bind]
  cases hf : h.frames.get? id with
  | none => exact ⟨nofun, nofun⟩
  | some f =>
    dsimp only
    cases hold : f.locals[slot]? with
    | none => exact ⟨nofun, nofun⟩
    | some old => exact (hs.putLocal hnames hf hold).upheld_releaseAll

theorem Sound.upheld_setVariable {v : Value} (hs : h.Sound (x.plus v.ref?.toList) n)
    (hnames : h.Names v.typedRef?.toList) : Upheld strict (HeapM.setVariable r v h) := by
  unfold HeapM.setVariable
  rw [HeapM.get_bind]
  cases hvar : h.captured? r with
  | none => exact ⟨nofun, nofun⟩
  | some w =>
    cases w with
    | detached old => exact (hs.putVariable hnames hvar).1.upheld_releaseAll
    | attached id slot => exact hs.upheld_setLocal hnames

theorem Valid.upheld_writeSlot {i : Nat} {v : Value} (hv : h.Valid (x.plus v.ref?.toList))
    (hnames : h.Names v.typedRef?.toList) : Upheld strict (HeapM.writeSlot r i v h) := by
  refine HeapM.upheld_bind HeapM.upheld_object fun o h₁ e₁ => ?_
  obtain ⟨ho, rfl⟩ := object_eq_ok e₁
  cases hq : o.properties[i]? with
  | none => exact ⟨nofun, nofun⟩
  | some q =>
    cases q with
    | value old =>
      refine HeapM.upheld_bind (HeapM.upheld_modifyObject _) fun _ h₁ e₂ => ?_
      have hput := Valid.setProperty (p := .value v) hv ho hq hnames e₂
      exact hput.1.sound.upheld_releaseAll
    | captured y => exact ⟨nofun, nofun⟩
    | accessor getter setter => exact ⟨nofun, nofun⟩

theorem Valid.upheld_setProperty {v : Value} (hv : h.Valid (x.plus v.ref?.toList))
    (hnames : h.Names v.typedRef?.toList) : Upheld strict ((AllocM.setProperty r atom v).run h) := by
  unfold AllocM.setProperty
  rw [AllocM.get_bind]
  cases h.findOwn? r atom with
  | none => exact Valid.upheld_defineOwn (p := .value v) hv hnames
  | some found =>
    obtain ⟨index, flags⟩ := found
    dsimp only
    split
    · exact AllocM.upheld_lift_bind hv.sound.upheld_releaseAll fun _ _ _ => trivial
    · split
      · refine AllocM.upheld_lift_bind HeapM.upheld_object fun o h₁ e₁ => ?_
        obtain ⟨_, rfl⟩ := object_eq_ok e₁
        have hodd : ∀ cause, ((strict → cause ≠ .assertion) ∧ ∀ a, cause ≠ .entryMissing a) →
            Upheld strict ((liftM (HeapM.fault (α := Bool) cause) : AllocM Bool).run h) := fun _ hne =>
          AllocM.upheld_lift hne
        cases o.properties[index]? with
        | none => exact hodd _ ⟨nofun, nofun⟩
        | some q =>
          cases q with
          | captured y =>
            exact AllocM.upheld_lift_bind (hv.sound.upheld_setVariable hnames) fun _ _ _ => trivial
          | value w => exact hodd _ ⟨nofun, nofun⟩
          | accessor getter setter => exact hodd _ ⟨nofun, nofun⟩
      · exact AllocM.upheld_lift_bind (hv.upheld_writeSlot hnames) fun _ _ _ => trivial

theorem Valid.upheld_setRecording {c : InlineCache} {v : Value} (hv : h.Valid (x.plus v.ref?.toList))
    (hnames : h.Names v.typedRef?.toList) : Upheld strict ((AllocM.setRecording c r atom v).run h) := by
  refine AllocM.upheld_bind (hv.upheld_setProperty hnames) fun done h₁ _ => ?_
  cases done with
  | false => trivial
  | true =>
    rw [if_pos rfl, AllocM.get_bind]
    split
    · split
      · trivial
      · trivial
    · trivial

theorem Valid.upheld_setCached {c : InlineCache} {v : Value} (hv : h.Valid (x.plus v.ref?.toList))
    (hnames : h.Names v.typedRef?.toList) : Upheld strict (AllocM.setCached c r atom v h) := by
  unfold AllocM.setCached
  rw [HeapM.get_bind]
  generalize c.lookup h atom r = answer
  obtain ⟨hit?, c₁⟩ := answer
  refine HeapM.upheld_bind (m := (AllocM.setAnswered hit? c₁ r atom v).run) ?_ fun res h₁ _ => ?_
  · unfold AllocM.setAnswered
    split
    · split
      · exact AllocM.upheld_lift_bind (hv.upheld_writeSlot hnames) fun _ _ _ => trivial
      · exact hv.upheld_setRecording hnames
    · exact hv.upheld_setRecording hnames
  · cases res with
    | ok done => trivial
    | error err => trivial

end Heap

/-! ## Operations -/

namespace Call

variable {α : Type} {strict : Prop} {h : Heap}

theorem upheld_attempt {act : AllocM α} {f : α → Reply} (hact : Upheld strict (act.run h)) :
    Upheld strict (attempt act f h) := by
  refine HeapM.upheld_bind (m := act.run) hact fun res _ _ => ?_
  cases res with
  | ok a => trivial
  | error err => trivial

end Call

namespace Heap

variable {strict : Prop} {x : Ledger} {h : Heap}

theorem Valid.upheld_call {call : Call} {atom : Atom} (hadds : call.adds? = some atom)
    (hv : h.Valid (x.plus call.consumed)) (hn : h.Names call.named) : Upheld strict (call.perform h) := by
  cases call with
  | addProperty shape atom flags => exact Call.upheld_attempt hv.sound.upheld_addProperty
  | defineProperty r atom flags v =>
    exact Call.upheld_attempt (Valid.upheld_defineOwn (p := .value v) hv hn)
  | defineAccessor r atom flags getter setter =>
    have hv : h.Valid x := hv
    exact Call.upheld_attempt (hv.upheld_defineAccessor hn)
  | defineCaptured r atom flags y =>
    exact Call.upheld_attempt (Valid.upheld_defineOwn (p := .captured y) hv hn)
  | setProperty r atom v => exact Call.upheld_attempt (Valid.upheld_setProperty hv hn)
  | _ => cases hadds

/-- No operation that may add a property fails the check. -/
theorem Valid.upheld_of_adds {op : Operation} {atom : Atom} (hadds : op.adds? = some atom)
    (hv : h.Valid (x.plus op.consumed)) (hn : h.Names op.named) : Upheld strict (op.perform h) := by
  cases op with
  | call c => exact Valid.upheld_call hadds hv hn
  | get cache r atom => cases hadds
  | set cache r atom v =>
    refine HeapM.upheld_bind (Valid.upheld_setCached hv hn) fun q h₁ _ => ?_
    obtain ⟨res, c⟩ := q
    cases res with
    | ok done => trivial
    | error err => trivial

end Heap

end ObjectMemory
