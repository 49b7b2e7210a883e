import ObjectMemory.Heap.Frames
import ObjectMemory.Proofs.Slots
set_option autoImplicit false

/-!
# What the primitives did

A primitive that ended well found what it asked for and changed just what it is for: each has one lemma
that says so, faults left out.  What is proved further on of a primitive that ended well is proved
through its lemma.
-/

namespace ObjectMemory.Heap

variable {h h' : Heap} {r s : Handle} {t : Shape} {o : Object} {u : Unit} {id : FrameId}

/-! ## Shapes -/

theorem shape_eq_ok (e : HeapM.shape s h = .ok (t, h')) : h.body? s = some (.shape t) ∧ h = h' := by
  obtain ⟨e, rfl⟩ := HeapM.read_eq_ok e
  cases ht : h'.shape? s with
  | none =>
    rw [ht] at e
    cases e
  | some t' =>
    rw [ht] at e
    cases e
    exact ⟨shape?_iff_body?.mp ht, rfl⟩

theorem modifyShape_eq_ok {f : Shape → Shape} (e : HeapM.modifyShape s f h = .ok (u, h')) :
    ∃ t c, h.cell? s = some c ∧ c.body = .shape t ∧ h' = h.modifyShapeAt s.index f := by
  unfold HeapM.modifyShape at e
  cases ht : h.shape? s with
  | none =>
    rw [ht] at e
    cases e
  | some t =>
    rw [ht] at e
    cases e
    obtain ⟨c, hc, hb⟩ := shape?_eq_some_iff.mp ht
    exact ⟨t, c, hc, hb, rfl⟩

theorem register_eq_ok (e : HeapM.register s h = .ok (u, h')) :
    ∃ t c, h.cell? s = some c ∧ c.body = .shape t ∧ t.isHashed = false ∧
      h' = { h.modifyShapeAt s.index fun t => { t with isHashed := true } with
        table := h.table.insert t.hash s } := by
  unfold HeapM.register at e
  cases ht : h.shape? s with
  | none =>
    rw [ht] at e
    cases e
  | some t =>
    rw [ht] at e
    obtain ⟨c, hc, hb⟩ := shape?_eq_some_iff.mp ht
    dsimp only at e
    cases hreg : t.isHashed with
    | true =>
      rw [hreg] at e
      cases e
    | false =>
      rw [hreg] at e
      cases e
      exact ⟨t, c, hc, hb, hreg, rfl⟩

theorem unregister_eq_ok (e : HeapM.unregister s h = .ok (u, h')) :
    ∃ t c table, h.cell? s = some c ∧ c.body = .shape t ∧ t.isHashed = true ∧
      h.table.erase? t.hash s = some table ∧
      h' = { h.modifyShapeAt s.index fun t => { t with isHashed := false } with table := table } := by
  unfold HeapM.unregister at e
  cases ht : h.shape? s with
  | none =>
    rw [ht] at e
    cases e
  | some t =>
    rw [ht] at e
    obtain ⟨c, hc, hb⟩ := shape?_eq_some_iff.mp ht
    dsimp only at e
    cases hreg : t.isHashed with
    | false =>
      rw [hreg] at e
      cases e
    | true =>
      rw [hreg, if_pos rfl] at e
      cases herase : h.table.erase? t.hash s with
      | none =>
        rw [herase] at e
        cases e
      | some table =>
        rw [herase] at e
        cases e
        exact ⟨t, c, table, hc, hb, hreg, herase, rfl⟩

/-! ## Objects -/

theorem object_eq_ok (e : HeapM.object r h = .ok (o, h')) :
    h.body? r = some (.object o) ∧ h = h' := by
  obtain ⟨e, he⟩ := HeapM.read_eq_ok e
  cases ho : h.object? r with
  | none =>
    rw [ho] at e
    cases e
  | some o' =>
    rw [ho] at e
    cases e
    exact ⟨object?_iff_body?.mp ho, he.symm⟩

theorem objectShape_eq_ok (e : HeapM.objectShape r h = .ok (s, h')) :
    ∃ o, h.body? r = some (.object o) ∧ s = o.shape ∧ h = h' := by
  obtain ⟨e, he⟩ := HeapM.read_eq_ok e
  cases ho : h.object? r with
  | none =>
    rw [ho] at e
    cases e
  | some o =>
    rw [ho] at e
    cases e
    exact ⟨o, object?_iff_body?.mp ho, rfl, he.symm⟩

theorem modifyObject_eq_ok {g : Object → Object} (e : HeapM.modifyObject r g h = .ok (u, h')) :
    ∃ o c, h.cell? r = some c ∧ c.body = .object o ∧ h' = h.modifyObjectAt r.index g := by
  unfold HeapM.modifyObject at e
  cases ho : h.object? r with
  | none =>
    rw [ho] at e
    cases e
  | some o =>
    rw [ho] at e
    cases e
    obtain ⟨c, hc, hb⟩ := object?_eq_some_iff.mp ho
    exact ⟨o, c, hc, hb, rfl⟩

/-! ## Locals and variables -/

/-- The local is written over, and the old value given up. -/
theorem setLocal_eq_ok {slot : Nat} {v : Value} (e : HeapM.setLocal id slot v h = .ok (u, h')) :
    ∃ f old, h.frames.get? id = some f ∧ f.locals[slot]? = some old ∧
      HeapM.freeValue old { h with
        frames := h.frames.modify id.index fun f =>
          { f with locals := f.locals.setIfInBounds slot v } } = .ok (u, h') := by
  unfold HeapM.setLocal at e
  rw [HeapM.get_bind] at e
  cases hf : h.frames.get? id with
  | none =>
    rw [hf] at e
    cases e
  | some f =>
    rw [hf] at e
    dsimp only at e
    cases hold : f.locals[slot]? with
    | none =>
      rw [hold] at e
      cases e
    | some old =>
      rw [hold] at e
      obtain ⟨_, h₁, e₁, e⟩ := HeapM.bind_eq_ok e
      obtain rfl := HeapM.modify_eq_ok e₁
      exact ⟨f, old, rfl, hold, e⟩

/-- An attached variable is written over at its local, and a detached one in its cell. -/
theorem setVariable_eq_ok {v : Value} (e : HeapM.setVariable r v h = .ok (u, h')) :
    (∃ id slot, h.captured? r = some (.attached id slot) ∧ HeapM.setLocal id slot v h = .ok (u, h')) ∨
    ∃ old, h.captured? r = some (.detached old) ∧
      HeapM.freeValue old (h.modifyBody r.index fun _ => .captured (.detached v)) = .ok (u, h') := by
  unfold HeapM.setVariable at e
  rw [HeapM.get_bind] at e
  cases hv : h.captured? r with
  | none =>
    rw [hv] at e
    cases e
  | some w =>
    rw [hv] at e
    cases w with
    | attached id slot => exact .inl ⟨id, slot, rfl, e⟩
    | detached old =>
      obtain ⟨_, h₁, e₁, e⟩ := HeapM.bind_eq_ok e
      obtain rfl := HeapM.modify_eq_ok e₁
      exact .inr ⟨old, rfl, e⟩

/-! ## Frames -/

/-- The frame is taken off the table, its variables are detached, the values that are left are given up, and
its bytes are taken off the account. -/
theorem popFrame_eq_ok (e : HeapM.popFrame id h = .ok (u, h')) :
    ∃ f locals h₁ h₂, h.frames.get? id = some f ∧
      f.openVariables.toList.foldlM (Heap.detach id) ({ h with frames := h.frames.pop id.index }, f.locals) =
        .ok (h₁, locals) ∧
      HeapM.freeValues locals h₁ = .ok ((), h₂) ∧ HeapM.uncharge f.size h₂ = .ok (u, h') := by
  unfold HeapM.popFrame at e
  rw [HeapM.get_bind] at e
  cases hf : h.frames.get? id with
  | none =>
    rw [hf] at e
    cases e
  | some f =>
    rw [hf] at e
    obtain ⟨_, h₀, e₀, e⟩ := HeapM.bind_eq_ok e
    obtain rfl := HeapM.modify_eq_ok e₀
    obtain ⟨locals, h₁, e₁, e⟩ := HeapM.bind_eq_ok e
    obtain ⟨_, h₂, e₂, e⟩ := HeapM.bind_eq_ok e
    split at e₁
    · rename_i hdetach
      cases e₁
      exact ⟨f, locals, h₁, h₂, rfl, hdetach, e₂, e⟩
    · cases e₁

/-! ## Memory -/

theorem uncharge_eq_ok {n : Nat} (e : HeapM.uncharge n h = .ok (u, h')) :
    n ≤ h.used ∧ h' = { h with used := h.used - n } := by
  unfold HeapM.uncharge at e
  split at e
  · cases e
  · rename_i hle
    cases e
    exact ⟨Nat.le_of_not_lt hle, rfl⟩

theorem uncharge_run {n : Nat} (hle : n ≤ h.used) :
    HeapM.uncharge n h = .ok ((), { h with used := h.used - n }) := by
  unfold HeapM.uncharge
  rw [if_neg (Nat.not_lt.mpr hle)]

/-- Bytes put on the account can be taken off again. -/
theorem uncharge_charged (h : Heap) (n : Nat) :
    HeapM.uncharge n { h with used := h.used + n } = .ok ((), h) := by
  rw [uncharge_run (Nat.le_add_left n h.used), Nat.add_sub_cancel]

theorem charge_run (n : Nat) (h : Heap) :
    (AllocM.charge n).run h = if h.config.allows (h.used + n) then
      .ok (.ok (), { h with used := h.used + n }) else .ok (.error ⟨n⟩, h) := by
  unfold AllocM.charge
  rw [ExceptT.run_mk]

theorem chargeCell_run (r : Handle) (n : Nat) (h : Heap) :
    (AllocM.chargeCell r n).run h = if h.config.allows (h.used + n) then
      .ok (.ok (), { h with used := h.used + n }.modifyCell r.index fun c => { c with size := c.size + n })
      else .ok (.error ⟨n⟩, h) := by
  unfold AllocM.chargeCell
  rw [AllocM.bind_apply, charge_run]
  by_cases hok : h.config.allows (h.used + n) = true
  · rw [if_pos hok, if_pos hok]
    rfl
  · rw [if_neg hok, if_neg hok]

/-- What was charged to a cell can be taken off again. -/
theorem unchargeCell_charged {n : Nat} {c : Cell} (hc : h.tenant? r.index = some c) :
    HeapM.unchargeCell r n ({ h with used := h.used + n }.modifyCell r.index fun c =>
      { c with size := c.size + n }) = .ok ((), h) := by
  have hcell : ({ h with used := h.used + n }.modifyCell r.index fun c => { c with size := c.size + n }).tenant?
      r.index = some { c with size := c.size + n } := by
    rw [tenant?_modifyCell, if_pos rfl]
    exact congrArg (Option.map _) hc
  unfold HeapM.unchargeCell
  rw [HeapM.bind_of_ok (uncharge_run (Nat.le_add_left n h.used)),
    HeapM.bind_of_ok (HeapM.read_apply (cellAt_eq_ok_iff.mpr hcell)),
    if_neg (Nat.not_lt.mpr (Nat.le_add_left n c.size))]
  change Except.ok ((), { (h.modifyCell r.index fun c => { c with size := c.size + n }).modifyCell r.index
    fun c => { c with size := c.size - n } with used := h.used + n - n }) = _
  rw [modifyCell_modifyCell, Nat.add_sub_cancel, modifyCell_self h r.index fun c => by
    simp only [Function.comp_apply, Nat.add_sub_cancel]]

theorem grants_of_refused_eq_nil {requests : List Request} (hnone : h.refused = []) :
    h.grants requests = true := by
  simp [grants, hnone]

/-- The allocator grants what it is asked for, or what was done for it is undone. -/
theorem ask_run (requests : List Request) (undo : HeapM Unit) (failure : OutOfMemory) (h : Heap) :
    (AllocM.ask requests undo failure).run h = if h.grants requests then .ok (.ok (), h)
      else match undo h with
        | .ok (_, h') => .ok (.error failure, h')
        | .error e => .error e := by
  unfold AllocM.ask
  rw [AllocM.get_bind]
  cases h.grants requests with
  | true => rfl
  | false =>
    change ((liftM undo : AllocM Unit) >>= fun _ => throw failure).run h = _
    rw [AllocM.lift_bind_apply, if_neg Bool.false_ne_true]
    cases undo h <;> rfl

/-- What nothing was done for goes on, or fails and leaves all as it is. -/
theorem ask_bind {α : Type} (requests : List Request) (failure : OutOfMemory) (f : Unit → AllocM α) (h : Heap) :
    (AllocM.ask requests (pure ()) failure >>= f).run h =
      if h.grants requests then (f ()).run h else .ok (.error failure, h) := by
  rw [AllocM.bind_apply, ask_run]
  cases h.grants requests <;> rfl

/-- The bytes of a frame are on the account, or nothing has changed. -/
theorem reserveFrame_cases (n : Nat) (h : Heap) :
    (h.config.allows (h.used + n) = true ∧
      (AllocM.reserveFrame n).run h = .ok (.ok (), { h with used := h.used + n })) ∨
    ∃ err, (AllocM.reserveFrame n).run h = .ok (.error err, h) := by
  unfold AllocM.reserveFrame
  rw [AllocM.bind_apply, charge_run]
  by_cases hok : h.config.allows (h.used + n) = true
  · rw [if_pos hok]
    dsimp only
    rw [AllocM.get_bind, ask_run, uncharge_charged]
    split
    · exact .inl ⟨hok, rfl⟩
    · exact .inr ⟨_, rfl⟩
  · rw [if_neg hok]
    exact .inr ⟨_, rfl⟩

/-- The bytes for arrays that grow are on the account of their cell, or nothing has changed. -/
theorem growCell_cases {c : Cell} (hc : h.tenant? r.index = some c) (n : Nat) (arrays : List Request) :
    (h.config.allows (h.used + n) = true ∧ (AllocM.growCell r n arrays).run h =
      .ok (.ok (), { h with used := h.used + n }.modifyCell r.index fun c =>
        { c with size := c.size + n })) ∨
    ∃ err, (AllocM.growCell r n arrays).run h = .ok (.error err, h) := by
  unfold AllocM.growCell
  rw [AllocM.bind_apply, chargeCell_run]
  by_cases hok : h.config.allows (h.used + n) = true
  · rw [if_pos hok]
    dsimp only
    rw [ask_run, unchargeCell_charged hc]
    split
    · exact .inl ⟨hok, rfl⟩
    · exact .inr ⟨_, rfl⟩
  · rw [if_neg hok]
    exact .inr ⟨_, rfl⟩

/-- A slot that is taken and given back is vacant again; it may be one more than there were. -/
theorem cancel_of_takeSlot {size i : Nat}
    (e : { h with used := h.used + size }.takeSlot = .ok (i, h')) :
    HeapM.cancel ⟨i, size⟩ h' = .ok ((), h) ∨ HeapM.cancel ⟨i, size⟩ h' = .ok ((), h.widen) := by
  unfold HeapM.cancel
  unfold takeSlot at e
  split at e
  · rename_i hfree
    cases e
    left
    dsimp only at hfree ⊢
    rw [HeapM.bind_of_ok (uncharge_run (Nat.le_add_left size h.used))]
    change Except.ok ((), { h with used := h.used + size - size, freeSlots := _ }) = _
    rw [Nat.add_sub_cancel, ← hfree]
  · rename_i hfree
    split at e
    · cases e
      right
      dsimp only at hfree ⊢
      rw [HeapM.bind_of_ok (uncharge_run (Nat.le_add_left size h.used))]
      change Except.ok ((), { h with used := h.used + size - size, slots := _, freeSlots := _ }) = _
      rw [Nat.add_sub_cancel]
      rfl
    · cases e

/-- A slot is taken and its bytes are on the account, or no cell and no byte is there that was not there
before, or there is no slot left. -/
theorem claimSlot_cases (size : Nat) (arrays : Nat → List Request) (failure : OutOfMemory) (h : Heap) :
    (∃ p h', h.config.allows (h.used + size) = true ∧ p.size = size ∧
      { h with used := h.used + size }.takeSlot = .ok (p.index, h') ∧
      (AllocM.claimSlot size arrays failure).run h = .ok (.ok p, h')) ∨
    (∃ err h', (h' = h ∨ h' = h.widen) ∧
      (AllocM.claimSlot size arrays failure).run h = .ok (.error err, h')) ∨
    ({ h with used := h.used + size }.takeSlot = .error .tooManySlots ∧
      (AllocM.claimSlot size arrays failure).run h = .error .tooManySlots) := by
  unfold AllocM.claimSlot
  rw [AllocM.bind_apply, charge_run]
  by_cases hok : h.config.allows (h.used + size) = true
  · rw [if_pos hok]
    dsimp only
    rw [AllocM.get_bind, AllocM.bind_apply, ask_run, uncharge_charged]
    by_cases hslot : { h with used := h.used + size }.grants { h with used := h.used + size }.slotRequests = true
    · rw [if_pos hslot]
      dsimp only
      rw [AllocM.lift_bind_apply]
      cases e : { h with used := h.used + size }.takeSlot with
      | error cause =>
        obtain rfl := takeSlot_eq_error e
        exact .inr (.inr ⟨rfl, rfl⟩)
      | ok q =>
        obtain ⟨i, h'⟩ := q
        dsimp only
        rw [AllocM.bind_apply, ask_run]
        by_cases harrays : h'.grants (arrays i) = true
        · rw [if_pos harrays]
          exact .inl ⟨⟨i, size⟩, h', hok, rfl, rfl, rfl⟩
        · rw [if_neg harrays]
          rcases cancel_of_takeSlot e with e' | e'
          · rw [e']
            exact .inr (.inl ⟨_, h, .inl rfl, rfl⟩)
          · rw [e']
            exact .inr (.inl ⟨_, h.widen, .inr rfl, rfl⟩)
    · rw [if_neg hslot]
      exact .inr (.inl ⟨_, h, .inl rfl, rfl⟩)
  · rw [if_neg hok]
    exact .inr (.inl ⟨_, h, .inl rfl, rfl⟩)

/-- What setting a slot apart comes to when it ends well. -/
theorem reserve_eq_ok {size : Nat} {arrays : Nat → List Request} {failure : OutOfMemory}
    {res : Except OutOfMemory Reservation} (e : (AllocM.reserve size arrays failure).run h = .ok (res, h')) :
    ∃ h₁ h₂, HeapM.flushRoots h = .ok ((), h₁) ∧ HeapM.collectIfDue h₁ = .ok ((), h₂) ∧
      ((∃ p, res = .ok p ∧ p.size = size ∧
        { h₂ with used := h₂.used + size }.takeSlot = .ok (p.index, h')) ∨
        (∃ err, res = .error err) ∧ (h' = h₂ ∨ h' = h₂.widen)) := by
  obtain ⟨_, h₁, e₁, e⟩ := AllocM.lift_bind_eq_ok e
  obtain ⟨_, h₂, e₂, e⟩ := AllocM.lift_bind_eq_ok e
  refine ⟨h₁, h₂, e₁, e₂, ?_⟩
  obtain ⟨p, h₃, -, hsize, htake, hrun⟩ | ⟨err, h₃, hsame, hrun⟩ | ⟨-, hrun⟩ :=
    claimSlot_cases size arrays failure h₂
  · rw [hrun] at e
    cases e
    exact .inl ⟨p, rfl, hsize, htake⟩
  · rw [hrun] at e
    cases e
    exact .inr ⟨⟨err, rfl⟩, hsame⟩
  · rw [hrun] at e
    cases e

end ObjectMemory.Heap
