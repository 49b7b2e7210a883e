import ObjectMemory.Proofs.Seating
set_option autoImplicit false

/-!
# Captured variables as variables

To a program a captured variable is the local it was captured from: whoever assigns to the one has assigned
to the other, and it goes on when the frame is gone.  The heap keeps that up by moving the value.  While
the frame is alive the value is in its local, and when the frame is popped the cell takes it over.

Here a program is told in its own terms what its variables are.  A `Binding` is a local of one activation
of a frame, or a variable made for itself; `Bindings` has for each the value that was assigned last, and
learns of every operation only what was asked and answered (`Bindings.note`).  The heap mirrors that
(`Bindings.Mirrors`): `Bindings.Mirrors.of_turns` goes through what an operation can do to a variable or a
frame, and `Client.variables_keep_values` is what every program reads.
-/

namespace ObjectMemory

/-- A variable of a program. -/
inductive Binding where
  /-- a local of an activation of a frame -/
  | slot (activation : Nat) (slot : Nat)
  /-- a variable that never was a local -/
  | own (n : Nat)
  deriving DecidableEq, Repr, Inhabited

/-- The number a variable, or the activation it belongs to, was given when it came to be. -/
def Binding.born : Binding → Nat
  | slot activation _ => activation
  | own n => n

/-- What a program has done to its variables. -/
structure Bindings where
  /-- number of activations and of variables made for themselves -/
  next : Nat
  /-- the activation a frame was entered for -/
  activation : FrameId → Nat
  /-- the variable a handle was answered for -/
  binding : Handle → Binding
  /-- the value that was assigned last -/
  value : Binding → Value

namespace Bindings

/-- A program that has done nothing yet. -/
def start : Bindings := ⟨0, fun _ => 0, fun _ => .own 0, fun _ => .undefined⟩

variable (s : Bindings)

/-- A value is assigned to a variable. -/
def assign (b : Binding) (v : Value) : Bindings :=
  { s with value := fun c => if c = b then v else s.value c }

/-- A frame is entered with its locals. -/
def enter (id : FrameId) (locals : Array Value) : Bindings :=
  { s with
    next := s.next + 1
    activation := fun j => if j = id then s.next else s.activation j
    value := fun c =>
      match c with
      | .slot a i => if a = s.next then locals.getD i .undefined else s.value c
      | .own _ => s.value c }

/-- A handle is answered for a local. -/
def capture (r : Handle) (id : FrameId) (slot : Nat) : Bindings :=
  { s with binding := fun q => if q = r then .slot (s.activation id) slot else s.binding q }

/-- A handle is answered for a new variable. -/
def create (r : Handle) (v : Value) : Bindings :=
  { s with
    next := s.next + 1
    binding := fun q => if q = r then .own s.next else s.binding q
    value := fun c => if c = .own s.next then v else s.value c }

/-- What a program notes of an operation: the frames it entered, the handles it was answered for
variables, and the values it assigned, to a local, to a captured variable or to a property that stands for
one.  It notes nothing when a frame is popped. -/
def note (h : Heap) (op : Operation) (reply : Reply) (s : Bindings) : Bindings :=
  match op, reply with
  | .call (.pushFrame locals), .frame id => s.enter id locals
  | .call (.popFrame _), _ => s
  | .call (.setLocal id slot v), _ => s.assign (.slot (s.activation id) slot) v
  | .call (.captureVariable id slot), .handle r => s.capture r id slot
  | .call (.newVariable v), .handle r => s.create r v
  | op, _ => (op.assigns? h).elim s fun p => s.assign (s.binding p.1) p.2

/-- The heap has the variables of the program, each once and with the value it was assigned last. -/
structure Mirrors (s : Bindings) (h : Heap) : Prop where
  /-- locals have the values assigned last -/
  locals : ∀ id slot v, h.local? id slot = some v → s.value (.slot (s.activation id) slot) = v
  /-- attached variables are the locals they are attached to -/
  attached : ∀ r id slot, h.captured? r = some (.attached id slot) → s.binding r = .slot (s.activation id) slot
  /-- detached variables have the values assigned last -/
  detached : ∀ r v, h.captured? r = some (.detached v) → s.value (s.binding r) = v
  /-- the activations of live frames are old, and no two are the same -/
  entered : ∀ id, h.isFrameLive id = true → s.activation id < s.next
  distinct : ∀ id j, h.isFrameLive id = true → h.isFrameLive j = true → s.activation id = s.activation j → id = j
  /-- variables are old, and no two cells are for the same -/
  born : ∀ r v, h.captured? r = some v → (s.binding r).born < s.next
  single : ∀ r q v w, h.captured? r = some v → h.captured? q = some w → s.binding r = s.binding q → r = q
  /-- a detached variable is no local of a live frame -/
  apart : ∀ r v id slot, h.captured? r = some (.detached v) → h.isFrameLive id = true →
    s.binding r ≠ .slot (s.activation id) slot

end Bindings

/-! ## Locals after an effect -/

namespace Heap

variable {T : Nat → Prop} {h h' : Heap} {ef : Effect} {id : FrameId}

theorem isFrameLive_eq (h : Heap) (id : FrameId) : h.isFrameLive id = (h.locals? id).isSome := by
  rw [isFrameLive, locals?, Option.isSome_map]

theorem isFrameLive_of_locals? {locals : Array Value} (hl : h.locals? id = some locals) :
    h.isFrameLive id = true := by
  rw [isFrameLive_eq, hl]
  rfl

theorem isFrameLive_of_local? {slot : Nat} {v : Value} (hv : h.local? id slot = some v) :
    h.isFrameLive id = true := by
  obtain ⟨locals, hl, _⟩ := Option.bind_eq_some_iff.mp hv
  exact isFrameLive_of_locals? hl

theorem Turns.isFrameLive (e : Turns T ef h h') (id : FrameId) :
    h'.isFrameLive id = (ef.locals? h id).isSome := by
  rw [isFrameLive_eq, e.locals]

theorem Turns.local? (e : Turns T ef h h') (id : FrameId) (slot : Nat) :
    h'.local? id slot = (ef.locals? h id).bind (·[slot]?) := by
  rw [Heap.local?, e.locals]

end Heap

/-! ## What an effect is to the program -/

namespace Bindings.Mirrors

open Heap

variable {T : Nat → Prop} {s : Bindings} {h h' : Heap} {r : Handle} {id : FrameId} {slot : Nat} {v : Value}

theorem start (config : Config) : Bindings.start.Mirrors (.new config) := by
  have hnone : ∀ r w, (Heap.new config).captured? r ≠ some w := by
    intro r w
    simp [captured?, body?, cell?, new]
  have hgone : ∀ id, (Heap.new config).isFrameLive id ≠ true := by
    intro id
    simp [isFrameLive, new, FrameTable.get?, FrameTable.empty]
  exact ⟨fun id _ _ hv => absurd (isFrameLive_of_local? hv) (hgone id), fun r _ _ hr => absurd hr (hnone r _),
    fun r _ hr => absurd hr (hnone r _), fun id hid => absurd hid (hgone id),
    fun id _ hid => absurd hid (hgone id), fun r _ hr => absurd hr (hnone r _),
    fun r _ _ _ hr => absurd hr (hnone r _), fun r _ _ _ hr => absurd hr (hnone r _)⟩

/-- A value that was assigned is where the heap has the variable. -/
theorem assign {b : Binding} (m : s.Mirrors h) (hlive : ∀ id, h'.isFrameLive id = h.isFrameLive id)
    (hlocals : ∀ id slot w, h'.local? id slot = some w →
      b = .slot (s.activation id) slot ∧ w = v ∨ b ≠ .slot (s.activation id) slot ∧ h.local? id slot = some w)
    (hattached : ∀ r id slot, h'.captured? r = some (.attached id slot) →
      h.captured? r = some (.attached id slot))
    (hdetached : ∀ r w, h'.captured? r = some (.detached w) → ∃ old, h.captured? r = some (.detached old) ∧
      (s.binding r = b ∧ w = v ∨ s.binding r ≠ b ∧ w = old)) :
    (s.assign b v).Mirrors h' := by
  have hcaptured : ∀ r w, h'.captured? r = some w → ∃ old, h.captured? r = some old := by
    intro r w hw
    cases w with
    | attached id slot => exact ⟨_, hattached r id slot hw⟩
    | detached w =>
      obtain ⟨old, hold, _⟩ := hdetached r w hw
      exact ⟨_, hold⟩
  refine ⟨fun id slot w hw => ?_, fun r id slot hr => m.attached r id slot (hattached r id slot hr),
    fun r w hw => ?_, fun id hid => m.entered id (hlive id ▸ hid),
    fun id j hid hj => m.distinct id j (hlive id ▸ hid) (hlive j ▸ hj), fun r w hw => ?_,
    fun r q w w' hw hw' => ?_, fun r w id slot hw hid => ?_⟩
  · rcases hlocals id slot w hw with ⟨rfl, rfl⟩ | ⟨hne, hold⟩
    · exact if_pos rfl
    · exact (if_neg (Ne.symm hne)).trans (m.locals id slot w hold)
  · obtain ⟨old, hold, ⟨hb, rfl⟩ | ⟨hb, rfl⟩⟩ := hdetached r w hw
    · exact if_pos hb
    · exact (if_neg hb).trans (m.detached r _ hold)
  · obtain ⟨old, hold⟩ := hcaptured r w hw
    exact m.born r old hold
  · obtain ⟨old, hold⟩ := hcaptured r w hw
    obtain ⟨old', hold'⟩ := hcaptured q w' hw'
    exact m.single r q old old' hold hold'
  · obtain ⟨old, hold, _⟩ := hdetached r w hw
    exact m.apart r old id slot hold (hlive id ▸ hid)

/-- An operation without an effect leaves the variables. -/
theorem of_none (m : s.Mirrors h) (e : Turns T .none h h') : s.Mirrors h' := by
  have hlive : ∀ id, h'.isFrameLive id = h.isFrameLive id := fun id => by
    rw [e.isFrameLive, isFrameLive_eq]
    rfl
  exact ⟨fun id slot v hv => m.locals id slot v ((e.local? id slot).symm.trans hv),
    fun r id slot hr => m.attached r id slot (e.captured r _ hr),
    fun r v hr => m.detached r v (e.captured r _ hr), fun id hid => m.entered id (hlive id ▸ hid),
    fun id j hid hj => m.distinct id j (hlive id ▸ hid) (hlive j ▸ hj),
    fun r v hr => m.born r v (e.captured r v hr),
    fun r q v w hr hq => m.single r q v w (e.captured r v hr) (e.captured q w hq),
    fun r v id slot hr hid => m.apart r v id slot (e.captured r _ hr) (hlive id ▸ hid)⟩

/-- A value is put into a local. -/
theorem of_write (m : s.Mirrors h) (e : Turns T (.write id slot v) h h') :
    (s.assign (.slot (s.activation id) slot) v).Mirrors h' := by
  obtain ⟨locals, hl, hslot⟩ := e.fits
  have hid := isFrameLive_of_locals? hl
  refine m.assign (fun j => ?_) (fun j k w hw => ?_) (fun r j k hr => e.captured r _ hr)
    fun r w hw => ⟨w, e.captured r _ hw, .inr ⟨m.apart r w id slot (e.captured r _ hw) hid, rfl⟩⟩
  · rw [e.isFrameLive, isFrameLive_eq, Effect.locals?]
    split
    · rw [Option.isSome_map]
    · rfl
  · rw [e.local?, Effect.locals?] at hw
    by_cases hj : j = id
    · subst hj
      rw [if_pos rfl, hl, Option.map_some, Option.bind_some, Array.getElem?_setIfInBounds] at hw
      by_cases hk : slot = k
      · subst hk
        rw [if_pos rfl, if_pos hslot] at hw
        exact .inl ⟨rfl, (Option.some.inj hw).symm⟩
      · rw [if_neg hk] at hw
        refine .inr ⟨fun hb => hk (Binding.slot.inj hb).2, ?_⟩
        rw [Heap.local?, hl]
        exact hw
    · rw [if_neg hj] at hw
      refine .inr ⟨fun hb => hj ?_, hw⟩
      exact m.distinct j id (isFrameLive_of_local? hw) hid (Binding.slot.inj hb).1.symm

/-- A value is put into a detached variable. -/
theorem of_store (m : s.Mirrors h) (e : Turns T (.store r v) h h') :
    (s.assign (s.binding r) v).Mirrors h' := by
  obtain ⟨old, hold⟩ := e.fits
  have hlive : ∀ j, h'.isFrameLive j = h.isFrameLive j := fun j => by
    rw [e.isFrameLive, isFrameLive_eq]
    rfl
  refine m.assign hlive (fun j k w hw => ?_) (fun q j k hq => ?_) fun q w hw => ?_
  · have hw : h.local? j k = some w := (e.local? j k).symm.trans hw
    exact .inr ⟨m.apart r old j k hold (isFrameLive_of_local? hw), hw⟩
  · have hq := e.captured q _ hq
    simp only [Effect.captured?] at hq
    split at hq
    · cases hq
    · exact hq
  · have hw := e.captured q _ hw
    simp only [Effect.captured?] at hw
    split at hw
    · rename_i hqr
      cases hw
      exact ⟨old, hqr ▸ hold, .inl ⟨by rw [hqr], rfl⟩⟩
    · rename_i hqr
      exact ⟨w, hw, .inr ⟨fun hb => hqr (m.single q r _ _ hw hold hb), rfl⟩⟩

/-- A frame is entered. -/
theorem of_enter {locals : Array Value} (m : s.Mirrors h) (hs : h.Seated)
    (e : Turns T (.enter id locals) h h') : (s.enter id locals).Mirrors h' := by
  have hnew : h.isFrameLive id = false := by
    rw [isFrameLive_eq, show h.locals? id = none from e.fits]
    rfl
  have hother : ∀ j, j ≠ id → h'.isFrameLive j = h.isFrameLive j := fun j hj => by
    rw [e.isFrameLive, isFrameLive_eq, Effect.locals?, if_neg hj]
  have hact : ∀ j, j ≠ id → (s.enter id locals).activation j = s.activation j := fun j hj => if_neg hj
  have hself : (s.enter id locals).activation id = s.next := if_pos rfl
  -- nothing that was there before belongs to the new activation
  have hkept : ∀ b, b.born < s.next → (s.enter id locals).value b = s.value b := by
    intro b hb
    cases b with
    | slot a i => exact if_neg (Nat.ne_of_lt hb)
    | own n => rfl
  have hat : ∀ q j k, h'.captured? q = some (.attached j k) →
      h.captured? q = some (.attached j k) ∧ j ≠ id := by
    intro q j k hq
    have hq := e.captured q _ hq
    refine ⟨hq, fun hj => ?_⟩
    obtain ⟨old, hold, _⟩ := hs.inside q j k hq
    rw [← hj, isFrameLive_of_locals? hold] at hnew
    cases hnew
  refine ⟨fun j k w hw => ?_, fun q j k hq => ?_, fun q w hq => ?_, fun j hj => ?_, fun j k hj hk heq => ?_,
    fun q w hq => ?_, fun q p w w' hq hp => m.single q p w w' (e.captured q w hq) (e.captured p w' hp),
    fun q w j k hq hj => ?_⟩
  · rw [e.local?, Effect.locals?] at hw
    by_cases hj : j = id
    · rw [if_pos hj, Option.bind_some] at hw
      rw [hj, hself]
      refine (if_pos rfl).trans ?_
      rw [Array.getD_eq_getD_getElem?, hw]
      rfl
    · rw [if_neg hj] at hw
      rw [hact j hj]
      exact (hkept (.slot _ k) (m.entered j (isFrameLive_of_local? hw))).trans (m.locals j k w hw)
  · obtain ⟨hq, hj⟩ := hat q j k hq
    rw [hact j hj]
    exact m.attached q j k hq
  · have hq := e.captured q _ hq
    exact (hkept _ (m.born q _ hq)).trans (m.detached q w hq)
  · by_cases hid : j = id
    · rw [hid, hself]
      exact Nat.lt_succ_self _
    · rw [hact j hid]
      exact Nat.lt_succ_of_lt (m.entered j (hother j hid ▸ hj))
  · by_cases hjd : j = id
    · by_cases hkd : k = id
      · rw [hjd, hkd]
      · rw [hjd, hself, hact k hkd] at heq
        exact absurd heq.symm (Nat.ne_of_lt (m.entered k (hother k hkd ▸ hk)))
    · by_cases hkd : k = id
      · rw [hkd, hself, hact j hjd] at heq
        exact absurd heq (Nat.ne_of_lt (m.entered j (hother j hjd ▸ hj)))
      · rw [hact j hjd, hact k hkd] at heq
        exact m.distinct j k (hother j hjd ▸ hj) (hother k hkd ▸ hk) heq
  · exact Nat.lt_succ_of_lt (m.born q w (e.captured q w hq))
  · have hq := e.captured q _ hq
    by_cases hjd : j = id
    · rw [hjd, hself]
      intro hb
      have hborn := m.born q _ hq
      rw [show s.binding q = .slot s.next k from hb] at hborn
      exact Nat.lt_irrefl _ hborn
    · rw [hact j hjd]
      exact m.apart q w j k hq (hother j hjd ▸ hj)

/-- A frame is popped, and its variables go on. -/
theorem of_leave (m : s.Mirrors h) (e : Turns T (.leave id) h h') : s.Mirrors h' := by
  obtain ⟨locals, hl⟩ := e.fits
  have hid := isFrameLive_of_locals? hl
  have hlive : ∀ j, h'.isFrameLive j = true → h.isFrameLive j = true ∧ j ≠ id := by
    intro j hj
    rw [e.isFrameLive, Effect.locals?] at hj
    split at hj
    · cases hj
    · rename_i hne
      exact ⟨(isFrameLive_eq h j).trans hj, hne⟩
  have hlocal : ∀ j k w, h'.local? j k = some w → h.local? j k = some w := by
    intro j k w hw
    rw [e.local?, Effect.locals?] at hw
    split at hw
    · cases hw
    · exact hw
  -- a variable stays as it is, or takes over the local it was attached to
  have hcases : ∀ q w, h'.captured? q = some w → h.captured? q = some w ∨
      ∃ k v, h.captured? q = some (.attached id k) ∧ h.local? id k = some v ∧ w = .detached v := by
    intro q w hq
    have hq := e.captured q w hq
    simp only [Effect.captured?] at hq
    split at hq
    · rename_i j k hat
      split at hq
      · rename_i hj
        obtain ⟨v, hv, hw⟩ := Option.map_eq_some_iff.mp hq
        exact .inr ⟨k, v, hj ▸ hat, hv, hw.symm⟩
      · exact .inl (hat.trans hq)
    · exact .inl hq
  have hcaptured : ∀ q w, h'.captured? q = some w → ∃ w₀, h.captured? q = some w₀ := by
    intro q w hq
    rcases hcases q w hq with hq | ⟨k, v, hq, _⟩
    · exact ⟨w, hq⟩
    · exact ⟨_, hq⟩
  refine ⟨fun j k w hw => m.locals j k w (hlocal j k w hw), fun q j k hq => ?_, fun q w hq => ?_,
    fun j hj => m.entered j (hlive j hj).1, fun j k hj hk => m.distinct j k (hlive j hj).1 (hlive k hk).1,
    fun q w hq => ?_, fun q p w w' hq hp => ?_, fun q w j k hq hj => ?_⟩
  · rcases hcases q _ hq with hq | ⟨_, _, _, _, hw⟩
    · exact m.attached q j k hq
    · cases hw
  · rcases hcases q _ hq with hq | ⟨k, v, hq, hv, hw⟩
    · exact m.detached q w hq
    · cases hw
      rw [m.attached q id k hq]
      exact m.locals id k w hv
  · obtain ⟨w₀, hq⟩ := hcaptured q w hq
    exact m.born q w₀ hq
  · obtain ⟨w₀, hq⟩ := hcaptured q w hq
    obtain ⟨w₁, hp⟩ := hcaptured p w' hp
    exact m.single q p w₀ w₁ hq hp
  · obtain ⟨hj, hne⟩ := hlive j hj
    rcases hcases q _ hq with hq | ⟨i, v, hq, _⟩
    · exact m.apart q w j k hq hj
    · rw [m.attached q id i hq]
      exact fun hb => hne (m.distinct j id hj hid (Binding.slot.inj hb).1.symm)

/-- A handle is answered for the variable `b`, which no other handle is for; under it is `u`. -/
theorem answer {t : Bindings} {b : Binding} {u : Variable} (m : s.Mirrors h)
    (hlocals : ∀ j, h'.locals? j = h.locals? j)
    (hcaptured : ∀ q w, h'.captured? q = some w → (if q = r then some u else h.captured? q) = some w)
    (hact : t.activation = s.activation) (hnext : s.next ≤ t.next)
    (hbinding : ∀ q, t.binding q = if q = r then b else s.binding q)
    (hvalue : ∀ c, c.born < s.next → t.value c = s.value c) (hborn : b.born < t.next)
    (honly : ∀ q w, q ≠ r → h.captured? q = some w → s.binding q ≠ b)
    (hattached : ∀ id slot, u = .attached id slot → b = .slot (s.activation id) slot)
    (hdetached : ∀ w, u = .detached w → t.value b = w ∧
      ∀ id slot, h.isFrameLive id = true → b ≠ .slot (s.activation id) slot) : t.Mirrors h' := by
  have hlive : ∀ j, h'.isFrameLive j = h.isFrameLive j := fun j => by
    rw [isFrameLive_eq, isFrameLive_eq, hlocals]
  have hcases : ∀ q w, h'.captured? q = some w →
      w = u ∧ t.binding q = b ∧ q = r ∨ h.captured? q = some w ∧ t.binding q = s.binding q ∧ q ≠ r := by
    intro q w hq
    have hq := hcaptured q w hq
    rw [hbinding]
    split at hq
    · rename_i hqr
      exact .inl ⟨(Option.some.inj hq).symm, if_pos hqr, hqr⟩
    · rename_i hqr
      exact .inr ⟨hq, if_neg hqr, hqr⟩
  refine ⟨fun j k w hw => ?_, fun q j k hq => ?_, fun q w hq => ?_, fun j hj => ?_, fun j k hj hk heq => ?_,
    fun q w hq => ?_, fun q p w w' hq hp heq => ?_, fun q w j k hq hj => ?_⟩
  · rw [Heap.local?, hlocals] at hw
    rw [hact]
    exact (hvalue (.slot _ k) (m.entered j (isFrameLive_of_local? hw))).trans (m.locals j k w hw)
  · rw [hact]
    rcases hcases q _ hq with ⟨hw, hb, _⟩ | ⟨hq, hb, _⟩
    · rw [hb]
      exact hattached j k hw.symm
    · rw [hb]
      exact m.attached q j k hq
  · rcases hcases q _ hq with ⟨hw, hb, _⟩ | ⟨hq, hb, _⟩
    · rw [hb]
      exact (hdetached w hw.symm).1
    · rw [hb]
      exact (hvalue _ (m.born q _ hq)).trans (m.detached q w hq)
  · rw [hact]
    exact Nat.lt_of_lt_of_le (m.entered j (hlive j ▸ hj)) hnext
  · rw [hact] at heq
    exact m.distinct j k (hlive j ▸ hj) (hlive k ▸ hk) heq
  · rcases hcases q _ hq with ⟨_, hb, _⟩ | ⟨hq, hb, _⟩
    · rw [hb]
      exact hborn
    · rw [hb]
      exact Nat.lt_of_lt_of_le (m.born q w hq) hnext
  · rcases hcases q _ hq with ⟨_, hb, hqr⟩ | ⟨hq, hb, hqr⟩
    · rcases hcases p _ hp with ⟨_, _, hpr⟩ | ⟨hp, hb', hpr⟩
      · rw [hqr, hpr]
      · rw [hb, hb'] at heq
        exact absurd heq.symm (honly p w' hpr hp)
    · rcases hcases p _ hp with ⟨_, hb', _⟩ | ⟨hp, hb', _⟩
      · rw [hb, hb'] at heq
        exact absurd heq (honly q w hqr hq)
      · rw [hb, hb'] at heq
        exact m.single q p w w' hq hp heq
  · rw [hact]
    rcases hcases q _ hq with ⟨hw, hb, _⟩ | ⟨hq, hb, _⟩
    · rw [hb]
      exact (hdetached w hw.symm).2 j k (hlive j ▸ hj)
    · rw [hb]
      exact m.apart q w j k hq (hlive j ▸ hj)

/-- A handle is answered for a local. -/
theorem of_attach (m : s.Mirrors h) (hs : h.Seated) (e : Turns T (.attach r id slot) h h') :
    (s.capture r id slot).Mirrors h' := by
  obtain ⟨⟨locals, hl, _⟩, honly, _⟩ := e.fits
  have hid := isFrameLive_of_locals? hl
  refine m.answer e.locals e.captured rfl (Nat.le_refl _) (fun _ => rfl) (fun _ _ => rfl) (m.entered id hid)
    (fun q w hqr hq hb => ?_) (fun j k hw => ?_) nofun
  · cases w with
    | detached v => exact m.apart q v id slot hq hid hb
    | attached j k =>
      rw [m.attached q j k hq] at hb
      obtain ⟨hact, rfl⟩ := Binding.slot.inj hb
      obtain ⟨locals', hl', _⟩ := hs.inside q j k hq
      obtain rfl := m.distinct j id (isFrameLive_of_locals? hl') hid hact
      exact hqr (honly q hq)
  · cases hw
    rfl

/-- A variable is made. -/
theorem of_create (m : s.Mirrors h) (e : Turns T (.create r v) h h') : (s.create r v).Mirrors h' := by
  have hnew : ∀ b : Binding, b.born < s.next → b ≠ .own s.next := by
    rintro b hb rfl
    exact Nat.lt_irrefl _ hb
  refine m.answer e.locals e.captured rfl (Nat.le_succ _) (fun _ => rfl) (fun b hb => if_neg (hnew b hb))
    (Nat.lt_succ_self _) (fun q w _ hq => hnew _ (m.born q w hq)) nofun fun w hw => ⟨?_, fun _ _ _ => nofun⟩
  cases hw
  exact if_pos rfl

/-- An assignment to a captured variable is one to its local while it is attached. -/
theorem of_assigned {w : Variable} (m : s.Mirrors h) (hw : h.captured? r = some w)
    (e : Turns T (h.assigned r v) h h') : (s.assign (s.binding r) v).Mirrors h' := by
  cases w with
  | attached id slot =>
    rw [m.attached r id slot hw]
    refine m.of_write (T := T) ?_
    rw [assigned, hw] at e
    exact e
  | detached old =>
    refine m.of_store (T := T) ?_
    rw [assigned, hw] at e
    exact e

/-- What a program notes of an operation is what became of its variables. -/
theorem of_turns {op : Operation} {reply : Reply} (m : s.Mirrors h) (hs : h.Seated)
    (hvar : ∀ r v, op.assigns? h = some (r, v) → ∃ w, h.captured? r = some w)
    (e : Turns T (op.effect h reply) h h') : (s.note h op reply).Mirrors h' := by
  unfold note
  unfold Operation.effect at e
  split
  · exact m.of_enter hs e
  · exact m.of_leave e
  · exact m.of_write e
  · exact m.of_attach hs e
  · exact m.of_create e
  · rename_i hpop hset hpush hcapture hnew
    split at e
    · exact (hpush _ _ rfl rfl).elim
    · exact (hpop _ rfl).elim
    · exact (hset _ _ _ rfl).elim
    · exact (hcapture _ _ _ rfl rfl).elim
    · exact (hnew _ _ rfl rfl).elim
    · cases ha : op.assigns? h with
      | none =>
        rw [ha] at e
        exact m.of_none e
      | some p =>
        obtain ⟨r, v⟩ := p
        rw [ha] at e
        obtain ⟨w, hw⟩ := hvar r v ha
        exact m.of_assigned hw e

end Bindings.Mirrors

namespace Operation

open Heap

variable {h h' : Heap} {op : Operation} {reply : Reply} {r : Handle} {v : Value}

theorem captured_of_setVariable {u : Unit} (e : HeapM.setVariable r v h = .ok (u, h')) :
    ∃ w, h.captured? r = some w := by
  obtain ⟨id, slot, hw, -⟩ | ⟨old, hw, -⟩ := setVariable_eq_ok e
  · exact ⟨_, hw⟩
  · exact ⟨_, hw⟩

/-- What an operation assigns to is a variable. -/
theorem captured_of_assigns (e : op.perform h = .ok (reply, h')) (ha : op.assigns? h = some (r, v)) :
    ∃ w, h.captured? r = some w := by
  have hset : ∀ {q : Handle} {atom : Atom} {res : Except OutOfMemory Bool},
      (AllocM.setProperty q atom v).run h = .ok (res, h') → h.assignee? q atom = some r →
        ∃ w, h.captured? r = some w := by
    intro q atom res e hr
    rcases setProperty_cases e with ⟨y, u, hy, _, e⟩ | ⟨hnone, _⟩
    · rw [hr] at hy
      cases hy
      exact captured_of_setVariable e
    · rw [hr] at hnone
      cases hnone
  cases op with
  | call c =>
    unfold assigns? at ha
    split at ha
    · rename_i hop
      cases hop
      cases ha
      obtain ⟨_, e, _⟩ := Call.answer_eq_ok e
      exact captured_of_setVariable e
    · rename_i hop
      cases hop
      obtain ⟨y, hy, hp⟩ := Option.map_eq_some_iff.mp ha
      cases hp
      rcases Call.attempt_eq_ok e with ⟨_, e, _⟩ | ⟨_, e, _⟩
      · exact hset e hy
      · exact hset e hy
    · rename_i hop
      cases hop
    · cases ha
  | get cache q atom => cases ha
  | set cache q atom w =>
    obtain ⟨res, cache', e, _⟩ := Operation.set_eq_ok e
    simp only [assigns?] at ha
    rcases setCached_cases e with ⟨i, u, hdirect, _⟩ | ⟨hdirect, e⟩
    · rw [hdirect] at ha
      cases ha
    · rw [hdirect] at ha
      obtain ⟨y, hy, hp⟩ := Option.map_eq_some_iff.mp ha
      cases hp
      exact hset e hy

end Operation

/-! ## Reading variables -/

namespace Heap

variable {x : Ledger} {h : Heap} {s : Bindings} {r : Handle} {id : FrameId} {slot : Nat} {v : Value}

theorem contains_of_typedRef? {vs : List Value} (hn : h.Names (vs.filterMap Value.typedRef?)) (hv : v ∈ vs)
    (hr : r ∈ v.ref?) : h.contains r = true := by
  rw [← v.typedRef?_map, Option.mem_def, Option.map_eq_some_iff] at hr
  obtain ⟨p, hp, rfl⟩ := hr
  exact hn.contains (List.mem_filterMap.mpr ⟨v, hv, hp⟩)

/-- The reference in a local is to a live cell. -/
theorem Valid.contains_of_local? (hv : h.Valid x) (hl : h.local? id slot = some v) (hr : r ∈ v.ref?) :
    h.contains r = true := by
  obtain ⟨locals, hlocals, hslot⟩ := Option.bind_eq_some_iff.mp hl
  obtain ⟨f, hf, rfl⟩ := Option.map_eq_some_iff.mp hlocals
  exact contains_of_typedRef? (hv.sound.coherent.counted.locals id f hf)
    (Array.mem_toList_iff.mpr (Array.mem_of_getElem? hslot)) hr

/-- A local of a live frame can be read. -/
theorem Valid.exists_getLocal (hv : h.Valid x) (hl : h.local? id slot = some v) :
    ∃ h', (Call.getLocal id slot).perform h = .ok (.optional (some v), h') := by
  obtain ⟨h', e⟩ := exists_dupValue fun r hr => hv.contains_of_local? hl hr
  refine ⟨h', ?_⟩
  have hbind : (h.frames.get? id).bind (fun f => f.locals[slot]?) = some v := by
    rw [← hl, local?, locals?, Option.bind_map]
    rfl
  have hread : HeapM.getLocal id slot h = .ok (some v, h') := by
    unfold HeapM.getLocal
    rw [HeapM.get_bind, hbind]
    dsimp only
    rw [HeapM.bind_apply, e]
    rfl
  rw [Call.perform, Call.answer, HeapM.bind_apply, hread]
  rfl

/-- A variable of the program has the value that was assigned last. -/
theorem variableValue_of_mirrors {w : Variable} (m : s.Mirrors h) (hs : h.Seated)
    (hw : h.captured? r = some w) : h.variableValue r = .ok (s.value (s.binding r)) := by
  unfold variableValue
  rw [hw]
  cases w with
  | detached v => rw [m.detached r v hw]
  | attached id slot =>
    obtain ⟨f, hf, hlt⟩ := hs.frame hw
    have hl : h.local? id slot = some f.locals[slot] := by
      rw [local?, locals?, hf, Option.map_some, Option.bind_some, Array.getElem?_eq_getElem hlt]
    dsimp only
    rw [hf]
    dsimp only
    rw [Array.getElem?_eq_getElem hlt, m.attached r id slot hw, m.locals id slot _ hl]

/-- The reference in a variable is to a live cell. -/
theorem Valid.contains_of_variableValue {q : Handle} (hv : h.Valid x) (hval : h.variableValue r = .ok v)
    (hq : q ∈ v.ref?) : h.contains q = true := by
  unfold variableValue at hval
  split at hval
  · rename_i w hw
    cases hval
    obtain ⟨c, hc, hb⟩ := captured?_eq_some_iff.mp hw
    have hn := hv.sound.coherent.counted.bodies r c hc
    rw [hb] at hn
    rw [← v.typedRef?_map, Option.mem_def, Option.map_eq_some_iff] at hq
    obtain ⟨p, hp, rfl⟩ := hq
    exact hn.contains (Option.mem_toList.mpr hp)
  · rename_i id slot hw
    split at hval
    · cases hval
    · rename_i f hf
      split at hval
      · rename_i w hslot
        cases hval
        have hl : h.local? id slot = some v := by
          rw [local?, locals?, hf, Option.map_some, Option.bind_some, hslot]
        exact hv.contains_of_local? hl hq
      · cases hval
  · cases hval

theorem Valid.exists_getVariable (hv : h.Valid x) (hval : h.variableValue r = .ok v) :
    ∃ h', HeapM.getVariable r h = .ok (v, h') := by
  obtain ⟨h', e⟩ := exists_dupValue fun q hq => hv.contains_of_variableValue hval hq
  refine ⟨h', ?_⟩
  unfold HeapM.getVariable HeapM.read
  rw [HeapM.bind_apply]
  dsimp only
  rw [hval]
  exact e

theorem Valid.performs_getVariable (hv : h.Valid x) (hval : h.variableValue r = .ok v) :
    ∃ h', (Call.getVariable r).perform h = .ok (.value v, h') := by
  obtain ⟨h', e⟩ := hv.exists_getVariable hval
  exact ⟨h', by rw [Call.perform, Call.answer, HeapM.bind_apply, e]; rfl⟩

/-- A property that stands for a variable is read as that variable. -/
theorem Valid.exists_getProperty {atom : Atom} {l : Location} {o : Object} {y : Handle} (hv : h.Valid x)
    (hl : h.lookup? r atom = some l) (ho : h.object? l.holder = some o)
    (hy : o.properties[l.offset]? = some (.captured y)) (hval : h.variableValue y = .ok v) :
    ∃ h', (Call.getProperty r atom).perform h = .ok (.value v, h') := by
  obtain ⟨h', e⟩ := hv.exists_getVariable hval
  refine ⟨h', ?_⟩
  have hslot : HeapM.readSlot l.holder l.offset h = .ok (some v, h') := by
    unfold HeapM.readSlot
    rw [HeapM.get_bind, ho]
    dsimp only
    rw [hy]
    dsimp only
    rw [HeapM.bind_apply, e]
    rfl
  have hread : HeapM.getProperty r atom h = .ok (v, h') := by
    unfold HeapM.getProperty
    rw [HeapM.get_bind, hl]
    dsimp only
    rw [HeapM.bind_apply, hslot]
    rfl
  rw [Call.perform, Call.answer, HeapM.bind_apply, hread]
  rfl

theorem Sound.captured_of_kind {n : Nat} (hs : h.Sound x n) (hk : h.kind? r = some .captured) :
    ∃ w, h.captured? r = some w := by
  obtain ⟨c, hc, hk⟩ := kind?_eq_some_iff.mp hk
  have hz := (hs.settled _ _ (tenant?_of_cell? hc)).body
  cases hb : c.body with
  | captured w => exact ⟨w, captured?_eq_some_iff.mpr ⟨c, hc, hb⟩⟩
  | zombie k => simp [hb, Body.isZombie] at hz
  | _ => simp [Cell.kind, hb, Body.kind] at hk

/-- What a property stands for is a variable. -/
theorem Valid.captured_of_property {o : Object} {y : Handle} {i : Nat} (hv : h.Valid x)
    (ho : h.object? r = some o) (hy : o.properties[i]? = some (.captured y)) :
    ∃ w, h.captured? y = some w := by
  obtain ⟨c, hc, hb⟩ := object?_eq_some_iff.mp ho
  have hn := hv.sound.coherent.counted.bodies r c hc
  rw [hb] at hn
  have hmem : (y, Kind.captured) ∈ o.typedRefs := by
    refine List.mem_append_left _ (List.mem_append_left _ (List.mem_flatMap.mpr ⟨.captured y, ?_, ?_⟩))
    · exact Array.mem_toList_iff.mpr (Array.mem_of_getElem? hy)
    · exact List.mem_singleton.mpr rfl
  exact hv.sound.captured_of_kind (hn _ hmem)

/-- A variable of a heap whose attached variables are seated has a value. -/
theorem Seated.exists_variableValue {w : Variable} (hs : h.Seated) (hw : h.captured? r = some w) :
    ∃ v, h.variableValue r = .ok v := by
  unfold variableValue
  rw [hw]
  cases w with
  | detached v => exact ⟨v, rfl⟩
  | attached id slot =>
    obtain ⟨f, hf, hlt⟩ := hs.frame hw
    dsimp only
    rw [hf]
    dsimp only
    rw [Array.getElem?_eq_getElem hlt]
    exact ⟨_, rfl⟩

/-- A slot can be read whatever is in it, and if it is not there. -/
theorem Valid.exists_readSlot (hv : h.Valid x) (hs : h.Seated) (r : Handle) (i : Nat) :
    ∃ v h', HeapM.readSlot r i h = .ok (v, h') := by
  unfold HeapM.readSlot
  rw [HeapM.get_bind]
  cases ho : h.object? r with
  | none => exact ⟨none, h, rfl⟩
  | some o =>
    dsimp only
    cases hp : o.properties[i]? with
    | none => exact ⟨none, h, rfl⟩
    | some p =>
      cases p with
      | value v =>
        obtain ⟨c, hc, hb⟩ := object?_eq_some_iff.mp ho
        have hn := hv.sound.coherent.counted.bodies r c hc
        rw [hb] at hn
        obtain ⟨h', e⟩ : ∃ h', HeapM.dupValue v h = .ok (v, h') := by
          refine exists_dupValue fun q hq => ?_
          rw [← v.typedRef?_map, Option.mem_def, Option.map_eq_some_iff] at hq
          obtain ⟨a, ha, rfl⟩ := hq
          refine hn.contains (List.mem_append_left _ (List.mem_append_left _ (List.mem_flatMap.mpr
            ⟨.value v, Array.mem_toList_iff.mpr (Array.mem_of_getElem? hp), Option.mem_toList.mpr ha⟩)))
        refine ⟨some v, h', ?_⟩
        dsimp only
        rw [HeapM.bind_apply, e]
        rfl
      | captured y =>
        obtain ⟨w, hw⟩ := hv.captured_of_property ho hp
        obtain ⟨v, hval⟩ := hs.exists_variableValue hw
        obtain ⟨h', e⟩ := hv.exists_getVariable hval
        refine ⟨some v, h', ?_⟩
        dsimp only
        rw [HeapM.bind_apply, e]
        rfl
      | accessor getter setter => exact ⟨none, h, rfl⟩

/-- Every property of every object can be read, and read as undefined if there is none. -/
theorem Valid.performs_getProperty (hv : h.Valid x) (hs : h.Seated) (r : Handle) (atom : Atom) :
    ∃ v h', (Call.getProperty r atom).perform h = .ok (.value v, h') := by
  obtain ⟨v, h', e⟩ : ∃ v h', HeapM.getProperty r atom h = .ok (v, h') := by
    unfold HeapM.getProperty
    rw [HeapM.get_bind]
    cases h.lookup? r atom with
    | none => exact ⟨.undefined, h, rfl⟩
    | some l =>
      obtain ⟨v, h', e⟩ := hv.exists_readSlot hs l.holder l.offset
      refine ⟨v.getD .undefined, h', ?_⟩
      dsimp only
      rw [HeapM.bind_apply, e]
      rfl
  exact ⟨v, h', by rw [Call.perform, Call.answer, HeapM.bind_apply, e]; rfl⟩

/-- A capture of a local that has a variable answers that variable. -/
theorem Valid.exists_captureVariable (hv : h.Valid x) (hs : h.Seated)
    (hr : h.captured? r = some (.attached id slot)) :
    ∃ h', (Call.captureVariable id slot).perform h = .ok (.handle r, h') := by
  have hb := hv.sound.coherent.bound
  obtain ⟨f, hf, hlt⟩ := hs.frame hr
  obtain ⟨g, hg, hmem⟩ := hb.listed r id (frameOf?_of_attached hr)
  rw [hf] at hg
  cases hg
  have hfound : f.openVariables.find? (h.isAttachedTo slot) = some r := by
    cases hfind : f.openVariables.find? (h.isAttachedTo slot) with
    | none =>
      exact absurd (isAttachedTo_of_attached hr)
        (Array.find?_eq_none.mp hfind r (Array.mem_toList_iff.mp hmem))
    | some q =>
      obtain ⟨j, hq⟩ := attached_of_isAttachedTo (Array.find?_some hfind)
      have hframe := hb.attached id f hf q (Array.mem_toList_iff.mpr (Array.mem_of_find?_eq_some hfind))
      rw [frameOf?_of_attached hq] at hframe
      cases hframe
      rw [hs.single q r id slot hq hr]
  obtain ⟨h', e⟩ := exists_retain (h := h) (r := r) (by
    obtain ⟨c, hc, _⟩ := captured?_eq_some_iff.mp hr
    exact contains_of_cell? hc)
  refine ⟨h', ?_⟩
  have hrun : (AllocM.captureVariable id slot).run h = .ok (.ok r, h') := by
    unfold AllocM.captureVariable
    rw [AllocM.get_bind, hf]
    dsimp only
    rw [if_pos hlt, hfound]
    dsimp only
    rw [AllocM.lift_bind_apply, e]
    rfl
  rw [Call.perform, Call.attempt, HeapM.bind_apply, hrun]
  rfl

end Heap

namespace Client

open Heap

variable {config : Config} {h : Heap} {x : Ledger} {s : Bindings}

/-- The heaps a program comes to, what it owns then, and what it has done to its variables. -/
def Programmed (config : Config) : Heap → Ledger → Bindings → Prop :=
  Noted (fun _ _ => True) (fun h op reply _ s => Bindings.note h op reply s) Bindings.start config

theorem Programmed.mirrors (hr : Programmed config h x s) : h.Seated ∧ s.Mirrors h := by
  refine hr.invariant (P := fun h s => h.Seated ∧ s.Mirrors h) ⟨seated_new config, .start config⟩ ?_
  intro h h' y s reply op hv _ _ e hm
  have ht := hv.turns hm.1 op e
  exact ⟨ht.seated hm.1, hm.2.of_turns hm.1 (fun r v ha => Operation.captured_of_assigns e ha) ht⟩

/-- Whatever a program does with frames, captured variables, properties that stand for them, releases and
collections, its variables have the values it assigned last.  That is what it reads from a local of a live
frame, from a captured variable, and from a property that stands for one.  A variable captured from a local
is that local.  A capture of a local that has a variable answers that variable.  When a frame is popped
each of its variables that is left is read as its local was before. -/
theorem variables_keep_values (hr : Programmed config h x s) :
    (∀ id f slot, h.frames.get? id = some f → slot < f.locals.size →
      ∃ h', (Call.getLocal id slot).perform h =
        .ok (.optional (some (s.value (.slot (s.activation id) slot))), h')) ∧
    (∀ r w, h.captured? r = some w →
      ∃ h', (Call.getVariable r).perform h = .ok (.value (s.value (s.binding r)), h')) ∧
    (∀ r atom l o y, h.lookup? r atom = some l → h.object? l.holder = some o →
      o.properties[l.offset]? = some (.captured y) →
        ∃ h', (Call.getProperty r atom).perform h = .ok (.value (s.value (s.binding y)), h')) ∧
    (∀ r id slot, h.captured? r = some (.attached id slot) →
      s.binding r = .slot (s.activation id) slot ∧
        ∃ h', (Call.captureVariable id slot).perform h = .ok (.handle r, h')) ∧
    ∀ r id slot v w h₁, h.captured? r = some (.attached id slot) → h.local? id slot = some v →
      (Call.popFrame id).perform h = .ok (.done, h₁) → h₁.captured? r = some w →
        ∃ h', (Call.getVariable r).perform h₁ = .ok (.value v, h') := by
  obtain ⟨lost, _, hv⟩ := hr.reached.valid
  obtain ⟨hs, m⟩ := hr.mirrors
  refine ⟨fun id f slot hf hlt => ?_, fun r w hw => ?_, fun r atom l o y hl ho hy => ?_, fun r id slot hr => ?_,
    fun r id slot v w h₁ hat hv₀ e hw => ?_⟩
  · have hl : h.local? id slot = some f.locals[slot] := by
      rw [local?, locals?, hf, Option.map_some, Option.bind_some, Array.getElem?_eq_getElem hlt]
    rw [m.locals id slot _ hl]
    exact hv.exists_getLocal hl
  · exact hv.performs_getVariable (variableValue_of_mirrors m hs hw)
  · obtain ⟨w, hw⟩ := hv.captured_of_property ho hy
    exact hv.exists_getProperty hl ho hy (variableValue_of_mirrors m hs hw)
  · exact ⟨m.attached r id slot hr, hv.exists_captureVariable hs hr⟩
  · have hr₁ := hr.next (.call (.popFrame id)) trivial (.of_nothing rfl rfl) e
    obtain ⟨lost₁, _, hv₁⟩ := hr₁.reached.valid
    obtain ⟨hs₁, m₁⟩ := Programmed.mirrors hr₁
    have hval := variableValue_of_mirrors m₁ hs₁ hw
    rw [show s.note h (.call (.popFrame id)) .done = s from rfl, m.attached r id slot hat,
      m.locals id slot v hv₀] at hval
    exact hv₁.performs_getVariable hval

/-- A local with 1 is captured, and 2 is assigned to the variable: the local is read as 2, another capture
answers the same variable, and when the frame is popped the variable is still read as 2. -/
theorem variables_keep_values_assigned : ∃ h h₁ h₂ h₃ h₄, ∃ x s,
    Programmed .default h x s ∧
    (Call.getLocal ⟨0, 0⟩ 0).perform h = .ok (.optional (some (.smi 2)), h₁) ∧
    (Call.captureVariable ⟨0, 0⟩ 0).perform h = .ok (.handle ⟨0, 0⟩, h₂) ∧
    (Call.popFrame ⟨0, 0⟩).perform h = .ok (.done, h₃) ∧
    (Call.getVariable ⟨0, 0⟩).perform h₃ = .ok (.value (.smi 2), h₄) := by
  obtain ⟨h₁, e₁, hrest⟩ := ok_of_answers
    (x := (Call.pushFrame #[.smi 1]).perform (.new .default)) (a := .frame ⟨0, 0⟩)
    (t := fun h => answers ((Call.captureVariable ⟨0, 0⟩ 0).perform h) (.handle ⟨0, 0⟩) fun h =>
      answers ((Call.setVariable ⟨0, 0⟩ (.smi 2)).perform h) .done fun h =>
        decide (h.captured? ⟨0, 0⟩ = some (.attached ⟨0, 0⟩ 0) ∧ h.local? ⟨0, 0⟩ 0 = some (.smi 2)) &&
        answers ((Call.popFrame ⟨0, 0⟩).perform h) .done fun h =>
          decide (h.captured? ⟨0, 0⟩ = some (.detached (.smi 2))))
    (by decide +kernel)
  obtain ⟨h₂, e₂, hrest⟩ := ok_of_answers hrest
  obtain ⟨h₃, e₃, hrest⟩ := ok_of_answers hrest
  obtain ⟨hopen, hrest⟩ := Bool.and_eq_true_iff.mp hrest
  obtain ⟨hat, hlocal⟩ := of_decide_eq_true hopen
  obtain ⟨h₄, e₄, hlast⟩ := ok_of_answers hrest
  have hstart : Programmed .default (.new .default) .empty .start := .start
  have hr₁ := hstart.next (.call (.pushFrame #[.smi 1])) trivial (.of_nothing rfl rfl) e₁
  have hr₂ := hr₁.next (.call (.captureVariable ⟨0, 0⟩ 0)) trivial (.of_nothing rfl rfl) e₂
  have hr₃ := hr₂.next (.call (.setVariable ⟨0, 0⟩ (.smi 2))) trivial (.of_nothing rfl rfl) e₃
  obtain ⟨hlocals, _, _, hcaptures, hpopped⟩ := variables_keep_values hr₃
  obtain ⟨locals, hl, hslot⟩ := Option.bind_eq_some_iff.mp hlocal
  obtain ⟨f, hf, rfl⟩ := Option.map_eq_some_iff.mp hl
  obtain ⟨_, hget⟩ := hlocals ⟨0, 0⟩ f 0 hf (Array.getElem?_eq_some_iff.mp hslot).1
  obtain ⟨_, _, hcapture⟩ := hcaptures _ _ _ hat
  obtain ⟨_, hread⟩ := hpopped _ _ _ _ _ _ hat hlocal e₄ (of_decide_eq_true hlast)
  exact ⟨h₃, _, _, h₄, _, _, _, hr₃, hget, hcapture, e₄, hread⟩

end Client

end ObjectMemory
