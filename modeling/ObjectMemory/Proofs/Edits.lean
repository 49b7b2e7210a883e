import ObjectMemory.Proofs.History
set_option autoImplicit false

/-!
# Editing a layout in place

A change in place counts itself and then edits the layout, or the other way round.  Between the two
steps the shape in its slot `i` is not what `Heap.Evolves` asks for.  `Heap.Edits i k n h h'` is the
same relation with slot `i` let off: there it only asks that the shape counted at least `k` changes.
Once one change is counted the edit is complete (`Heap.Edits.evolves`).
-/

namespace ObjectMemory.Heap

/-- `h'` may come after `h` but for the layout in slot `i`, where at least `k` changes were counted. -/
structure Edits (i k n : Nat) (h h' : Heap) : Prop where
  size : h.slots.size ≤ h'.slots.size
  frees : ∀ j, h.frees j ≤ h'.frees j
  tenures : ∀ j, h'.tenures j ≤ h.tenures j + n
  kept : ∀ j c, h.tenant? j = some c → h'.frees j = h.frees j →
    ∃ c', h'.tenant? j = some c' ∧ c'.body.kind = c.body.kind ∧ (j ≠ i → c.body.Follows c'.body) ∧
      (j = i → ∀ s, c.body = .shape s → ∃ s', c'.body = .shape s' ∧ s.changes + k ≤ s'.changes)

variable {h h₁ h' : Heap} {i k l n m : Nat}

namespace Edits

theorem of_evolves (e : Evolves n h h') (i : Nat) : Edits i 0 n h h' := by
  refine ⟨e.size, e.frees, e.tenures, fun j c hc hf => ?_⟩
  obtain ⟨c', hc', hb⟩ := e.kept j c hc hf
  refine ⟨c', hc', hb.kind, fun _ => hb, fun _ s hs => ?_⟩
  obtain ⟨s', hs', hfollow⟩ := hb.shape s hs
  exact ⟨s', hs', hfollow.changes⟩

theorem trans (e₁ : Edits i k n h h₁) (e₂ : Edits i l m h₁ h') : Edits i (k + l) (n + m) h h' := by
  refine ⟨Nat.le_trans e₁.size e₂.size, fun j => Nat.le_trans (e₁.frees j) (e₂.frees j),
    fun j => ?_, fun j c hc hf => ?_⟩
  · have h1 := e₁.tenures j
    have h2 := e₂.tenures j
    omega
  · have h1 := e₁.frees j
    have h2 := e₂.frees j
    obtain ⟨c₁, hc₁, hk₁, hother₁, hhere₁⟩ := e₁.kept j c hc (by omega)
    obtain ⟨c', hc', hk', hother', hhere'⟩ := e₂.kept j c₁ hc₁ (by omega)
    refine ⟨c', hc', hk'.trans hk₁, fun hj => (hother₁ hj).trans (hother' hj), fun hj s hs => ?_⟩
    obtain ⟨s₁, hs₁, hle₁⟩ := hhere₁ hj s hs
    obtain ⟨s', hs', hle'⟩ := hhere' hj s₁ hs₁
    exact ⟨s', hs', by omega⟩

theorem then_evolves (e₁ : Edits i k n h h₁) (e₂ : Evolves m h₁ h') : Edits i k (n + m) h h' :=
  e₁.trans (of_evolves e₂ i)

/-- An edit that counted a change is a step of the history. -/
theorem evolves (e : Edits i k n h h') (hk : 0 < k) : Evolves n h h' := by
  refine ⟨e.size, e.frees, e.tenures, fun j c hc hf => ?_⟩
  obtain ⟨c', hc', hkind, hother, hhere⟩ := e.kept j c hc hf
  by_cases hj : j = i
  · refine ⟨c', hc', hkind, fun s hs => ?_⟩
    obtain ⟨s', hs', hle⟩ := hhere hj s hs
    exact ⟨s', hs', .of_lt (by omega)⟩
  · exact ⟨c', hc', hother hj⟩

/-- A change of the shape in slot `i` that counts `k` changes. -/
theorem modifyShapeAt (h : Heap) (i : Nat) {f : Shape → Shape}
    (hf : ∀ s, s.changes + k ≤ (f s).changes) : Edits i k 0 h (h.modifyShapeAt i f) := by
  refine ⟨by simp [Heap.modifyShapeAt, modifyBody], fun j => by simp [Heap.modifyShapeAt, modifyBody],
    fun j => ?_, fun j c hc _ => ?_⟩
  · unfold Heap.tenures Heap.modifyShapeAt modifyBody
    rw [frees_modifyCell, tenant?_modifyCell]
    split <;> simp
  · unfold Heap.modifyShapeAt modifyBody
    rw [tenant?_modifyCell]
    by_cases hij : i = j
    · rw [if_pos hij, hc]
      refine ⟨_, rfl, ?_, fun hj => absurd hij.symm hj, fun _ s hs => ⟨f s, by simp [hs], hf s⟩⟩
      dsimp only
      split <;> simp_all [Body.kind]
    · rw [if_neg hij, hc]
      exact ⟨c, rfl, rfl, fun _ => .refl _, fun hj => absurd hj.symm hij⟩

/-- A cell put into a slot that was vacant before cannot be told from an edited one. -/
theorem of_vacant (e₁ : Evolves n h h₁) (e₂ : Evolves m h₁ h') (hv : h₁.tenant? i = none) (k : Nat) :
    Edits i k (n + m) h h' := by
  have e := e₁.trans e₂
  refine ⟨e.size, e.frees, e.tenures, fun j c hc hf => ?_⟩
  obtain ⟨c', hc', hb⟩ := e.kept j c hc hf
  refine ⟨c', hc', hb.kind, fun _ => hb, fun hj s _ => ?_⟩
  subst hj
  have hle := e₁.frees j
  have hle' := e₂.frees j
  obtain ⟨c₁, hc₁, _⟩ := e₁.kept j c hc (by omega)
  rw [hv] at hc₁
  cases hc₁

end Edits

end ObjectMemory.Heap

namespace ObjectMemory

/-! ## Actions -/

namespace HeapM

variable {α β : Type} {n : Nat}

/-- Whenever the action ends well, the heap after it may come after the heap before it. -/
def Tracks (n : Nat) (act : HeapM α) : Prop := ∀ h a h', act h = .ok (a, h') → h.Evolves n h'

namespace Tracks

theorem pure (a : α) : Tracks n (pure a : HeapM α) := by
  intro h b h' e
  obtain ⟨_, rfl⟩ := pure_eq_ok e
  exact (Heap.Evolves.refl _).mono (Nat.zero_le n)

/-- A part that makes no cell, in front of others. -/
theorem bind {x : HeapM α} {f : α → HeapM β} (hx : Tracks 0 x) (hf : ∀ a, Tracks n (f a)) :
    Tracks n (x >>= f) := by
  intro h b h' e
  obtain ⟨a, h₁, e₁, e₂⟩ := bind_eq_ok e
  exact ((hx h a h₁ e₁).trans (hf a h₁ b h' e₂)).mono (by omega)

theorem get_bind {f : Heap → HeapM β} (hf : ∀ h, Tracks n (f h)) :
    Tracks n ((get : HeapM Heap) >>= f) := fun h b h' e => hf h h b h' e

theorem read (f : Heap → Except Fault α) : Tracks 0 (read f) := by
  intro h a h' e
  obtain ⟨_, rfl⟩ := read_eq_ok e
  exact .refl _

theorem fault (cause : Fault) : Tracks n (fault cause : HeapM α) :=
  fun _ _ _ e => (fault_eq_ok e).elim

theorem modify {f : Heap → Heap} (hf : ∀ h : Heap, h.Evolves n (f h)) :
    Tracks n (modify f : HeapM Unit) := by
  intro h a h' e
  rw [modify_eq_ok e]
  exact hf h

end Tracks

end HeapM

namespace AllocM

variable {α β : Type} {n m : Nat}

/-- Whenever the action ends, also by running out of memory, the heap after it may come after the heap
before it. -/
def Tracks (n : Nat) (act : AllocM α) : Prop := HeapM.Tracks n act.run

namespace Tracks

theorem pure (a : α) : Tracks n (pure a : AllocM α) := HeapM.Tracks.pure (Except.ok a)

theorem throw (err : OutOfMemory) : Tracks n (throw err : AllocM α) :=
  HeapM.Tracks.pure (Except.error err)

/-- Parts that make at most `n` and `m` cells. -/
theorem andThen {x : AllocM α} {f : α → AllocM β} (hx : Tracks n x) (hf : ∀ a, Tracks m (f a)) :
    Tracks (n + m) (x >>= f) := by
  intro h b h' e
  rcases bind_eq_ok e with ⟨a, h₁, e₁, e₂⟩ | ⟨err, e₁, _⟩
  · exact (hx h _ h₁ e₁).trans (hf a h₁ b h' e₂)
  · exact (hx h _ h' e₁).mono (by omega)

/-- A part that makes no cell, in front of others. -/
theorem bind {x : AllocM α} {f : α → AllocM β} (hx : Tracks 0 x) (hf : ∀ a, Tracks n (f a)) :
    Tracks n (x >>= f) := by
  have h := andThen hx hf
  rwa [Nat.zero_add] at h

theorem get_bind {f : Heap → AllocM β} (hf : ∀ h, Tracks n (f h)) :
    Tracks n ((get : AllocM Heap) >>= f) := fun h b h' e => hf h h b h' e

theorem lift {x : HeapM α} (hx : x.Tracks n) : Tracks n (liftM x : AllocM α) := by
  intro h b h' e
  obtain ⟨a, ha, _⟩ := lift_eq_ok e
  exact hx h a h' ha

theorem fault_bind (cause : Fault) (f : α → AllocM β) :
    Tracks n ((liftM (HeapM.fault cause : HeapM α) : AllocM α) >>= f) := by
  intro h b h' e
  obtain ⟨_, _, e₁, _⟩ := lift_bind_eq_ok e
  exact (HeapM.fault_eq_ok e₁).elim

/-- What is done when memory ran out makes no cell. -/
theorem tryCatch {x : AllocM α} {c : OutOfMemory → AllocM α} (hx : Tracks n x)
    (hc : ∀ err, Tracks 0 (c err)) : Tracks n (tryCatch x c) := by
  intro h b h' e
  rcases tryCatch_eq_ok e with ⟨a, e₁, _⟩ | ⟨err, h₁, e₁, e₂⟩
  · exact hx h _ h' e₁
  · exact (hx h _ h₁ e₁).trans (hc err h₁ b h' e₂)

theorem mono {x : AllocM α} (hx : Tracks n x) (hn : n ≤ m) : Tracks m x :=
  fun h a h' e => (hx h a h' e).mono hn

theorem modify {f : Heap → Heap} (hf : ∀ h : Heap, h.Evolves n (f h)) :
    Tracks n (modify f : AllocM Unit) := by
  intro h a h' e
  obtain ⟨_, rfl⟩ := modify_eq_ok e
  exact hf h

end Tracks

end AllocM

end ObjectMemory
