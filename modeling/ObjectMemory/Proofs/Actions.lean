import ObjectMemory.Heap.Allocation
set_option autoImplicit false

/-!
# Taking actions apart

An action that ends well ends well in every part.  The lemmas of this module turn the equation of a
composed action into the equations of its parts, one intermediate heap at a time.  An action that may
run out of memory is taken apart the same way; there a part may also be the one that ran out.
-/

namespace ObjectMemory

/-- What every step of a fold keeps, the fold keeps. -/
theorem foldlM_ok_induct {σ α : Type} {f : σ → α → Except Fault σ} {P : σ → Prop}
    (hstep : ∀ s a s', P s → f s a = .ok s' → P s') {xs : List α} {s s' : σ} (hs : P s)
    (e : xs.foldlM f s = .ok s') : P s' := by
  induction xs generalizing s with
  | nil =>
    cases e
    exact hs
  | cons a rest ih =>
    rw [List.foldlM_cons] at e
    cases ha : f s a with
    | error err =>
      rw [ha] at e
      cases e
    | ok s₁ =>
      rw [ha] at e
      exact ih (hstep s a s₁ hs ha) e

/-- A fold whose steps never fault ends, with what the steps say of the items that are done. -/
theorem foldlM_of_invariant {σ α : Type} {f : σ → α → Except Fault σ} {P : List α → σ → Prop}
    (xs : List α) {s : σ}
    (hstep : ∀ done a rest s, xs = done ++ a :: rest → P done s →
      ∃ s', f s a = .ok s' ∧ P (done ++ [a]) s') (hs : P [] s) :
    ∃ s', xs.foldlM f s = .ok s' ∧ P xs s' := by
  have hall : ∀ rest done s, xs = done ++ rest → P done s →
      ∃ s', rest.foldlM f s = .ok s' ∧ P xs s' := by
    intro rest
    induction rest with
    | nil =>
      intro done s hxs hp
      rw [List.append_nil] at hxs
      exact ⟨s, rfl, hxs ▸ hp⟩
    | cons a rest ih =>
      intro done s hxs hp
      obtain ⟨s₁, hok, hp₁⟩ := hstep done a rest s hxs hp
      obtain ⟨s', hrest, hp'⟩ := ih (done ++ [a]) s₁ (by rw [hxs, List.append_assoc]; rfl) hp₁
      exact ⟨s', by rw [List.foldlM_cons, hok]; exact hrest, hp'⟩
  exact hall xs [] s rfl hs

/-- The parts of a sequence of two computations that may fault. -/
theorem except_bind_eq_ok {α β : Type} {x : Except Fault α} {f : α → Except Fault β} {b : β}
    (e : (x >>= f) = .ok b) : ∃ a, x = .ok a ∧ f a = .ok b := by
  cases x with
  | error err => cases e
  | ok a => exact ⟨a, rfl, e⟩

/-- The outcome is good and passes a test. -/
def passes {α : Type} (x : Except Fault α) (t : α → Bool) : Bool :=
  match x with
  | .ok a => t a
  | .error _ => false

theorem ok_of_test {α : Type} {x : Except Fault α} {t : α → Bool} (hx : passes x t = true) :
    ∃ a, x = .ok a ∧ t a = true := by
  cases x with
  | ok a => exact ⟨a, rfl, hx⟩
  | error e => cases hx

/-- The answer is `a`, and the heap passes a test. -/
def answers {α : Type} [DecidableEq α] (x : Except Fault (α × Heap)) (a : α) (t : Heap → Bool) : Bool :=
  passes x fun p => decide (p.1 = a) && t p.2

theorem ok_of_answers {α : Type} [DecidableEq α] {x : Except Fault (α × Heap)} {a : α} {t : Heap → Bool}
    (hx : answers x a t = true) : ∃ h, x = .ok (a, h) ∧ t h = true := by
  obtain ⟨⟨a', h⟩, e, ht⟩ := ok_of_test hx
  obtain ⟨ha, htest⟩ := Bool.and_eq_true_iff.mp ht
  obtain rfl := of_decide_eq_true ha
  exact ⟨h, e, htest⟩

/-- The outcome is a certain fault. -/
def fails {α : Type} (x : Except Fault α) (err : Fault) : Bool :=
  match x with
  | .ok _ => false
  | .error err' => decide (err' = err)

theorem error_of_fails {α : Type} {x : Except Fault α} {err : Fault} (hx : fails x err = true) :
    x = .error err := by
  cases x with
  | ok a => cases hx
  | error err' => exact congrArg Except.error (of_decide_eq_true hx)

/-- The outcome is good and `R` holds of it, or it is a fault that is not barred. -/
def Yields {α : Type} (bars : Fault → Bool) (R : α → Prop) : Except Fault α → Prop
  | .ok a => R a
  | .error err => bars err = false

namespace Yields

variable {α β σ : Type} {bars : Fault → Bool} {R : α → Prop} {S : β → Prop} {x : Except Fault α}

theorem of_ok {a : α} (hx : Yields bars R x) (e : x = .ok a) : R a := by
  rw [e] at hx
  exact hx

theorem of_error {err : Fault} (hx : Yields bars R x) (e : x = .error err) : bars err = false := by
  rw [e] at hx
  exact hx

theorem mono {R' : α → Prop} (hx : Yields bars R x) (himp : ∀ a, x = .ok a → R a → R' a) :
    Yields bars R' x := by
  cases x with
  | ok a => exact himp a rfl hx
  | error err => exact hx

theorem bind {f : α → Except Fault β} (hx : Yields bars R x)
    (hf : ∀ a, x = .ok a → R a → Yields bars S (f a)) : Yields bars S (x >>= f) := by
  cases x with
  | ok a => exact hf a rfl hx
  | error err => exact hx

/-- What every step of a fold keeps, the fold keeps. -/
theorem foldlM {f : σ → α → Except Fault σ} {P : σ → Prop} (hstep : ∀ s a, P s → Yields bars P (f s a))
    (xs : List α) {s : σ} (hs : P s) : Yields bars P (xs.foldlM f s) := by
  induction xs generalizing s with
  | nil => exact hs
  | cons a xs ih =>
    rw [List.foldlM_cons]
    exact (hstep s a hs).bind fun s' _ hs' => ih hs'

end Yields

namespace HeapM

variable {α β : Type} {h h' : Heap}

/-- A sequence of two actions goes on where the first ended. -/
theorem bind_apply (x : HeapM α) (f : α → HeapM β) (h : Heap) :
    (x >>= f) h = match x h with
      | .ok (a, h₁) => f a h₁
      | .error e => .error e := by
  change ((x h) >>= fun p => f p.1 p.2) = _
  cases x h <;> rfl

/-- An action after one that is known to end well. -/
theorem bind_of_ok {x : HeapM α} {f : α → HeapM β} {a : α} {h₁ : Heap} (e : x h = .ok (a, h₁)) :
    (x >>= f) h = f a h₁ := by
  rw [bind_apply, e]

theorem yields_bind {bars : Fault → Bool} {R : α × Heap → Prop} {S : β × Heap → Prop} {x : HeapM α}
    {f : α → HeapM β} (hx : Yields bars R (x h))
    (hf : ∀ a h₁, x h = .ok (a, h₁) → R (a, h₁) → Yields bars S (f a h₁)) : Yields bars S ((x >>= f) h) := by
  rw [bind_apply]
  split
  · rename_i a h₁ e
    exact hf a h₁ e (hx.of_ok e)
  · rename_i e
    exact hx.of_error e

/-- The parts of a sequence of two actions. -/
theorem bind_eq_ok {x : HeapM α} {f : α → HeapM β} {b : β}
    (e : (x >>= f) h = .ok (b, h')) : ∃ a h₁, x h = .ok (a, h₁) ∧ f a h₁ = .ok (b, h') := by
  change ((x h) >>= fun p => f p.1 p.2) = .ok (b, h') at e
  cases hx : x h with
  | error err =>
    rw [hx] at e
    cases e
  | ok p =>
    rw [hx] at e
    exact ⟨p.1, p.2, rfl, e⟩

theorem pure_eq_ok {a b : α} (e : (pure a : HeapM α) h = .ok (b, h')) : b = a ∧ h' = h := by
  cases e
  exact ⟨rfl, rfl⟩

theorem get_bind {f : Heap → HeapM β} : ((get : HeapM Heap) >>= f) h = f h h := rfl

theorem modify_eq_ok {f : Heap → Heap} {u : Unit}
    (e : (modify f : HeapM Unit) h = .ok (u, h')) : h' = f h := by
  cases e
  rfl

theorem read_eq_ok {f : Heap → Except Fault α} {a : α} (e : read f h = .ok (a, h')) :
    f h = .ok a ∧ h' = h := by
  unfold read at e
  split at e
  · rename_i b hb
    cases e
    exact ⟨hb, rfl⟩
  · cases e

theorem read_apply {f : Heap → Except Fault α} {a : α} (hf : f h = .ok a) : read f h = .ok (a, h) := by
  unfold read
  rw [hf]

theorem fault_eq_ok {cause : Fault} {a : α} (e : fault cause h = .ok (a, h')) : False := by
  cases e

theorem change_apply {f : Heap → Except Fault Heap} (hf : f h = .ok h') :
    change f h = .ok ((), h') := by
  unfold change
  rw [hf]

theorem change_eq_ok {f : Heap → Except Fault Heap} {u : Unit} (e : change f h = .ok (u, h')) :
    f h = .ok h' := by
  unfold change at e
  split at e
  · rename_i b hb
    cases e
    exact hb
  · cases e

end HeapM

namespace AllocM

variable {α β : Type} {h h' : Heap}

/-- A sequence of two actions goes on where the first ended, unless memory ran out. -/
theorem bind_apply (x : AllocM α) (f : α → AllocM β) (h : Heap) :
    (x >>= f).run h = match x.run h with
      | .ok (.ok a, h₁) => (f a).run h₁
      | .ok (.error err, h₁) => .ok (.error err, h₁)
      | .error e => .error e := by
  change ((x.run : HeapM _) >>= ExceptT.bindCont f) h = _
  rw [HeapM.bind_apply]
  cases x.run h with
  | error e => rfl
  | ok p =>
    obtain ⟨res, h₁⟩ := p
    cases res <;> rfl

theorem lift_apply (x : HeapM α) (h : Heap) :
    (liftM x : AllocM α).run h = match x h with
      | .ok (a, h₁) => .ok (.ok a, h₁)
      | .error e => .error e :=
  HeapM.bind_apply x (fun a => pure (Except.ok a)) h

theorem lift_bind_apply (x : HeapM α) (f : α → AllocM β) (h : Heap) :
    ((liftM x : AllocM α) >>= f).run h = match x h with
      | .ok (a, h₁) => (f a).run h₁
      | .error e => .error e := by
  rw [bind_apply, lift_apply]
  cases x h <;> rfl

/-- An action after one that is known to end well and cannot run out of memory. -/
theorem lift_bind_of_ok {x : HeapM α} {f : α → AllocM β} {a : α} {h₁ : Heap} (e : x h = .ok (a, h₁)) :
    ((liftM x : AllocM α) >>= f).run h = (f a).run h₁ := by
  rw [lift_bind_apply, e]

theorem lift_of_ok {x : HeapM α} {a : α} {h₁ : Heap} (e : x h = .ok (a, h₁)) :
    (liftM x : AllocM α).run h = .ok (.ok a, h₁) := by
  rw [lift_apply, e]

theorem yields_bind {bars : Fault → Bool} {R : Except OutOfMemory α × Heap → Prop}
    {S : Except OutOfMemory β × Heap → Prop} {x : AllocM α} {f : α → AllocM β} (hx : Yields bars R (x.run h))
    (hf : ∀ a h₁, x.run h = .ok (.ok a, h₁) → R (.ok a, h₁) → Yields bars S ((f a).run h₁))
    (he : ∀ err h₁, x.run h = .ok (.error err, h₁) → R (.error err, h₁) → S (.error err, h₁)) :
    Yields bars S ((x >>= f).run h) := by
  rw [bind_apply]
  split
  · rename_i a h₁ e
    exact hf a h₁ e (hx.of_ok e)
  · rename_i err h₁ e
    exact he err h₁ e (hx.of_ok e)
  · rename_i e
    exact hx.of_error e

theorem yields_lift {bars : Fault → Bool} {R : Except OutOfMemory α × Heap → Prop} {x : HeapM α}
    (hx : Yields bars (fun p => R (.ok p.1, p.2)) (x h)) : Yields bars R ((liftM x : AllocM α).run h) := by
  rw [lift_apply]
  split
  · rename_i e
    exact hx.of_ok e
  · rename_i e
    exact hx.of_error e

theorem yields_lift_bind {bars : Fault → Bool} {R : α × Heap → Prop} {S : Except OutOfMemory β × Heap → Prop}
    {x : HeapM α} {f : α → AllocM β} (hx : Yields bars R (x h))
    (hf : ∀ a h₁, x h = .ok (a, h₁) → R (a, h₁) → Yields bars S ((f a).run h₁)) :
    Yields bars S (((liftM x : AllocM α) >>= f).run h) := by
  rw [lift_bind_apply]
  split
  · rename_i a h₁ e
    exact hf a h₁ e (hx.of_ok e)
  · rename_i e
    exact hx.of_error e

/-- The parts of a sequence of two actions: both ended, or memory ran out in the first. -/
theorem bind_eq_ok {x : AllocM α} {f : α → AllocM β} {res : Except OutOfMemory β}
    (e : (x >>= f).run h = .ok (res, h')) :
    (∃ a h₁, x.run h = .ok (.ok a, h₁) ∧ (f a).run h₁ = .ok (res, h')) ∨
      ∃ err, x.run h = .ok (.error err, h') ∧ res = .error err := by
  obtain ⟨r, h₁, hx, hf⟩ := HeapM.bind_eq_ok (x := (x.run : HeapM _)) (f := ExceptT.bindCont f) e
  cases r with
  | ok a => exact .inl ⟨a, h₁, hx, hf⟩
  | error err =>
    cases hf
    exact .inr ⟨err, hx, rfl⟩

theorem pure_eq_ok {a : α} {res : Except OutOfMemory α}
    (e : (pure a : AllocM α).run h = .ok (res, h')) : res = .ok a ∧ h' = h := by
  cases e
  exact ⟨rfl, rfl⟩

theorem throw_eq_ok {err : OutOfMemory} {res : Except OutOfMemory α}
    (e : (throw err : AllocM α).run h = .ok (res, h')) : res = .error err ∧ h' = h := by
  cases e
  exact ⟨rfl, rfl⟩

theorem lift_eq_ok {x : HeapM α} {res : Except OutOfMemory α}
    (e : (liftM x : AllocM α).run h = .ok (res, h')) : ∃ a, x h = .ok (a, h') ∧ res = .ok a := by
  obtain ⟨a, h₁, hx, hp⟩ := HeapM.bind_eq_ok (x := x) (f := fun a => pure (Except.ok a)) e
  cases hp
  exact ⟨a, hx, rfl⟩

/-- An action that cannot run out of memory, in front of others. -/
theorem lift_bind_eq_ok {x : HeapM α} {f : α → AllocM β} {res : Except OutOfMemory β}
    (e : ((liftM x : AllocM α) >>= f).run h = .ok (res, h')) :
    ∃ a h₁, x h = .ok (a, h₁) ∧ (f a).run h₁ = .ok (res, h') := by
  rcases bind_eq_ok e with ⟨a, h₁, hx, hf⟩ | ⟨err, hx, _⟩
  · obtain ⟨b, hb, hab⟩ := lift_eq_ok hx
    cases hab
    exact ⟨_, h₁, hb, hf⟩
  · obtain ⟨b, _, hb⟩ := lift_eq_ok hx
    cases hb

theorem get_bind {f : Heap → AllocM β} : ((get : AllocM Heap) >>= f).run h = (f h).run h := rfl

theorem modify_bind {g : Heap → Heap} {f : Unit → AllocM β} :
    ((modify g : AllocM Unit) >>= f).run h = (f ()).run (g h) := rfl

theorem modify_eq_ok {g : Heap → Heap} {res : Except OutOfMemory Unit}
    (e : (modify g : AllocM Unit).run h = .ok (res, h')) : res = .ok () ∧ h' = g h := by
  cases e
  exact ⟨rfl, rfl⟩

/-- The parts of an attempt: it ended, or memory ran out and what was to be done then ended. -/
theorem tryCatch_eq_ok {x : AllocM α} {c : OutOfMemory → AllocM α} {res : Except OutOfMemory α}
    (e : (tryCatch x c).run h = .ok (res, h')) :
    (∃ a, x.run h = .ok (.ok a, h') ∧ res = .ok a) ∨
      ∃ err h₁, x.run h = .ok (.error err, h₁) ∧ (c err).run h₁ = .ok (res, h') := by
  simp only [tryCatch, tryCatchThe, MonadExceptOf.tryCatch, ExceptT.tryCatch] at e
  obtain ⟨r, h₁, hx, hf⟩ := HeapM.bind_eq_ok e
  cases r with
  | ok a =>
    cases hf
    exact .inl ⟨a, hx, rfl⟩
  | error err => exact .inr ⟨err, h₁, hx, hf⟩

theorem yields_tryCatch {bars : Fault → Bool} {x : AllocM α} {c : OutOfMemory → AllocM α}
    {R S : Except OutOfMemory α × Heap → Prop} (hx : Yields bars R (x.run h))
    (hok : ∀ a h₁, x.run h = .ok (.ok a, h₁) → R (.ok a, h₁) → S (.ok a, h₁))
    (hc : ∀ err h₁, x.run h = .ok (.error err, h₁) → R (.error err, h₁) →
      Yields bars S ((c err).run h₁)) : Yields bars S ((tryCatch x c).run h) := by
  simp only [tryCatch, tryCatchThe, MonadExceptOf.tryCatch, ExceptT.tryCatch]
  refine HeapM.yields_bind (R := R) hx fun res h₁ e hres => ?_
  cases res with
  | ok a => exact hok a h₁ e hres
  | error err => exact hc err h₁ e hres

theorem fault_eq_ok {cause : Fault} {res : Except OutOfMemory α}
    (e : (liftM (HeapM.fault cause : HeapM α) : AllocM α).run h = .ok (res, h')) : False := by
  obtain ⟨a, ha, _⟩ := lift_eq_ok e
  exact HeapM.fault_eq_ok ha

end AllocM

end ObjectMemory
