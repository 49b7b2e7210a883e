import ObjectMemory.InlineCache.Access
import ObjectMemory.Proofs.Call
import ObjectMemory.Proofs.Primitives
import ObjectMemory.Proofs.Shifts
set_option autoImplicit false

/-!
# Actions that make no cell

Most of what an operation does on its way makes no cell and edits no layout, variable or local: it counts
references, frees and collects, keeps accounts, reads, or changes an object.  Such an action is a run of
the changes of `Heap.Shift`, whatever it is handed.

That is said here once for each of them (`HeapM.Shifting`, `AllocM.Shifting`).  Every relation between
heaps that holds along a run of such changes then holds along all of these actions: the history of a heap,
the runs of changes that leave variables alone, and the strokes any operation is made of.
-/

namespace ObjectMemory

/-! ## Actions on a heap -/

namespace HeapM

variable {α β : Type}

/-- Whenever the action ends well, changes that make no cell lead to the heap after it. -/
def Shifting (act : HeapM α) : Prop := ∀ h a h', act h = .ok (a, h') → h.Shifts h'

namespace Shifting

theorem pure (a : α) : Shifting (pure a : HeapM α) := by
  intro h b h' e
  obtain ⟨_, rfl⟩ := pure_eq_ok e
  exact .refl _

theorem bind {x : HeapM α} {f : α → HeapM β} (hx : Shifting x) (hf : ∀ a, Shifting (f a)) :
    Shifting (x >>= f) := by
  intro h b h' e
  obtain ⟨a, h₁, e₁, e₂⟩ := bind_eq_ok e
  exact (hx h a h₁ e₁).trans (hf a h₁ b h' e₂)

theorem get_bind {f : Heap → HeapM β} (hf : ∀ h, Shifting (f h)) : Shifting ((get : HeapM Heap) >>= f) :=
  fun h b h' e => hf h h b h' e

theorem read (f : Heap → Except Fault α) : Shifting (read f) := by
  intro h a h' e
  obtain ⟨_, rfl⟩ := read_eq_ok e
  exact .refl _

theorem fault (cause : Fault) : Shifting (fault cause : HeapM α) := fun _ _ _ e => (fault_eq_ok e).elim

theorem modify {f : Heap → Heap} (hf : ∀ h : Heap, h.Shifts (f h)) : Shifting (modify f : HeapM Unit) := by
  intro h a h' e
  rw [modify_eq_ok e]
  exact hf h

theorem change {f : Heap → Except Fault Heap} (hf : ∀ h h', f h = .ok h' → h.Shifts h') :
    Shifting (change f) := fun h _ h' e => hf h h' (change_eq_ok e)

/-! ### References -/

theorem retain (r : Handle) : Shifting (retain r) := by
  intro h a h' e
  unfold HeapM.retain at e
  split at e
  · cases e
    exact .touch h r.index (fun _ => rfl) fun _ => rfl
  · cases e

theorem retainOption (r : Option Handle) : Shifting (retainOption r) := by
  cases r with
  | none => exact .pure ()
  | some r => exact .retain r

theorem release (r : Handle) : Shifting (release r) := .change fun _ _ => .run

theorem releaseAll (rs : List Handle) : Shifting (releaseAll rs) := by
  induction rs with
  | nil => exact .pure ()
  | cons r rest ih => exact .bind (.release r) fun _ => ih

theorem dupValue (v : Value) : Shifting (dupValue v) := .bind (.retainOption v.ref?) fun _ => .pure v

theorem freeValue (v : Value) : Shifting (freeValue v) := .releaseAll _

theorem freeValues (vs : Array Value) : Shifting (freeValues vs) := .releaseAll _

theorem flushRoots : Shifting flushRoots :=
  .get_bind fun _ => .bind (.modify fun _ => .aside rfl rfl rfl rfl rfl) fun _ => .releaseAll _

theorem collect : Shifting collect := by
  refine .get_bind fun h => ?_
  split
  · exact .pure 0
  · refine .bind .flushRoots fun _ => .get_bind fun _ => ?_
    exact .bind (.change fun _ _ => .collectCycles) fun _ => .get_bind fun _ => .pure _

theorem root (r : Handle) : Shifting (root r) := by
  refine .get_bind fun h => ?_
  split
  · exact .pure _
  · exact .fault _

theorem cloneRoot (x : Root) : Shifting (cloneRoot x) := .bind (.retain _) fun _ => .root _

theorem dropRoot (x : Root) : Shifting (dropRoot x) := .modify fun _ => .aside rfl rfl rfl rfl rfl

/-! ### Accounts -/

theorem uncharge (n : Nat) : Shifting (uncharge n) := by
  intro h a h' e
  obtain ⟨-, rfl⟩ := Heap.uncharge_eq_ok e
  exact .aside rfl rfl rfl rfl rfl

theorem unchargeCell (r : Handle) (n : Nat) : Shifting (unchargeCell r n) := by
  refine .bind (.uncharge n) fun _ => .bind (.read _) fun c => ?_
  split
  · exact .fault _
  · exact .modify fun h => .touch h r.index (fun _ => rfl) fun _ => rfl

theorem collectIfDue : Shifting collectIfDue := by
  refine .get_bind fun h => ?_
  split
  · exact .bind .collect fun _ => .modify fun _ => .aside rfl rfl rfl rfl rfl
  · exact .pure ()

/-! ### Objects -/

theorem shape (r : Handle) : Shifting (shape r) := .read _

theorem object (r : Handle) : Shifting (object r) := .read _

theorem objectShape (r : Handle) : Shifting (objectShape r) := .read _

/-- An object remains an object. -/
theorem modifyObject (r : Handle) (f : Object → Object) : Shifting (modifyObject r f) := by
  intro h a h' e
  obtain ⟨_, _, _, _, rfl⟩ := Heap.modifyObject_eq_ok e
  refine .single (.rewrite h r.index fun c _ => ?_)
  cases c.body with
  | object o => exact .inr ⟨rfl, rfl⟩
  | _ => exact .inl rfl

theorem setShape (r shape : Handle) : Shifting (setShape r shape) := .modifyObject r _

theorem replaceProperty (r : Handle) (i : Nat) (p : Property) : Shifting (replaceProperty r i p) := by
  refine .bind (.object r) fun o => ?_
  split
  · exact .fault _
  · exact .bind (.modifyObject r _) fun _ => .pure _

theorem releaseProperty (p : Property) : Shifting (releaseProperty p) := .releaseAll _

theorem preventExtensions (r : Handle) : Shifting (preventExtensions r) := .modifyObject r _

theorem arrayExtent (r : Handle) : Shifting (arrayExtent r) := by
  refine .bind (.object r) fun o => ?_
  split
  · exact .pure _
  · exact .fault _

theorem setLength (r : Handle) (n : Nat) : Shifting (setLength r n) := by
  refine .bind (.objectShape r) fun shape => .get_bind fun h => ?_
  split
  · exact .pure ()
  · refine .bind (.object r) fun o => ?_
    split
    · exact .modifyObject r _
    · exact .fault _

/-! ### Reading and writing -/

theorem getVariable (r : Handle) : Shifting (getVariable r) := .bind (.read _) fun v => .dupValue v

theorem getLocal (id : FrameId) (slot : Nat) : Shifting (getLocal id slot) := by
  refine .get_bind fun h => ?_
  split
  · exact .pure _
  · exact .bind (.dupValue _) fun _ => .pure _

theorem readSlot (r : Handle) (offset : Nat) : Shifting (readSlot r offset) := by
  refine .get_bind fun h => ?_
  split
  · exact .pure _
  · split
    · exact .bind (.dupValue _) fun _ => .pure _
    · exact .bind (.getVariable _) fun _ => .pure _
    · exact .pure _
    · exact .pure _

theorem writeSlot (r : Handle) (offset : Nat) (v : Value) : Shifting (writeSlot r offset v) := by
  refine .bind (.object r) fun o => ?_
  split
  · exact .fault _
  · exact .bind (.modifyObject r _) fun _ => .freeValue _
  · exact .fault _

theorem getProperty (r : Handle) (atom : Atom) : Shifting (getProperty r atom) := by
  refine .get_bind fun h => ?_
  split
  · exact .bind (.readSlot _ _) fun _ => .pure _
  · exact .pure _

theorem getRecording (c : InlineCache) (r : Handle) (atom : Atom) : Shifting (getRecording c r atom) := by
  refine .get_bind fun h => ?_
  split
  · exact .pure _
  · exact .bind (.readSlot _ _) fun _ => .pure _

theorem getCached (c : InlineCache) (r : Handle) (atom : Atom) : Shifting (getCached c r atom) := by
  refine .get_bind fun h => ?_
  split
  split
  · exact .getRecording _ r atom
  · refine .bind (.readSlot _ _) fun v => ?_
    split
    · exact .pure _
    · exact .getRecording _ r atom

/-- A suspended call remains one. -/
theorem finishSuspension (r : Handle) : Shifting (finishSuspension r) := by
  intro h a h' e
  unfold HeapM.finishSuspension at e
  rw [HeapM.get_bind] at e
  cases hs : h.suspension? r with
  | none =>
    rw [hs] at e
    exact (fault_eq_ok e).elim
  | some s =>
    rw [hs] at e
    dsimp only at e
    split at e
    · obtain ⟨_, h₁, e₁, e₂⟩ := bind_eq_ok e
      obtain rfl := modify_eq_ok e₁
      obtain ⟨c, hc, hb⟩ := Heap.suspension?_eq_some_iff.mp hs
      have hfree : Shifting (do HeapM.freeValue s.receiver; HeapM.freeValues s.values) :=
        .bind (.freeValue _) fun _ => .freeValues _
      refine Heap.Shifts.trans (.single (.rewrite h r.index fun d hd => .inr ?_)) (hfree _ _ _ e₂)
      rw [Heap.tenant?_of_cell? hc] at hd
      cases hd
      rw [hb]
      exact ⟨rfl, rfl⟩
    · obtain ⟨_, rfl⟩ := pure_eq_ok e
      exact .refl _

end Shifting

end HeapM

/-! ## Actions that may run out of memory -/

namespace AllocM

variable {α β : Type}

/-- Whenever the action ends, also by running out of memory, changes that make no cell lead to the heap
after it. -/
def Shifting (act : AllocM α) : Prop := HeapM.Shifting act.run

namespace Shifting

theorem bind {x : AllocM α} {f : α → AllocM β} (hx : Shifting x) (hf : ∀ a, Shifting (f a)) :
    Shifting (x >>= f) := by
  intro h b h' e
  rcases bind_eq_ok e with ⟨a, h₁, e₁, e₂⟩ | ⟨err, e₁, _⟩
  · exact (hx h _ h₁ e₁).trans (hf a h₁ b h' e₂)
  · exact hx h _ h' e₁

theorem lift {x : HeapM α} (hx : x.Shifting) : Shifting (liftM x : AllocM α) := by
  intro h b h' e
  obtain ⟨a, ha, _⟩ := lift_eq_ok e
  exact hx h a h' ha

theorem charge (n : Nat) : Shifting (charge n) := by
  intro h a h' e
  rw [Heap.charge_run] at e
  split at e
  · cases e
    exact .aside rfl rfl rfl rfl rfl
  · cases e
    exact .refl _

theorem reserveFrame (n : Nat) : Shifting (reserveFrame n) := by
  intro h a h' e
  obtain ⟨-, hrun⟩ | ⟨err, hrun⟩ := Heap.reserveFrame_cases n h
  · rw [hrun] at e
    cases e
    exact .aside rfl rfl rfl rfl rfl
  · rw [hrun] at e
    cases e
    exact .refl _

theorem chargeCell (r : Handle) (n : Nat) : Shifting (chargeCell r n) :=
  .bind (.charge n) fun _ => .lift (.modify fun h => .touch h r.index (fun _ => rfl) fun _ => rfl)

theorem ask (requests : List Request) {undo : HeapM Unit} (hundo : undo.Shifting) (failure : OutOfMemory) :
    Shifting (ask requests undo failure) := by
  intro h a h' e
  rw [Heap.ask_run] at e
  split at e
  · cases e
    exact .refl _
  · split at e
    · rename_i hundone
      cases e
      exact hundo h _ h' hundone
    · cases e

theorem growCell (r : Handle) (n : Nat) (arrays : List Request) : Shifting (growCell r n arrays) :=
  .bind (.chargeCell r n) fun _ => .ask arrays (.unchargeCell r n) _

end Shifting

variable {size : Nat} {arrays : Nat → List Request} {failure : OutOfMemory} {h h' : Heap}
  {res : Except OutOfMemory Reservation}

/-- A slot is taken at the end, after roots, collection and account. -/
theorem reserve_cases (e : (reserve size arrays failure).run h = .ok (res, h')) :
    (∃ p h₁, res = .ok p ∧ h.Shifts h₁ ∧ h₁.takeSlot = .ok (p.index, h')) ∨
      (∃ err, res = .error err) ∧ h.Shifts h' := by
  obtain ⟨h₁, h₂, e₁, e₂, hend⟩ := Heap.reserve_eq_ok e
  have hready : h.Shifts h₂ := (HeapM.Shifting.flushRoots _ _ _ e₁).trans (HeapM.Shifting.collectIfDue _ _ _ e₂)
  obtain ⟨p, hres, -, e₃⟩ | ⟨hres, rfl | rfl⟩ := hend
  · exact .inl ⟨p, { h₂ with used := h₂.used + size }, hres, hready.then_aside rfl rfl rfl rfl rfl, e₃⟩
  · exact .inr ⟨hres, hready⟩
  · exact .inr ⟨hres, hready.trans (.single (.widen h₂))⟩

/-- If memory runs out, what is owned is given up, and no slot is taken. -/
theorem reserveOr_cases {owned : List Handle} (e : (reserveOr size owned arrays).run h = .ok (res, h')) :
    (∃ p h₁, res = .ok p ∧ h.Shifts h₁ ∧ h₁.takeSlot = .ok (p.index, h')) ∨
      (∃ err, res = .error err) ∧ h.Shifts h' := by
  rcases tryCatch_eq_ok e with ⟨p, e₁, rfl⟩ | ⟨err, h₁, e₁, e₂⟩
  · exact reserve_cases e₁
  · obtain ⟨_, h₂, e₂, e₃⟩ := lift_bind_eq_ok e₂
    obtain ⟨rfl, rfl⟩ := throw_eq_ok e₃
    rcases reserve_cases e₁ with ⟨_, _, hres, _⟩ | ⟨_, hready⟩
    · cases hres
    · exact .inr ⟨⟨err, rfl⟩, hready.trans (HeapM.Shifting.releaseAll _ _ _ _ e₂)⟩

end AllocM

end ObjectMemory
