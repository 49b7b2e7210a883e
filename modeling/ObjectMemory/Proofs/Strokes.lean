import ObjectMemory.Proofs.Drifts
set_option autoImplicit false

/-!
# Strokes

Whatever is asked of a heap, by whom and with which arguments, it changes in strokes of a few kinds: a
change that makes no cell (`Heap.Shift`), an edit of a cell where it is, a cell that is made, a frame that
is entered, changed or left.  A stroke tells the names it gives away, and a run of strokes (`Heap.Logged`)
all names that were given away, in order.

The main statement is that every operation is a run of strokes (`Operation.strokes`).  What every stroke
keeps, every operation keeps; so the invariants that hold for all clients are proved by cases on a stroke.
-/

namespace ObjectMemory

/-- What a stroke makes, under the name it is given. -/
inductive Birth where
  | cell (r : Handle)
  | frame (id : FrameId)
  deriving DecidableEq, Repr, Inhabited

namespace Heap

/-- One change of a heap, and what it makes. -/
inductive Stroke : List Birth → Heap → Heap → Prop where
  /-- cells leave, move and are counted, and none is made -/
  | shift {h h' : Heap} (e : Shift h h') : Stroke [] h h'
  /-- a cell changes, and stays on its list -/
  | edit (h : Heap) (i : Nat) {f : Cell → Cell} (hplace : ∀ c, (f c).place = c.place) :
      Stroke [] h (h.modifyCell i f)
  /-- a cell is put into a slot that is taken for it, after a reference of its own -/
  | make {h h₁ h₂ h' : Heap} {p : Reservation} {o : Option Handle} {u : Unit} {body : Body} {listed : Bool}
      {r : Handle} (ht : h.takeSlot = .ok (p.index, h₁)) (ho : HeapM.retainOption o h₁ = .ok (u, h₂))
      (hp : h₂.putCell p body listed = .ok (r, h')) : Stroke [.cell r] h h'
  /-- a frame is entered -/
  | enter (h : Heap) (f : Frame) :
      Stroke [.frame (h.frames.push f).1] h { h with frames := (h.frames.push f).2 }
  /-- a frame changes -/
  | inside (h : Heap) (i : Nat) (f : Frame → Frame) : Stroke [] h { h with frames := h.frames.modify i f }
  /-- a frame is left -/
  | leave {h : Heap} {id : FrameId} {f : Frame} (hf : h.frames.get? id = some f) :
      Stroke [] h { h with frames := h.frames.pop id.index }

/-- Any number of strokes, with all they make. -/
inductive Logged : List Birth → Heap → Heap → Prop where
  | none (h : Heap) : Logged [] h h
  | next {log births : List Birth} {h h₁ h' : Heap} (hrun : Logged log h h₁) (e : Stroke births h₁ h') :
      Logged (log ++ births) h h'

/-- Any number of strokes, whatever they make. -/
def Strokes (h h' : Heap) : Prop := ∃ log, Logged log h h'

variable {log births : List Birth} {h h₁ h' : Heap} {i : Nat} {r : Handle} {c : Cell}

namespace Logged

theorem trans {more : List Birth} (e₁ : Logged log h h₁) (e₂ : Logged more h₁ h') :
    Logged (log ++ more) h h' := by
  induction e₂ with
  | none h => rwa [List.append_nil]
  | next _ e ih =>
    rw [← List.append_assoc]
    exact (ih e₁).next e

/-- What every stroke keeps, a run of strokes keeps. -/
theorem keeps {P : Heap → Prop} (hstep : ∀ {births h h'}, Stroke births h h' → P h → P h')
    (e : Logged log h h') (hP : P h) : P h' := by
  induction e with
  | none h => exact hP
  | next _ e ih => exact hstep e (ih hP)

end Logged

namespace Strokes

theorem refl (h : Heap) : Strokes h h := ⟨[], .none h⟩

theorem single (e : Stroke births h h') : Strokes h h' := ⟨_, (Logged.none h).next e⟩

theorem trans (e₁ : Strokes h h₁) (e₂ : Strokes h₁ h') : Strokes h h' := by
  obtain ⟨_, e₁⟩ := e₁
  obtain ⟨_, e₂⟩ := e₂
  exact ⟨_, e₁.trans e₂⟩

/-- What every stroke keeps, a run of strokes keeps. -/
theorem keeps {P : Heap → Prop} (hstep : ∀ {births h h'}, Stroke births h h' → P h → P h')
    (e : Strokes h h') (hP : P h) : P h' := by
  obtain ⟨_, e⟩ := e
  exact e.keeps hstep hP

theorem of_shifts (e : Shifts h h') : Strokes h h' := by
  induction e with
  | refl => exact .refl h
  | tail _ hlast ih => exact ih.trans (.single (.shift hlast))

theorem aside (hslots : h'.slots = h.slots) (hfree : h'.freeSlots = h.freeSlots)
    (hframes : h'.frames = h.frames) (hlists : h'.lists = h.lists)
    (htickets : h'.nextTicket = h.nextTicket) : Strokes h h' :=
  .of_shifts (.aside hslots hfree hframes hlists htickets)

theorem edit (h : Heap) (i : Nat) {f : Cell → Cell} (hplace : ∀ c, (f c).place = c.place) :
    Strokes h (h.modifyCell i f) := .single (.edit h i hplace)

/-- A variable takes over its local, and joins the live list. -/
theorem detach {id : FrameId} {st st' : Heap × Array Value} (e : Heap.detach id st r = .ok st') :
    Strokes st.1 st'.1 := by
  obtain ⟨⟨h₁, locals⟩, e₁, e⟩ := except_bind_eq_ok e
  obtain ⟨c, hc, e⟩ := except_bind_eq_ok e
  have hmove : Strokes st.1 h₁ := by
    unfold Heap.detachAt at e₁
    split at e₁
    · cases e₁
    · split at e₁
      · cases e₁
      · split at e₁
        · cases e₁
        · cases e₁
          exact .edit _ r.index fun _ => rfl
      · cases e₁
        exact .refl _
  split at e
  · cases e
  · cases e
    exact hmove.trans (.of_shifts (.joinLive (cellAt_eq_ok_iff.mp hc)))

end Strokes

end Heap

/-! ## Actions -/

namespace HeapM

variable {α β : Type}

/-- Whenever the action ends well, strokes lead to the heap after it. -/
def Strokes (act : HeapM α) : Prop := ∀ h a h', act h = .ok (a, h') → h.Strokes h'

namespace Strokes

theorem pure (a : α) : Strokes (pure a : HeapM α) := by
  intro h b h' e
  obtain ⟨_, rfl⟩ := pure_eq_ok e
  exact .refl _

theorem bind {x : HeapM α} {f : α → HeapM β} (hx : Strokes x) (hf : ∀ a, Strokes (f a)) :
    Strokes (x >>= f) := by
  intro h b h' e
  obtain ⟨a, h₁, e₁, e₂⟩ := bind_eq_ok e
  exact (hx h a h₁ e₁).trans (hf a h₁ b h' e₂)

theorem get_bind {f : Heap → HeapM β} (hf : ∀ h, Strokes (f h)) : Strokes ((get : HeapM Heap) >>= f) :=
  fun h b h' e => hf h h b h' e

theorem read (f : Heap → Except Fault α) : Strokes (read f) := by
  intro h a h' e
  obtain ⟨_, rfl⟩ := read_eq_ok e
  exact .refl _

theorem fault (cause : Fault) : Strokes (fault cause : HeapM α) := fun _ _ _ e => (fault_eq_ok e).elim

theorem modify {f : Heap → Heap} (hf : ∀ h : Heap, h.Strokes (f h)) : Strokes (modify f : HeapM Unit) := by
  intro h a h' e
  rw [modify_eq_ok e]
  exact hf h

end Strokes

end HeapM

namespace AllocM

variable {α β : Type} {p : Reservation}

/-- Whenever the action ends, also by running out of memory, strokes lead to the heap after it. -/
def Strokes (act : AllocM α) : Prop := HeapM.Strokes act.run

/-- Whenever the action ends that comes after a slot was taken, strokes lead from the heap before that
to the heap after it. -/
def Occupies (p : Reservation) (act : AllocM α) : Prop :=
  ∀ (h h₁ : Heap) res h', h.takeSlot = .ok (p.index, h₁) → act.run h₁ = .ok (res, h') → h.Strokes h'

namespace Strokes

theorem pure (a : α) : Strokes (pure a : AllocM α) := HeapM.Strokes.pure (Except.ok a)

theorem throw (err : OutOfMemory) : Strokes (throw err : AllocM α) := HeapM.Strokes.pure (Except.error err)

theorem bind {x : AllocM α} {f : α → AllocM β} (hx : Strokes x) (hf : ∀ a, Strokes (f a)) :
    Strokes (x >>= f) := by
  intro h b h' e
  rcases bind_eq_ok e with ⟨a, h₁, e₁, e₂⟩ | ⟨err, e₁, _⟩
  · exact (hx h _ h₁ e₁).trans (hf a h₁ b h' e₂)
  · exact hx h _ h' e₁

theorem get_bind {f : Heap → AllocM β} (hf : ∀ h, Strokes (f h)) : Strokes ((get : AllocM Heap) >>= f) :=
  fun h b h' e => hf h h b h' e

theorem lift {x : HeapM α} (hx : x.Strokes) : Strokes (liftM x : AllocM α) := by
  intro h b h' e
  obtain ⟨a, ha, _⟩ := lift_eq_ok e
  exact hx h a h' ha

theorem modify {f : Heap → Heap} (hf : ∀ h : Heap, h.Strokes (f h)) : Strokes (modify f : AllocM Unit) := by
  intro h a h' e
  obtain ⟨_, rfl⟩ := modify_eq_ok e
  exact hf h

theorem fault_bind (cause : Fault) (f : α → AllocM β) :
    Strokes ((liftM (HeapM.fault cause : HeapM α) : AllocM α) >>= f) := by
  intro h b h' e
  obtain ⟨_, _, e₁, _⟩ := lift_bind_eq_ok e
  exact (HeapM.fault_eq_ok e₁).elim

theorem tryCatch {x : AllocM α} {c : OutOfMemory → AllocM α} (hx : Strokes x) (hc : ∀ err, Strokes (c err)) :
    Strokes (tryCatch x c) := by
  intro h b h' e
  rcases tryCatch_eq_ok e with ⟨a, e₁, _⟩ | ⟨err, h₁, e₁, e₂⟩
  · exact hx h _ h' e₁
  · exact (hx h _ h₁ e₁).trans (hc err h₁ b h' e₂)

end Strokes

/-! ## Making cells -/

namespace Occupies

theorem get_bind {f : Heap → AllocM β} (hf : ∀ h, Occupies p (f h)) :
    Occupies p ((get : AllocM Heap) >>= f) := fun h h₁ res h' ht e => hf h₁ h h₁ res h' ht e

theorem shape_bind {r : Handle} {f : Shape → AllocM β} (hf : ∀ s, Occupies p (f s)) :
    Occupies p ((liftM (HeapM.shape r) : AllocM Shape) >>= f) := by
  intro h h₁ res h' ht e
  obtain ⟨s, _, e₁, e₂⟩ := lift_bind_eq_ok e
  obtain ⟨_, rfl⟩ := HeapM.read_eq_ok e₁
  exact hf s h _ res h' ht e₂

theorem fault_bind (cause : Fault) (f : α → AllocM β) :
    Occupies p ((liftM (HeapM.fault cause : HeapM α) : AllocM α) >>= f) := by
  intro h h₁ res h' _ e
  obtain ⟨_, _, e₁, _⟩ := lift_bind_eq_ok e
  exact (HeapM.fault_eq_ok e₁).elim

variable {body : Body} {listed : Bool}

/-- A cell is put into the slot that was taken, after a reference of its own. -/
theorem retain_install (o : Option Handle) :
    Occupies p ((liftM (HeapM.retainOption o) : AllocM Unit) >>= fun _ =>
      (liftM (HeapM.install p body listed) : AllocM Handle)) := by
  intro h h₁ res h' ht e
  obtain ⟨_, h₂, e₁, e₂⟩ := lift_bind_eq_ok e
  obtain ⟨_, e₂, _⟩ := lift_eq_ok e₂
  exact .single (.make ht e₁ e₂)

theorem install : Occupies p (liftM (HeapM.install p body listed) : AllocM Handle) := by
  intro h h₁ res h' ht e
  obtain ⟨_, e, _⟩ := lift_eq_ok e
  exact .single (.make (o := none) (u := ()) ht rfl e)

theorem bind {x : AllocM α} {f : α → AllocM β} (hx : Occupies p x) (hf : ∀ a, Strokes (f a)) :
    Occupies p (x >>= f) := by
  intro h h₁ res h' ht e
  rcases bind_eq_ok e with ⟨a, h₂, e₁, e₂⟩ | ⟨err, e₁, _⟩
  · exact (hx h h₁ _ h₂ ht e₁).trans (hf a h₂ res h' e₂)
  · exact hx h h₁ _ h' ht e₁

end Occupies

end AllocM

end ObjectMemory
