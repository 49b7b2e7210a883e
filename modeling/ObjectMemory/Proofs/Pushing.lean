import ObjectMemory.Proofs.Creations
import ObjectMemory.Proofs.GarbageCollection
set_option autoImplicit false

/-!
# What pushes write over

The length of an array stands in a property, and a client may store there what it likes.  A push writes
the new length over it and, other than an assignment does, gives nothing up: a reference that stood there
stays counted, though nothing holds it any more.  Counts are therefore exact up to the references that
pushes wrote over, and these keep their cells for good (`Client.pushes_keep_overwritten`).
-/

namespace ObjectMemory

namespace Heap

variable {x : Ledger} {n k capacity : Nat} {h h₁ h' : Heap} {r : Handle} {o : Object} {u : Unit} {v : Value}
  {xs : Array Value} {bars : Fault → Bool}

/-! ## A push comes to an end -/

/-- What holds of the heap that is left: one thing where an action succeeds, another where memory ran
out. -/
def EndsIn {α : Type} (done failed : Heap → Prop) : Except OutOfMemory α × Heap → Prop
  | (.ok _, h) => done h
  | (.error _, h) => failed h

theorem elements?_eq_some_iff : h.elements? r = some xs ↔
    ∃ o capacity, h.body? r = some (.object o) ∧ o.payload = .array xs capacity := by
  unfold elements?
  constructor
  · intro hxs
    split at hxs
    · rename_i ho
      cases hxs
      exact ⟨_, _, object?_iff_body?.mp ho, rfl⟩
    · cases hxs
  · rintro ⟨o, capacity, ho, hp⟩
    obtain ⟨_, _, _, _, payload⟩ := o
    obtain rfl : payload = .array xs capacity := hp
    rw [object?_iff_body?.mpr ho]

/-- The length of an array is written into its properties and not into its elements. -/
theorem elements?_of_setLength (hxs : h.elements? r = some xs) (e : HeapM.setLength r k h = .ok (u, h')) :
    h'.elements? r = some xs := by
  obtain ⟨_, _, e₁, e⟩ := HeapM.bind_eq_ok e
  obtain ⟨o, ho, rfl, rfl⟩ := objectShape_eq_ok e₁
  rw [HeapM.get_bind] at e
  generalize findProperty? _ o.shape .length = found at e
  cases found with
  | none =>
    obtain ⟨_, rfl⟩ := HeapM.pure_eq_ok e
    exact hxs
  | some place =>
    dsimp only at e
    rw [HeapM.bind_of_ok (object_of_body ho)] at e
    split at e
    · obtain ⟨h'', e', hre⟩ := exists_modifyObject ho _
      cases e'.symm.trans e
      obtain ⟨o', capacity, ho', hp⟩ := elements?_eq_some_iff.mp hxs
      cases ho'.symm.trans ho
      exact elements?_eq_some_iff.mpr ⟨_, capacity, hre.after, hp⟩
    · exact (HeapM.fault_eq_ok e).elim

theorem yields_modifyObject (ho : h.body? r = some (.object o)) (g : Object → Object) :
    Yields bars (fun _ => True) (HeapM.modifyObject r g h) := by
  obtain ⟨h', e, _⟩ := exists_modifyObject ho g
  rw [e]
  trivial

/-- The last steps of a push end, and the element is there. -/
theorem Valid.yields_pushElement (hv : h.Valid (x.plus v.ref?.toList)) (hn : h.Names v.typedRef?.toList)
    (ho : h.body? r = some (.object o)) (hp : o.payload = .array xs capacity) (k : Nat) :
    Yields bars (fun q => q.1 = .ok () ∧ q.2.elements? r = some (xs.push v)) ((do
      HeapM.modifyObject r fun o => { o with
        payload := match o.payload with
          | .array elements capacity => .array (elements.push v) capacity
          | p => p }
      HeapM.setLength r k : AllocM Unit).run h) := by
  obtain ⟨h₁, e₁, _⟩ := exists_modifyObject ho fun o => { o with
    payload := match o.payload with
      | .array elements capacity => .array (elements.push v) capacity
      | p => p }
  obtain ⟨hl₁, ho₁, _⟩ := hv.of_pushPayload hn ho hp e₁
  obtain ⟨h', e₂⟩ := hl₁.valid.exists_setLength ho₁ k
  rw [AllocM.lift_bind_of_ok e₁, AllocM.lift_of_ok e₂]
  exact ⟨rfl, elements?_of_setLength (elements?_eq_some_iff.mpr ⟨_, capacity, ho₁, rfl⟩) e₂⟩

/-- A push onto an array ends: the element is there, or memory ran out and it was given up. -/
theorem Valid.yields_arrayPush (hv : h.Valid (x.plus v.ref?.toList)) (hn : h.Names v.typedRef?.toList)
    (hxs : h.elements? r = some xs) :
    Yields bars (fun q => (q.1 = .ok () ∧ q.2.elements? r = some (xs.push v)) ∨
      (∃ err, q.1 = .error err) ∧ Keeps h q.2) ((AllocM.arrayPush r v).run h) := by
  obtain ⟨o, capacity, ho, hp⟩ := elements?_eq_some_iff.mp hxs
  have hextent : HeapM.arrayExtent r h = .ok ((xs.size, capacity), h) := by
    unfold HeapM.arrayExtent
    rw [HeapM.bind_of_ok (object_of_body ho), hp]
    rfl
  unfold AllocM.arrayPush
  rw [AllocM.lift_bind_of_ok hextent]
  dsimp only
  split
  · obtain ⟨c, hc, _⟩ := body?_eq_some_iff.mp ho
    refine AllocM.yields_bind
      (R := EndsIn (fun h₁ => h₁.Valid (x.plus v.ref?.toList) ∧ SameBodies h h₁) (Keeps h)) ?_
      (fun _ h₁ _ hcharged => ?_) fun err h₁ _ hk => .inr ⟨⟨err, rfl⟩, hk⟩
    · refine AllocM.yields_tryCatch
        (R := EndsIn (fun h₁ => h₁.Valid (x.plus v.ref?.toList) ∧ SameBodies h h₁) (· = h)) ?_
        (fun _ _ _ hok => hok) fun err h₁ _ he => ?_
      · obtain ⟨-, hrun⟩ | ⟨_, hrun⟩ := growCell_cases (tenant?_of_cell? hc) _ _ <;> rw [hrun]
        · obtain ⟨-, hs, hsame⟩ | ⟨⟨_, herr⟩, _⟩ := hv.sound.of_growCell hc hrun
          · exact ⟨⟨hs, hv.laid.of_same hsame⟩, hsame⟩
          · cases herr
        · rfl
      · obtain rfl : h₁ = h := he
        obtain ⟨h₂, e₂, hs₂, hd₂⟩ := hv.sound.releaseAll
        rw [HeapM.freeValue, AllocM.lift_bind_of_ok e₂]
        exact hd₂.keeps hs₂
    · obtain ⟨hv₁, hsame⟩ := hcharged
      have ho₁ : h₁.body? r = some (.object o) := (hsame.body r).trans ho
      have hn₁ : h₁.Names v.typedRef?.toList := fun a ha => by
        rw [kind?_eq_map, hsame.body, ← kind?_eq_map]
        exact hn a ha
      refine AllocM.yields_lift_bind (yields_modifyObject ho₁ _) fun _ h₂ e₂ _ => ?_
      obtain ⟨hl₂, ho₂, _⟩ := hv₁.of_growPayload ho₁ hp e₂
      have hn₂ := (HeapM.Shifting.modifyObject r _ _ _ _ e₂).evolves.names (by omega) hl₂.valid.sound hn₁
        v.toList_typedRef?
      exact (hl₂.valid.yields_pushElement hn₂ ho₂ rfl _).mono fun q _ hq => .inl hq
  · exact (hv.yields_pushElement hn ho hp _).mono fun q _ hq => .inl hq

/-- Where there is no frame, no local refers to anything. -/
theorem heldByFrames_of_no_frame (hframes : ∀ id, h.frames.get? id = none) (r : Handle) :
    h.heldByFrames r = 0 := by
  by_contra hne
  obtain ⟨id, f, hf, _⟩ := FrameTable.exists_of_total_pos (Nat.pos_of_ne_zero hne)
  exact Option.some_ne_none f (hf.symm.trans (hframes id))

end Heap

namespace Client

open Heap

variable {config : Config} {h h' : Heap} {x : Ledger} {lost : List Handle}

/-! ## Runs with pushes -/

/-- The heaps that a client that keeps its books comes to, what it owns then, and the references that its
pushes have written over. -/
def Pushed (config : Config) : Heap → Ledger → List Handle → Prop :=
  Noted (fun _ _ => True) (fun h op reply _ lost => lost ++ op.overwritten h reply) [] config

/-- The heap keeps the books of the client and of what was written over. -/
theorem Pushed.valid (hr : Pushed config h x lost) : h.Valid (x.plus lost) := by
  induction hr with
  | start => exact Heap.valid_new config
  | @next h h' x lost reply _ op _ hp e ih =>
    rw [← Ledger.minus_plus hp.owned, Ledger.plus_comm] at ih
    have hv' := (Heap.Valid.of_operation op ih hp.named e).valid
    rw [Ledger.plus_append]
    rw [Ledger.plus_comm _ lost] at hv'
    exact hv'

/-- Without pushes nothing is written over. -/
theorem Reached.pushed (hr : Reached (·.isPush = false) config h x) : Pushed config h x [] := by
  induction hr with
  | start => exact .start
  | @next h _ _ reply _ op ha hp e ih =>
    have hnext := Noted.next ih op trivial hp e
    rw [Operation.overwritten_of_not_push op ha] at hnext
    exact hnext

/-- A push onto an array ends, with the element in the array or given up. -/
theorem Pushed.push (hr : Pushed config h x lost) {r : Handle} {v : Value} {xs : Array Value}
    (hxs : h.elements? r = some xs) (hp : Operation.Permitted x h (.call (.arrayPush r v))) :
    ∃ reply h', (Call.arrayPush r v).perform h = .ok (reply, h') ∧
      ((reply = .done ∧ h'.elements? r = some (xs.push v)) ∨
        (∃ err, reply = .exhausted err) ∧ Keeps h h') := by
  have hv := hr.valid
  rw [← Ledger.minus_plus hp.owned, Ledger.plus_comm] at hv
  have hends : Yields (fun _ => true) _ ((AllocM.arrayPush r v).run h) := hv.yields_arrayPush hp.named hxs
  cases hrun : (AllocM.arrayPush r v).run h with
  | error fault => cases hends.of_error hrun
  | ok q =>
    obtain ⟨res, h'⟩ := q
    have hres := hends.of_ok hrun
    cases res with
    | ok u =>
      obtain ⟨_, hxs'⟩ | ⟨⟨_, herr⟩, _⟩ := hres
      · exact ⟨.done, h', HeapM.bind_of_ok hrun, .inl ⟨rfl, hxs'⟩⟩
      · cases herr
    | error err =>
      obtain ⟨hok, _⟩ | ⟨_, hk⟩ := hres
      · cases hok
      · exact ⟨.exhausted err, h', HeapM.bind_of_ok hrun, .inr ⟨⟨err, rfl⟩, hk⟩⟩

/-- After a client has given up all it owns, a collection leaves what the references lead to that were
written over. -/
theorem Pushed.collects (hr : Pushed config h x lost) {rs : List Handle} (hx : ∀ r, x r = rs.count r)
    (hframes : ∀ id, h.frames.get? id = none) :
    ∃ h₁ n h₂, HeapM.releaseAll rs h = .ok ((), h₁) ∧ HeapM.collect h₁ = .ok (n, h₂) ∧
      (∀ r, h₂.contains r = true ↔ h₂.Reachable (· ∈ lost) r) ∧
      (lost = [] → h₂.liveCells = 0 ∧ h₂.used = 0 ∧ h₂.sharedShapes = 0) := by
  have hs : h.Sound ((Ledger.empty.plus lost).plus rs) 0 := hr.valid.sound.of_eq fun r => by
    simp only [Ledger.plus_apply, Ledger.empty_apply, hx]
    omega
  obtain ⟨h₁, e₁, hs₁, hd₁⟩ := hs.releaseAll
  have hframes₁ : ∀ id, h₁.frames.get? id = none := fun id => by
    simpa [hframes id] using hd₁.calm.frames id
  obtain ⟨n, _, h₂, e₂, _, hs₂, hcol, _⟩ := hs₁.collects
  have hframes₂ : ∀ id, h₂.frames.get? id = none := fun id => by
    simpa [hframes₁ id] using hcol.frames id
  refine ⟨h₁, n, h₂, e₁, e₂, fun r => ?_, fun hlost => ?_⟩
  · rw [hcol.again, Retained]
    simp only [heldByFrames_of_no_frame hframes₂, Ledger.plus_apply, Ledger.empty_apply, Nat.zero_add,
      Nat.add_zero, List.count_pos_iff]
  · subst hlost
    exact hcol.empty hs₂ (fun _ => rfl) hframes₁

/-- Every count is the number of references there are and of those that pushes wrote over.  A push onto an
array ends, and what it writes over is what the length slot held.  What was written over is never given
up: it and what it leads to is all that a client leaves that gives up what it owns and collects. -/
theorem pushes_keep_overwritten (hr : Pushed config h x lost) :
    (∀ r c, h.cell? r = some c →
      c.refCount = x r + h.heldByCells r + h.heldByFrames r + h.dropped.toList.count r + lost.count r) ∧
    (∀ r v xs, h.elements? r = some xs → Operation.Permitted x h (.call (.arrayPush r v)) →
      ∃ reply h', (Call.arrayPush r v).perform h = .ok (reply, h') ∧
        ((reply = .done ∧ h'.elements? r = some (xs.push v) ∧
            Pushed config h' (x.minus v.ref?.toList) (lost ++ h.lengthRefs r)) ∨
          (∃ err, reply = .exhausted err) ∧ Keeps h h' ∧ Pushed config h' (x.minus v.ref?.toList) lost)) ∧
    (∀ rs, (∀ r, x r = rs.count r) → (∀ id, h.frames.get? id = none) →
      ∃ h₁ n h₂, HeapM.releaseAll rs h = .ok ((), h₁) ∧ HeapM.collect h₁ = .ok (n, h₂) ∧
        (∀ r, h₂.contains r = true ↔ h₂.Reachable (· ∈ lost) r) ∧
        (lost = [] → h₂.liveCells = 0 ∧ h₂.used = 0 ∧ h₂.sharedShapes = 0)) := by
  refine ⟨fun r c hc => ?_, fun r v xs hxs hp => ?_, fun rs hx hframes => hr.collects hx hframes⟩
  · have hcount := hr.valid.sound.coherent.counted.counts r c hc
    rw [held, Ledger.plus_apply] at hcount
    omega
  · obtain ⟨reply, h', e, ⟨rfl, hxs'⟩ | ⟨⟨err, rfl⟩, hk⟩⟩ := hr.push hxs hp
    · exact ⟨_, h', e, .inl ⟨rfl, hxs', Noted.next hr (.call (.arrayPush r v)) trivial hp e⟩⟩
    · refine ⟨_, h', e, .inr ⟨⟨err, rfl⟩, hk, ?_⟩⟩
      have hnext := Noted.next hr (.call (.arrayPush r v)) trivial hp e
      rw [show Operation.overwritten h (.call (.arrayPush r v)) (.exhausted err) = [] from rfl,
        List.append_nil] at hnext
      exact hnext

/-- A client stores its only reference to an object as the length of an array.  A push of a number then
ends well, and the object is left with a count of one and nothing that refers to it. -/
theorem reached_filled_length : ∃ h x, Reached (·.isPush = false) .default h x ∧
    (∀ r, x r = [(⟨8, 0⟩ : Handle), ⟨7, 0⟩].count r) ∧ (∀ id, h.frames.get? id = none) ∧
    h.elements? ⟨8, 0⟩ = some #[] ∧ h.lengthRefs ⟨8, 0⟩ = [⟨9, 0⟩] ∧
    answers ((Call.arrayPush ⟨8, 0⟩ (.smi 1)).perform h) .done (fun h =>
      decide (h.frames.slots.size = 0 ∧ h.refCount? ⟨9, 0⟩ = some 1 ∧ h.heldByCells ⟨9, 0⟩ = 0 ∧
        h.dropped.toList = [])) = true := by
  obtain ⟨h₁, e₁, hrest⟩ := ok_of_answers (x := Call.newRealm.perform (.new .default)) (a := .handle ⟨7, 0⟩)
    (t := fun h => answers ((Call.newArray ⟨7, 0⟩).perform h) (.handle ⟨8, 0⟩) fun h =>
      answers ((Call.newObject none).perform h) (.handle ⟨9, 0⟩) fun h =>
      decide (h.kind? ⟨9, 0⟩ = some .object) &&
      answers ((Call.setProperty ⟨8, 0⟩ .length (.object ⟨9, 0⟩)).perform h) (.flag true) fun h =>
      decide (h.frames.slots.size = 0 ∧ h.elements? ⟨8, 0⟩ = some #[] ∧ h.lengthRefs ⟨8, 0⟩ = [⟨9, 0⟩]) &&
      answers ((Call.arrayPush ⟨8, 0⟩ (.smi 1)).perform h) .done (fun h =>
        decide (h.frames.slots.size = 0 ∧ h.refCount? ⟨9, 0⟩ = some 1 ∧ h.heldByCells ⟨9, 0⟩ = 0 ∧
          h.dropped.toList = [])))
    (by decide +kernel)
  obtain ⟨h₂, e₂, hrest⟩ := ok_of_answers hrest
  obtain ⟨h₃, e₃, hrest⟩ := ok_of_answers hrest
  obtain ⟨hkind, hrest⟩ := Bool.and_eq_true_iff.mp hrest
  obtain ⟨h₄, e₄, hrest⟩ := ok_of_answers hrest
  obtain ⟨hfacts, hpush⟩ := Bool.and_eq_true_iff.mp hrest
  obtain ⟨hframes, hxs, hlength⟩ := of_decide_eq_true hfacts
  have hstart : Reached (·.isPush = false) .default (.new .default) .empty := .start
  have hr₁ := hstart.next (.call .newRealm) rfl (.of_nothing rfl rfl) e₁
  have hr₂ := hr₁.next (.call (.newArray ⟨7, 0⟩)) rfl (.of_nothing rfl rfl) e₂
  have hr₃ := hr₂.next (.call (.newObject none)) rfl (.of_nothing rfl rfl) e₃
  have hr₄ := hr₃.next (.call (.setProperty ⟨8, 0⟩ .length (.object ⟨9, 0⟩))) rfl ⟨fun r => ?_, ?_⟩ e₄
  · refine ⟨h₄, _, hr₄, fun r => ?_, fun id => by simp [FrameTable.get?, hframes], hxs, hlength, hpush⟩
    simp only [Operation.settle_apply, Operation.consumed, Operation.gained, Call.consumed, Call.gained,
      Reply.refs, Value.ref?, Ledger.empty_apply, Option.toList_some, List.count_cons, List.count_nil,
      beq_iff_eq]
    grind
  · simp only [Operation.settle_apply, Operation.consumed, Operation.gained, Call.consumed, Call.gained,
      Reply.refs, Value.ref?, Ledger.empty_apply, Option.toList_some, List.count_cons, List.count_nil,
      beq_iff_eq]
    grind
  · intro a ha
    cases List.mem_singleton.mp ha
    exact of_decide_eq_true hkind

/-- The object that stood in the length slot outlives everything. -/
theorem pushes_keep_overwritten_object : ∃ h x, Pushed .default h x [] ∧
    ∃ h' y, Pushed .default h' y [⟨9, 0⟩] ∧
    (Call.arrayPush ⟨8, 0⟩ (.smi 1)).perform h = .ok (.done, h') ∧ h'.elements? ⟨8, 0⟩ = some #[.smi 1] ∧
    ∃ h₁ n h₂, HeapM.releaseAll [⟨8, 0⟩, ⟨7, 0⟩] h' = .ok ((), h₁) ∧ HeapM.collect h₁ = .ok (n, h₂) ∧
      h₂.contains ⟨9, 0⟩ = true := by
  obtain ⟨h, x, hr, hx, -, hxs, hlength, hpush⟩ := reached_filled_length
  obtain ⟨h', e, hfacts⟩ := ok_of_answers hpush
  obtain ⟨hframes, -⟩ := of_decide_eq_true hfacts
  obtain ⟨reply, h'', e', hends⟩ :=
    (pushes_keep_overwritten hr.pushed).2.1 ⟨8, 0⟩ (.smi 1) #[] hxs (.of_nothing rfl rfl)
  cases e.symm.trans e'
  obtain ⟨-, hxs', hr'⟩ | ⟨⟨_, hreply⟩, -⟩ := hends
  · rw [hlength] at hr'
    obtain ⟨h₁, n, h₂, e₁, e₂, hleft, -⟩ := (pushes_keep_overwritten hr').2.2 [⟨8, 0⟩, ⟨7, 0⟩] hx
      fun id => by simp [FrameTable.get?, hframes]
    exact ⟨h, x, hr.pushed, h', _, hr', e, hxs', h₁, n, h₂, e₁, e₂,
      (hleft _).mpr (.root (List.mem_singleton_self _))⟩
  · cases hreply

/-- A push is not exact: the object has a count of one and nobody refers to it, and it is still there after
the client has given up everything and has collected. -/
theorem push_drops_length : ∃ h x, Reached (·.isPush = false) .default h x ∧
    (∀ r c, h.cell? r = some c →
      c.refCount = x r + h.heldByCells r + h.heldByFrames r + h.dropped.toList.count r) ∧
    h.elements? ⟨8, 0⟩ = some #[] ∧ (∀ r, x r = [(⟨8, 0⟩ : Handle), ⟨7, 0⟩].count r) ∧
    ∃ h', (Call.arrayPush ⟨8, 0⟩ (.smi 1)).perform h = .ok (.done, h') ∧
      (∃ c, h'.cell? ⟨9, 0⟩ = some c ∧
        c.refCount = x ⟨9, 0⟩ + h'.heldByCells ⟨9, 0⟩ + h'.heldByFrames ⟨9, 0⟩ +
          h'.dropped.toList.count ⟨9, 0⟩ + 1) ∧
      ∃ h₁ n h₂, HeapM.releaseAll [⟨8, 0⟩, ⟨7, 0⟩] h' = .ok ((), h₁) ∧ HeapM.collect h₁ = .ok (n, h₂) ∧
        h₂.contains ⟨9, 0⟩ = true := by
  obtain ⟨h, x, hr, hx, -, hxs, hlength, hpush⟩ := reached_filled_length
  obtain ⟨h', e, hfacts⟩ := ok_of_answers hpush
  obtain ⟨hframes, hcount, hcells, hdropped⟩ := of_decide_eq_true hfacts
  have hframes' : ∀ id, h'.frames.get? id = none := fun id => by simp [FrameTable.get?, hframes]
  obtain ⟨c, hc, hone⟩ := refCount?_eq_some_iff.mp hcount
  have hr' := Noted.next hr.pushed (.call (.arrayPush ⟨8, 0⟩ (.smi 1))) trivial (.of_nothing rfl rfl) e
  obtain ⟨h₁, n, h₂, e₁, e₂, hleft, -⟩ := Pushed.collects hr' hx hframes'
  refine ⟨h, x, hr, fun r c hc => ?_, hxs, hx, h', e, ⟨c, hc, ?_⟩, h₁, n, h₂, e₁, e₂,
    (hleft _).mpr (.root ?_)⟩
  · rw [hr.valid_of_no_push.sound.coherent.counted.counts r c hc, Heap.held]
    omega
  · rw [hone, hx, hcells, heldByFrames_of_no_frame hframes', hdropped]
    rfl
  · change _ ∈ [] ++ h.lengthRefs ⟨8, 0⟩
    rw [hlength]
    exact List.mem_singleton_self _

end Client

end ObjectMemory
