import ObjectMemory.Proofs.Slots
import Mathlib
set_option autoImplicit false

/-!
# Changes that make no cell

Freeing and collecting are long runs of small changes.  `Heap.Shift` lists what one of them can be: a
cell changes in its count, mark or size, it moves from its list to another, a body is finalized, a slot
is vacated, or a variable is taken off the open list of a frame.  No layout and no captured variable is
ever edited on the way.  A slot that was taken for a cell and given back is such a change too.

The main statements are that every run of freeing (`Heap.Shifts.run`) and every collection
(`Heap.Shifts.collectCycles`) is made of such changes.  What each of them keeps, the whole keeps.
-/

namespace ObjectMemory

/-- Layouts and captured variables change by operations of their own only. -/
def Kind.isGuarded : Kind → Bool
  | captured | shape => true
  | _ => false

theorem Kind.isGuarded_of_isQueued {k : Kind} (hk : k.isQueued = true) : k.isGuarded = false := by
  cases k with
  | object => rfl
  | bytecode => rfl
  | _ => cases hk

namespace Heap

/-- One change of a heap that makes no cell and edits no layout, variable or local. -/
inductive Shift : Heap → Heap → Prop where
  /-- slots, lists and frames stay -/
  | aside {h h' : Heap} (hslots : h'.slots = h.slots) (hfree : h'.freeSlots = h.freeSlots)
      (hframes : h'.frames = h.frames) (hlists : h'.lists = h.lists)
      (htickets : h'.nextTicket = h.nextTicket) : Shift h h'
  /-- a cell changes in what is neither its body nor its place -/
  | touch (h : Heap) (i : Nat) {f : Cell → Cell} (hf : ∀ c, (f c).body = c.body)
      (hplace : ∀ c, (f c).place = c.place) : Shift h (h.modifyCell i f)
  /-- a cell leaves its list, and may join one that is not the live list -/
  | relist (h : Heap) (i : Nat) {c : Cell} {new : Place} (hc : h.tenant? i = some c)
      (hnew : new.isLive = false) : Shift h (h.setPlace i c.place new)
  /-- a cell leaves its list and joins the live list -/
  | join (h : Heap) (i : Nat) {c : Cell} (hc : h.tenant? i = some c) : Shift h (h.joinLive i c.place)
  /-- a body becomes another of its kind -/
  | rewrite (h : Heap) (i : Nat) {f : Body → Body}
      (hf : ∀ c, h.tenant? i = some c → f c.body = c.body ∨
        c.body.kind.isGuarded = false ∧ (f c.body).kind = c.body.kind) : Shift h (h.modifyBody i f)
  /-- a slot is vacated -/
  | free {h h' : Heap} {i : Nat} (hf : h.free i = .ok h') : Shift h h'
  /-- a slot is added, and is vacant -/
  | widen (h : Heap) : Shift h h.widen
  /-- a variable is taken off the open list of a frame -/
  | close (h : Heap) (i : Nat) (r : Handle) : Shift h { h with frames := h.frames.modify i (·.close r) }

/-- Any number of changes that make no cell. -/
def Shifts : Heap → Heap → Prop := Relation.ReflTransGen Shift

variable {h h₁ h' : Heap} {i : Nat} {r : Handle} {c : Cell}

namespace Shifts

theorem refl (h : Heap) : Shifts h h := Relation.ReflTransGen.refl

theorem trans (e₁ : Shifts h h₁) (e₂ : Shifts h₁ h') : Shifts h h' := Relation.ReflTransGen.trans e₁ e₂

theorem single (e : Shift h h') : Shifts h h' := Relation.ReflTransGen.single e

theorem aside (hslots : h'.slots = h.slots) (hfree : h'.freeSlots = h.freeSlots)
    (hframes : h'.frames = h.frames) (hlists : h'.lists = h.lists)
    (htickets : h'.nextTicket = h.nextTicket) : Shifts h h' :=
  .single (.aside hslots hfree hframes hlists htickets)

/-- Changes may end with one that leaves slots, lists and frames. -/
theorem then_aside (e : Shifts h h₁) (hslots : h'.slots = h₁.slots) (hfree : h'.freeSlots = h₁.freeSlots)
    (hframes : h'.frames = h₁.frames) (hlists : h'.lists = h₁.lists)
    (htickets : h'.nextTicket = h₁.nextTicket) : Shifts h h' :=
  e.trans (.aside hslots hfree hframes hlists htickets)

theorem touch (h : Heap) (i : Nat) {f : Cell → Cell} (hf : ∀ c, (f c).body = c.body)
    (hplace : ∀ c, (f c).place = c.place) : Shifts h (h.modifyCell i f) :=
  .single (.touch h i hf hplace)

theorem free (hf : h.free i = .ok h') : Shifts h h' := .single (.free hf)

theorem setRefCount (h : Heap) (i n : Nat) : Shifts h (h.setRefCount i n) :=
  .touch h i (fun _ => rfl) fun _ => rfl

theorem setPlace {new : Place} (hc : h.tenant? i = some c) (hnew : new.isLive = false) :
    Shifts h (h.setPlace i c.place new) := .single (.relist h i hc hnew)

theorem joinLive (hc : h.tenant? i = some c) : Shifts h (h.joinLive i c.place) := .single (.join h i hc)

/-- A cell moves that was touched just before, but not in its place. -/
theorem touch_setPlace {f : Cell → Cell} {new : Place} (hc : h.tenant? i = some c)
    (hf : ∀ c, (f c).body = c.body) (hplace : ∀ c, (f c).place = c.place)
    (hnew : new.isLive = false) : Shifts h ((h.modifyCell i f).setPlace i c.place new) := by
  have hmove := setPlace (h := h.modifyCell i f) (i := i) (c := f c)
    (by rw [tenant?_modifyCell, if_pos rfl, hc]; rfl) hnew
  rw [hplace] at hmove
  exact (touch h i hf hplace).trans hmove

/-- What every step of a fold changes, the fold changes. -/
theorem foldlM {σ α : Type} {f : σ → α → Except Fault σ} (view : σ → Heap)
    (hstep : ∀ s a s', f s a = .ok s' → Shifts (view s) (view s')) {xs : List α} {s s' : σ}
    (e : xs.foldlM f s = .ok s') : Shifts (view s) (view s') :=
  foldlM_ok_induct (P := fun t => Shifts (view s) (view t))
    (fun t a t' ht ha => ht.trans (hstep t a t' ha)) (.refl _) e

/-! ## Freeing -/

theorem forgetShape {s : Shape} (e : h.forgetShape r s = .ok h') : Shifts h h' := by
  obtain ⟨table, rfl⟩ := forgetShape_cases e
  exact .aside rfl rfl rfl rfl rfl

theorem forgetVariable {v : Variable} (e : h.forgetVariable r v = .ok h') : Shifts h h' := by
  obtain rfl | ⟨id, rfl⟩ := forgetVariable_cases e
  · exact .refl _
  · exact .single (.close h _ r)

theorem freeNow {body : Body} (e : h.freeNow r body = .ok h') : Shifts h h' := by
  obtain ⟨-, ⟨table, hfree⟩ | ⟨h₁, v, hfree, hforget⟩⟩ := freeNow_cases e
  · have htable : Shifts h { h with table := table } := .aside rfl rfl rfl rfl rfl
    exact htable.trans (.free hfree)
  · exact (free hfree).trans (forgetVariable hforget)

theorem dropQueued (hc : h.tenant? i = some c) (rest : List Task) :
    Shifts h (h.dropQueued i c.place rest).1 := by
  have hplace : Shifts h (h.setPlace i c.place .queued) := setPlace hc rfl
  unfold Heap.dropQueued
  split
  · exact .refl h
  · exact hplace.then_aside rfl rfl rfl rfl rfl
  · exact hplace.then_aside rfl rfl rfl rfl rfl

theorem stepRelease {rest tasks : List Task} (e : h.stepRelease r rest = .ok (h', tasks)) :
    Shifts h h' := by
  obtain ⟨c, hc, -, hcases⟩ := stepRelease_eq_ok e
  have hset := setRefCount h r.index (c.refCount - 1)
  obtain ⟨-, rfl, -⟩ | ⟨-, -, hdrop⟩ | ⟨-, -, hfree, -⟩ := hcases
  · exact hset
  · have hc' : (h.setRefCount r.index (c.refCount - 1)).tenant? r.index =
        some { c with refCount := c.refCount - 1 } := by
      rw [Heap.setRefCount, tenant?_modifyCell, if_pos rfl, tenant?_of_cell? hc]
      rfl
    have hqueued := dropQueued hc' rest
    rw [hdrop] at hqueued
    exact hset.trans hqueued
  · exact hset.trans (freeNow hfree)

theorem stepFinalize {rest tasks : List Task} (e : h.stepFinalize i rest = .ok (h', tasks)) :
    Shifts h h' := by
  obtain ⟨c, hc, -, hkind, rfl, -⟩ := stepFinalize_eq_ok e
  refine .single (.rewrite h i fun d hd => .inr ?_)
  rw [cellAt_eq_ok_iff.mp hc] at hd
  cases hd
  exact ⟨Kind.isGuarded_of_isQueued hkind, rfl⟩

theorem stepDispose {rest tasks : List Task} (e : h.stepDispose i rest = .ok (h', tasks)) :
    Shifts h h' := by
  obtain ⟨c, hc, -, ⟨-, rfl⟩ | ⟨-, hfree⟩⟩ := stepDispose_eq_ok e
  · exact .setPlace (cellAt_eq_ok_iff.mp hc) rfl
  · exact .free hfree

theorem stepDrain {rest tasks : List Task} (e : h.stepDrain rest = .ok (h', tasks)) : Shifts h h' := by
  obtain ⟨-, rfl, -⟩ | ⟨_, _, _, -, -, -, rfl, -⟩ := stepDrain_eq_ok e
  · exact .aside rfl rfl rfl rfl rfl
  · exact .aside rfl rfl rfl rfl rfl

theorem step {task : Task} {rest tasks : List Task} (e : h.step task rest = .ok (h', tasks)) :
    Shifts h h' := by
  cases task with
  | release r => exact stepRelease e
  | finalize i => exact stepFinalize e
  | dispose i => exact stepDispose e
  | drain => exact stepDrain e

/-- A run of freeing makes no cell. -/
theorem run {tasks : List Task} (e : h.run tasks = .ok h') : Shifts h h' := by
  fun_induction Heap.run h tasks with
  | case1 h =>
    cases e
    exact .refl _
  | case2 h task rest err he => cases e
  | case3 h task rest h₁ tasks he ih => exact (step he).trans (ih e)

/-! ## Collecting -/

theorem trialEdge {st st' : Heap × List Nat} {child : Nat} (e : Heap.trialEdge st child = .ok st') :
    Shifts st.1 st'.1 := by
  obtain ⟨c, hc, -, ⟨-, rfl⟩ | ⟨-, rfl⟩⟩ := trialEdge_eq_ok e
  · exact touch_setPlace (cellAt_eq_ok_iff.mp hc) (f := fun d => { d with refCount := c.refCount - 1 })
      (fun _ => rfl) (fun _ => rfl) rfl
  · exact setRefCount st.1 child (c.refCount - 1)

theorem trialCell {st st' : Heap × List Nat} (e : Heap.trialCell st i = .ok st') : Shifts st.1 st'.1 := by
  obtain ⟨children, _, e⟩ := except_bind_eq_ok e
  obtain ⟨⟨h₁, found⟩, he, e⟩ := except_bind_eq_ok e
  obtain ⟨c, hc, e⟩ := except_bind_eq_ok e
  have hedges : Shifts st.1 h₁ := foldlM Prod.fst (fun _ _ _ => trialEdge) he
  have hmark := touch h₁ i (f := fun c => { c with mark := true }) (fun _ => rfl) fun _ => rfl
  split at e
  · cases e
    exact hedges.trans (touch_setPlace (cellAt_eq_ok_iff.mp hc) (f := fun c => { c with mark := true })
      (fun _ => rfl) (fun _ => rfl) rfl)
  · cases e
    exact hedges.trans hmark

theorem trialDeletion {found : List Nat} (e : h.trialDeletion = .ok (h', found)) : Shifts h h' := by
  obtain ⟨⟨h₁, found₁⟩, he, e⟩ := except_bind_eq_ok e
  cases e
  exact foldlM Prod.fst (fun _ _ _ => trialCell) he

theorem rescueEdge {st st' : Heap × List Nat} {child : Nat} (e : Heap.rescueEdge st child = .ok st') :
    Shifts st.1 st'.1 := by
  obtain ⟨c, hc, ⟨-, rfl⟩ | ⟨-, rfl⟩⟩ := rescueEdge_eq_ok e
  · refine (touch st.1 child (f := fun c => { c with refCount := 1, mark := false }) (fun _ => rfl)
      fun _ => rfl).trans ?_
    exact joinLive (c := { c with refCount := 1, mark := false })
      (by rw [tenant?_modifyCell, if_pos rfl, cellAt_eq_ok_iff.mp hc]; rfl)
  · exact .setRefCount st.1 child (c.refCount + 1)

theorem rescueCell {st st' : Heap × List Nat} (e : Heap.rescueCell st i = .ok st') :
    Shifts st.1 st'.1 := by
  obtain ⟨children, -, e⟩ := rescueCell_eq_ok e
  have hmark := touch st.1 i (f := fun c => { c with mark := false }) (fun _ => rfl) fun _ => rfl
  exact hmark.trans (foldlM Prod.fst (fun _ _ _ => rescueEdge) e)

theorem rescue {cells : List Nat} (e : h.rescue cells = .ok h') : Shifts h h' := by
  have round : ∀ {h : Heap} {cells : List Nat} {st : Heap × List Nat},
      cells.foldlM Heap.rescueCell (h, []) = .ok st → Shifts h st.1 := fun he =>
    foldlM Prod.fst (fun _ _ _ => rescueCell) he
  fun_induction Heap.rescue h cells with
  | case1 h cells err he => cases e
  | case2 h cells h₁ he =>
    cases e
    exact round he
  | case3 h cells h₁ j saved he ih => exact (round he).trans (ih e)

theorem restoreCell (e : h.restoreCell i = .ok h') : Shifts h h' := by
  obtain ⟨children, _, e⟩ := except_bind_eq_ok e
  refine foldlM id (fun s child s' hstep => ?_) e
  obtain ⟨c, -, rfl⟩ := restoreEdge_eq_ok hstep
  exact .setRefCount s child _

theorem removeCell (e : h.removeCell i = .ok h') : Shifts h h' := by
  obtain ⟨-, rfl⟩ | ⟨-, c, hc, ⟨-, h₁, hrun, rfl⟩ | ⟨-, rfl⟩⟩ := removeCell_eq_ok e
  · exact .refl _
  · exact (run hrun).then_aside rfl rfl rfl rfl rfl
  · exact .setPlace (cellAt_eq_ok_iff.mp hc) rfl

theorem sweepCell (e : h.sweepCell i = .ok h') : Shifts h h' := by
  obtain ⟨-, rfl⟩ | ⟨-, c, -, -, hfree⟩ := sweepCell_eq_ok e
  · exact .refl _
  · exact .free hfree

theorem removeGarbage {garbage : List Nat} (e : h.removeGarbage garbage = .ok h') : Shifts h h' := by
  obtain ⟨h₁, he, e⟩ := except_bind_eq_ok e
  have hbegin : Shifts h { h with phase := .removingCycles } := .aside rfl rfl rfl rfl rfl
  have hend : Shifts h₁ { h₁ with phase := .idle } := .aside rfl rfl rfl rfl rfl
  have hremove : Shifts _ h₁ := foldlM id (fun _ _ _ => removeCell) he
  exact ((hbegin.trans hremove).trans hend).trans (foldlM id (fun _ _ _ => sweepCell) e)

/-- A collection makes no cell. -/
theorem collectCycles (e : h.collectCycles = .ok h') : Shifts h h' := by
  obtain ⟨⟨h₁, found⟩, e₁, e⟩ := except_bind_eq_ok e
  obtain ⟨h₂, e₂, e⟩ := except_bind_eq_ok e
  obtain ⟨h₃, e₃, e⟩ := except_bind_eq_ok e
  obtain ⟨h₄, e₄, e⟩ := except_bind_eq_ok e
  cases e
  have hfind : Shifts h h₂ := (trialDeletion e₁).trans (rescue e₂)
  have hrestore : Shifts h₂ h₃ := foldlM id (fun _ _ _ => restoreCell) e₃
  exact ((hfind.trans hrestore).trans (removeGarbage e₄)).then_aside rfl rfl rfl rfl rfl

end Shifts

end Heap

end ObjectMemory
