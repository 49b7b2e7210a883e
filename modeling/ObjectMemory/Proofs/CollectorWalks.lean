import ObjectMemory.Proofs.GarbageCollection
import ObjectMemory.Proofs.Traces
import ObjectMemory.Proofs.Walks
set_option autoImplicit false

/-!
# The walks of a collection

Removal consumes the candidates from the front.  To finalize one may free or park others, and these are
anywhere on the lists.  `Task.clears?` tells from the state before a step of freeing which candidate the
step frees or parks; no step puts a cell among the candidates, so the log of a removal has each of them
once (`Heap.Clearing.run`, `Heap.Files.walk_removal`).  The cells that are parked stand in the order in
which they were seen to, and the sweep frees them in that order (`Heap.Files.walk_sweep`).

All five walks of a collection come to their ends, and none faults (`Client.collector_walks_end`).
-/

namespace ObjectMemory

namespace Task

/-- The cell that the step frees or parks. -/
def departs? (h : Heap) : Task → Option Nat
  | release r => if h.goesAtOnce r then some r.index else none
  | dispose i => some i
  | _ => none

/-- The candidate that the step frees or parks. -/
def clears? (h : Heap) (task : Task) : Option Nat :=
  (task.departs? h).filter fun i => h.placeAt? i == some .candidate

end Task

namespace Heap

variable {h h₁ h' : Heap} {r : Handle} {c : Cell} {i j k : Nat} {order : ListName → List Nat}
  {task : Task} {rest tasks : List Task} {log : List (Heap × Task)} {seen todo : List Nat}

/-! ## The lists as cells are freed -/

/-- What is freed at once leaves its list. -/
theorem Files.freeNow {body : Body} (hf : h.Files order) (e : h.freeNow r body = .ok h') :
    h'.phase = h.phase ∧ h'.Files (reorder order r.index none) := by
  obtain ⟨-, ⟨table, hfree⟩ | ⟨h₁, v, hfree, hforget⟩⟩ := freeNow_cases e
  · have hf₁ : ({ h with table := table } : Heap).Files order := hf.of_places (fun _ => rfl) rfl rfl
    exact ⟨(Calm.free hfree).2.1, hf₁.free hfree⟩
  · have hf₁ := hf.free hfree
    have hphase := (Calm.free hfree).2.1
    obtain rfl | ⟨id, rfl⟩ := forgetVariable_cases hforget
    · exact ⟨hphase, hf₁⟩
    · exact ⟨hphase, hf₁.of_places (fun _ => rfl) rfl rfl⟩

/-- During removal a cell of a queued kind that lost its last reference stays where it is. -/
theorem Files.stepRelease (hf : h.Files order) (hp : h.phase = .removingCycles)
    (e : h.stepRelease r rest = .ok (h', tasks)) :
    h'.phase = .removingCycles ∧ (∃ rs : List Handle, tasks = rs.map .release ++ rest) ∧
      h'.Files (if h.goesAtOnce r then reorder order r.index none else order) := by
  obtain ⟨c, hc, -, hcases⟩ := stepRelease_eq_ok e
  have hf₁ : (h.setRefCount r.index (c.refCount - 1)).Files order :=
    hf.of_places (placeAt?_modifyCell h r.index fun _ => rfl) rfl rfl
  obtain ⟨hmore, rfl, rfl⟩ | ⟨-, hkind, hdrop⟩ | ⟨hone, hkind, hfree, rfl⟩ := hcases
  · rw [if_neg (by simp [goesAtOnce, hc, hmore])]
    exact ⟨hp, ⟨[], rfl⟩, hf₁⟩
  · have hphase : (h.setRefCount r.index (c.refCount - 1)).phase = .removingCycles := hp
    rw [dropQueued, hphase] at hdrop
    cases hdrop
    rw [if_neg (by simp [goesAtOnce, hc, hkind])]
    exact ⟨hp, ⟨[], rfl⟩, hf₁⟩
  · obtain ⟨hphase, hf'⟩ := hf₁.freeNow hfree
    rw [if_pos (by simp [goesAtOnce, hc, hone, hkind])]
    exact ⟨hphase.trans hp, ⟨_, rfl⟩, hf'⟩

theorem Files.stepFinalize (hf : h.Files order) (e : h.stepFinalize i rest = .ok (h', tasks)) :
    h'.phase = h.phase ∧ (∃ rs : List Handle, tasks = rs.map .release ++ .dispose i :: rest) ∧
      h'.Files order := by
  obtain ⟨c, -, -, -, rfl, rfl⟩ := stepFinalize_eq_ok e
  exact ⟨rfl, ⟨_, rfl⟩, hf.of_places (placeAt?_modifyCell h i fun _ => rfl) rfl rfl⟩

/-- A finalized cell leaves its list, and waits if it is parked. -/
theorem Files.stepDispose (hf : h.Files order) (e : h.stepDispose i rest = .ok (h', tasks)) :
    h'.phase = h.phase ∧ tasks = rest ∧
      (h'.Files (reorder order i none) ∨ h'.Files (reorder order i (some .waiting))) := by
  obtain ⟨c, hc, rfl, ⟨-, rfl⟩ | ⟨-, hfree⟩⟩ := stepDispose_eq_ok e
  · exact ⟨rfl, rfl, .inr (hf.setPlace (cellAt_eq_ok_iff.mp hc) rfl)⟩
  · exact ⟨(Calm.free (r := h.handle i) hfree).2.1, rfl, .inl (hf.free hfree)⟩

/-! ## Candidates as they are cleared -/

/-- The candidate with a name is cleared. -/
theorem Takes.of_erase {xs : List Nat} (hnodup : xs.Nodup) {name : Option Nat}
    (hin : ∀ i, name = some i → i ∈ xs) :
    Takes (· ∈ xs) (· ∈ name.elim xs xs.erase) name.toList := by
  refine .of_name hin fun i => ?_
  cases name with
  | none => simp
  | some j =>
    rw [Option.elim_some, hnodup.mem_erase_iff]
    simp [and_comm, eq_comm]

theorem Files.clears_mem (hf : h.Files order) : ∀ i, task.clears? h = some i → i ∈ order .candidates := by
  intro i hi
  obtain ⟨-, hplace⟩ := Option.filter_eq_some_iff.mp hi
  exact hf.mem_candidates.mpr (by simpa using hplace)

/-- A cell that departs is cleared if it is a candidate. -/
theorem Files.erase_departing (hf : h.Files order) (hd : task.departs? h = some i) :
    (order .candidates).erase i = (task.clears? h).elim (order .candidates) (order .candidates).erase := by
  unfold Task.clears?
  rw [hd, Option.filter_some]
  split
  · rfl
  · rename_i hplace
    exact List.erase_of_not_mem fun hi => hplace (by simpa using hf.mem_candidates.mp hi)

/-- The state of a removal while the candidate in slot `k` is seen to, with the cells of `seen` behind it:
the parked cells wait in the order they were seen to. -/
structure Clearing (k : Nat) (seen : List Nat) (h : Heap) (tasks : List Task) (order : ListName → List Nat) :
    Prop where
  phase : h.phase = .removingCycles
  files : h.Files order
  own : ∀ t ∈ tasks, t = .finalize k ∨ t = .dispose k ∨ ∃ r, t = .release r
  waiting : (order .waiting).Sublist (seen ++ [k])
  pending : k ∈ order .candidates → .finalize k ∈ tasks ∨ .dispose k ∈ tasks

namespace Clearing

/-- A step keeps the order of the lists, and leaves all candidates but the one that it clears. -/
theorem step (hs : Clearing k seen h (task :: rest) order) (hk : k ∉ seen)
    (e : h.step task rest = .ok (h', tasks)) :
    ∃ order', Clearing k seen h' tasks order' ∧
      order' .candidates = (task.clears? h).elim (order .candidates) (order .candidates).erase := by
  have hrest : ∀ t ∈ rest, t = .finalize k ∨ t = .dispose k ∨ ∃ r, t = .release r := fun t ht =>
    hs.own t (List.mem_cons_of_mem _ ht)
  have hreleases : ∀ (rs : List Handle) (ts : List Task),
      (∀ t ∈ ts, t = .finalize k ∨ t = .dispose k ∨ ∃ r, t = .release r) →
      ∀ t ∈ rs.map .release ++ ts, t = .finalize k ∨ t = .dispose k ∨ ∃ r, t = .release r := by
    intro rs ts hts t ht
    rcases List.mem_append.mp ht with ht | ht
    · obtain ⟨r, -, rfl⟩ := List.mem_map.mp ht
      exact .inr (.inr ⟨r, rfl⟩)
    · exact hts t ht
  cases task with
  | release r =>
    obtain ⟨hphase, ⟨rs, rfl⟩, hf⟩ := hs.files.stepRelease hs.phase e
    have hpending : k ∈ order .candidates →
        .finalize k ∈ rs.map Task.release ++ rest ∨ .dispose k ∈ rs.map Task.release ++ rest := fun hmem => by
      simpa using hs.pending hmem
    split at hf
    · rename_i hgoes
      have hcand : reorder order r.index none .candidates =
          ((Task.release r).clears? h).elim (order .candidates) (order .candidates).erase := by
        rw [reorder_other _ _ (by decide)]
        exact hs.files.erase_departing (if_pos hgoes)
      refine ⟨_, ⟨hphase, hf, hreleases rs rest hrest, ?_, fun hmem => hpending ?_⟩, hcand⟩
      · rw [reorder_other _ _ (by decide)]
        exact List.erase_sublist.trans hs.waiting
      · rw [reorder_other _ _ (by decide)] at hmem
        exact List.mem_of_mem_erase hmem
    · rename_i hstays
      refine ⟨order, ⟨hphase, hf, hreleases rs rest hrest, hs.waiting, hpending⟩, ?_⟩
      simp [Task.clears?, Task.departs?, hstays]
  | finalize i =>
    obtain ⟨hphase, ⟨rs, rfl⟩, hf⟩ := hs.files.stepFinalize e
    obtain rfl : i = k := by simpa using hs.own _ List.mem_cons_self
    have hown := hreleases rs (.dispose i :: rest) (List.forall_mem_cons.mpr ⟨.inr (.inl rfl), hrest⟩)
    exact ⟨order, ⟨hphase.trans hs.phase, hf, hown, hs.waiting, fun _ => .inr (by simp)⟩, rfl⟩
  | dispose i =>
    obtain ⟨hphase, rfl, hf⟩ := hs.files.stepDispose e
    obtain rfl : i = k := by simpa using hs.own _ List.mem_cons_self
    have hgone : i ∉ (order .candidates).erase i := fun hmem =>
      ((hs.files.nodup _).mem_erase_iff.mp hmem).1 rfl
    have hcand : (order .candidates).erase i =
        ((Task.dispose i).clears? h).elim (order .candidates) (order .candidates).erase :=
      hs.files.erase_departing rfl
    rcases hf with hf | hf
    · refine ⟨_, ⟨hphase.trans hs.phase, hf, hrest, ?_, fun hmem => ?_⟩, ?_⟩
      · rw [reorder_other _ _ (by decide)]
        exact List.erase_sublist.trans hs.waiting
      · rw [reorder_other _ _ (by decide)] at hmem
        exact absurd hmem hgone
      · rw [reorder_other _ _ (by decide), hcand]
    · refine ⟨_, ⟨hphase.trans hs.phase, hf, hrest, ?_, fun hmem => ?_⟩, ?_⟩
      · -- the parked cells so far are of `seen`
        have hwaiting := hs.waiting.erase i
        rw [List.erase_append_right _ hk, List.erase_cons_head, List.append_nil] at hwaiting
        rw [reorder_self]
        exact hwaiting.append_right [i]
      · rw [reorder_other _ _ (by decide)] at hmem
        exact absurd hmem hgone
      · rw [reorder_other _ _ (by decide), hcand]
  | drain => simpa using hs.own _ List.mem_cons_self

/-- A run that sees to a candidate clears it, and of the others it clears those that its log names. -/
theorem run (hs : Clearing k seen h tasks order) (hk : k ∉ seen) (e : Runs h tasks log h') :
    ∃ order', Clearing k seen h' [] order' ∧ (order' .candidates).Sublist (order .candidates) ∧
      Takes (· ∈ order .candidates) (· ∈ order' .candidates) (log.filterMap fun a => a.2.clears? a.1) := by
  induction e generalizing order with
  | done h => exact ⟨order, hs, .refl _, .nothing _⟩
  | @step h h₁ h' task rest tasks log e _ ih =>
    obtain ⟨order₁, hs₁, hcand⟩ := hs.step hk e
    obtain ⟨order', hend, hsub, htakes⟩ := ih hs₁
    have hclears : ∀ i, task.clears? h = some i → i ∈ order .candidates := hs.files.clears_mem
    have hfirst := Takes.of_erase (hs.files.nodup .candidates) hclears
    rw [← hcand] at hfirst
    refine ⟨order', hend, hsub.trans ?_, ?_⟩
    · rw [hcand]
      cases task.clears? h with
      | none => exact .refl _
      | some i => exact List.erase_sublist
    · rw [List.filterMap_eq_flatMap_toList, List.flatMap_cons, ← List.filterMap_eq_flatMap_toList]
      exact hfirst.append htakes

end Clearing

/-! ## Removal -/

/-- A candidate is seen to by removal, which is done with the candidates that are cleared meanwhile. -/
inductive Removes : Heap → Nat → List Nat → Heap → Prop where
  /-- a cell of a queued kind is finalized -/
  | finalized {h h' : Heap} {i : Nat} {c : Cell} {log : List (Heap × Task)} (hc : h.tenant? i = some c)
      (hk : c.kind.isQueued = true) (e : Runs h [.finalize i] log h') :
      Removes h i (log.filterMap fun a => a.2.clears? a.1) { h' with collected := h'.collected + 1 }
  /-- a cell of another kind is parked, and its owners free it -/
  | parked {h : Heap} {i : Nat} {c : Cell} (hc : h.tenant? i = some c) (hk : c.kind.isQueued = false) :
      Removes h i [i] (h.setPlace i c.place .parked)

theorem Files.removeCell (hf : h.Files order) (hp : h.phase = .removingCycles)
    (hplace : h.placeAt? k = some .candidate) (hw : (order .waiting).Sublist seen) (hk : k ∉ seen)
    (e : h.removeCell k = .ok h') :
    ∃ cells order', Removes h k cells h' ∧ h'.phase = .removingCycles ∧ h'.Files order' ∧
      (order' .candidates).Sublist ((order .candidates).erase k) ∧
      (order' .waiting).Sublist (seen ++ [k]) ∧ Takes (· ∈ order .candidates) (· ∈ order' .candidates) cells := by
  obtain ⟨hother, -⟩ | ⟨-, c, hc, ⟨hkind, h₁, hrun, rfl⟩ | ⟨hkind, rfl⟩⟩ := removeCell_eq_ok e
  · exact absurd hplace hother
  · obtain ⟨log, hlog⟩ := exists_runs hrun
    have hstart : Clearing k seen h [.finalize k] order :=
      ⟨hp, hf, fun t ht => .inl (List.mem_singleton.mp ht), hw.trans (List.sublist_append_left _ _),
        fun _ => .inl List.mem_cons_self⟩
    obtain ⟨order', hend, hsub, htakes⟩ := hstart.run hk hlog
    have hgone : k ∉ order' .candidates := fun hmem => by simpa using hend.pending hmem
    have hsub := hsub.erase k
    rw [List.erase_of_not_mem hgone] at hsub
    exact ⟨_, order', .finalized (cellAt_eq_ok_iff.mp hc) hkind hlog, hend.phase,
      hend.files.of_places (fun _ => rfl) rfl rfl, hsub, hend.waiting, htakes⟩
  · have hc := cellAt_eq_ok_iff.mp hc
    have hmem : ∀ i, some k = some i → i ∈ order .candidates := by
      intro i hi
      cases hi
      exact hf.mem_candidates.mpr hplace
    have htakes := Takes.of_erase (hf.nodup .candidates) hmem
    refine ⟨_, _, .parked hc hkind, hp, hf.setPlace hc rfl, ?_, ?_, ?_⟩
    · rw [reorder_other _ _ (by decide)]
    · have hwaiting := hw.erase k
      rw [List.erase_of_not_mem hk] at hwaiting
      exact hwaiting.append_right [k]
    · rw [reorder_other _ _ (by decide)]
      exact htakes

/-- What is on a list that leads along `k` and then others stands in front, if it is `k`. -/
theorem eq_cons_of_sublist {xs ys : List Nat} (hs : xs.Sublist (k :: ys)) (hk : k ∈ xs) (hnew : k ∉ ys) :
    ∃ zs, xs = k :: zs ∧ zs.Sublist ys := by
  rcases List.sublist_cons_iff.mp hs with hs | hs
  · exact absurd (hs.subset hk) hnew
  · exact hs

theorem sublist_of_not_mem {xs ys : List Nat} (hs : xs.Sublist (k :: ys)) (hk : k ∉ xs) : xs.Sublist ys := by
  rcases List.sublist_cons_iff.mp hs with hs | ⟨zs, rfl, _⟩
  · exact hs
  · exact absurd List.mem_cons_self hk

/-- Removal takes the first candidate until there is none.  Every candidate is cleared once. -/
theorem Files.walk_removal (hf : h.Files order) (hp : h.phase = .removingCycles)
    (hcand : (order .candidates).Sublist todo) (hw : (order .waiting).Sublist seen)
    (hnodup : (seen ++ todo).Nodup) (e : todo.foldlM Heap.removeCell h = .ok h') :
    ∃ cells order', Walks Removes (firstAfter .candidates) h (order .candidates).head? cells h' ∧
      h'.Files order' ∧ (order' .waiting).Sublist (seen ++ todo) ∧
      Takes (· ∈ order .candidates) (fun _ => False) cells := by
  induction todo generalizing h order seen with
  | nil =>
    cases e
    rw [List.sublist_nil.mp hcand, List.append_nil]
    exact ⟨[], order, .finish _, hf, hw, .nil, fun _ => False.elim, by simp⟩
  | cons k todo ih =>
    rw [List.foldlM_cons] at e
    obtain ⟨h₁, e₁, e⟩ := except_bind_eq_ok e
    have hassoc : seen ++ k :: todo = seen ++ [k] ++ todo := by simp
    rw [hassoc] at hnodup ⊢
    obtain ⟨hseen, hrest⟩ : k ∉ seen ∧ k ∉ todo := by grind
    by_cases hplace : h.placeAt? k = some .candidate
    · obtain ⟨cs, hcs, hsub⟩ := eq_cons_of_sublist hcand (hf.mem_candidates.mpr hplace) hrest
      obtain ⟨first, order₁, hv, hp₁, hf₁, hcand₁, hw₁, htakes⟩ := hf.removeCell hp hplace hw hseen e₁
      rw [hcs, List.erase_cons_head] at hcand₁
      obtain ⟨cells, order', hmore, hend, hw', hall⟩ := ih hf₁ hp₁ (hcand₁.trans hsub) hw₁ hnodup e
      refine ⟨first ++ cells, order', ?_, hend, hw', htakes.append hall⟩
      rw [hcs]
      refine .cell hv ?_
      rw [firstAfter, hf₁.first]
      exact hmore
    · have hsame : h₁ = h := ((removeCell_eq_ok e₁).resolve_right fun hcandidate => hplace hcandidate.1).2
      rw [hsame] at e
      have hgone : k ∉ order .candidates := fun hmem => hplace (hf.mem_candidates.mp hmem)
      exact ih hf hp (sublist_of_not_mem hcand hgone) (hw.trans (List.sublist_append_left _ _)) hnodup e

/-! ## The sweep -/

/-- A cell is seen to by the sweep. -/
def Sweeps (h : Heap) (i : Nat) (cells : List Nat) (h' : Heap) : Prop := cells = [i] ∧ h.sweepCell i = .ok h'

/-- The sweep takes the first cell that waits until there is none. -/
theorem Files.walk_sweep (hf : h.Files order) (hsub : (order .waiting).Sublist todo) (hnodup : todo.Nodup)
    (hparked : ∀ i ∈ order .waiting, h.placeAt? i = some .parked)
    (e : todo.foldlM Heap.sweepCell h = .ok h') :
    Walks Sweeps (firstAfter .waiting) h (order .waiting).head? (order .waiting) h' := by
  induction todo generalizing h order with
  | nil =>
    cases e
    rw [List.sublist_nil.mp hsub]
    exact .finish _
  | cons k todo ih =>
    rw [List.foldlM_cons] at e
    obtain ⟨h₁, e₁, e⟩ := except_bind_eq_ok e
    obtain ⟨hk, hnodup⟩ := List.nodup_cons.mp hnodup
    obtain ⟨hplace, hsame⟩ | ⟨hplace, -, -, -, hfree⟩ := sweepCell_eq_ok e₁
    · rw [hsame] at e
      exact ih hf (sublist_of_not_mem hsub fun hmem => hplace (hparked k hmem)) hnodup hparked e
    · have hmem : k ∈ order .waiting := (hf.mem _ _).mpr (by rw [listAt?, hplace]; rfl)
      obtain ⟨ws, hws, hrest⟩ := eq_cons_of_sublist hsub hmem hk
      have hf₁ := hf.free hfree
      have hwaiting : reorder order k none .waiting = ws := by
        rw [reorder_other _ _ (by decide), hws, List.erase_cons_head]
      have hmore := ih hf₁ (by rw [hwaiting]; exact hrest) hnodup (fun i hi => ?_) e
      · rw [hws]
        refine .single ⟨rfl, e₁⟩ ?_
        rw [firstAfter, hf₁.first, hwaiting]
        rwa [hwaiting] at hmore
      · -- the others stay where they are
        rw [hwaiting] at hi
        have hne : i ≠ k := by
          have hnd := hf.nodup .waiting
          rw [hws] at hnd
          exact fun he => (List.nodup_cons.mp hnd).1 (he ▸ hi)
        rw [placeAt?_congr (h := h) (by rw [tenant?_free hfree, if_neg (Ne.symm hne)])]
        exact hparked i (hws ▸ List.mem_cons_of_mem _ hi)

/-! ## A whole collection -/

end Heap

theorem Kind.isQueued_iff {k : Kind} : k.isQueued = true ↔ k = .object ∨ k = .bytecode := by
  cases k <;> simp [Kind.isQueued]

theorem Body.exists_zombie {b : Body} (hz : b.isZombie = true) : ∃ k, b = .zombie k := by
  cases b with
  | zombie k => exact ⟨k, rfl⟩
  | _ => cases hz

namespace Heap

variable {h h₁ h' : Heap} {order : ListName → List Nat}

/-- The walks of a collection, from heap to heap. -/
structure CollectionWalks (h h₁ h₂ h₃ h₄ h₅ : Heap) (garbage cleared parked : List Nat) : Prop where
  /-- trial deletion sees to every cell of the live list, in order -/
  tried : Walks Tries (linkBefore .live) h (h.lists.next .live none) h.liveOrder h₁
  /-- rescue sees to every cell that is live in the end, in order -/
  rescued : Walks Rescues (linkAfter .live) h₁ (h₁.lists.next .live none) h₂.liveOrder h₂
  /-- restoring sees to the candidates that are left -/
  restored : Walks Restores (linkAfter .candidates) h₂ (h₂.lists.next .candidates none) garbage h₃
  removed : Walks Removes (firstAfter .candidates) { h₃ with phase := .removingCycles }
    (h₃.lists.next .candidates none) cleared h₄
  swept : Walks Sweeps (firstAfter .waiting) { h₄ with phase := .idle } (h₄.lists.next .waiting none) parked h₅
  /-- the candidates before removal -/
  candidates : h₃.lists.Spells .candidates garbage
  /-- each of them is freed or parked, and once only -/
  clearedOnce : cleared.Nodup
  cleared_iff : ∀ i, i ∈ cleared ↔ i ∈ garbage
  /-- the cells that wait before the sweep -/
  waiting : h₄.lists.Spells .waiting parked
  /-- all of them are finalized objects and functions -/
  zombies : ∀ i ∈ parked, ∃ c k, h₄.tenant? i = some c ∧ c.body = .zombie k ∧ (k = .object ∨ k = .bytecode)

/-- The candidates that are left stand in the order they were found in. -/
theorem Files.candidates_eq {found : List Nat} (hf : h.Files order) (hsub : (order .candidates).Sublist found)
    (hnodup : found.Nodup) : order .candidates = h.stillCandidates found := by
  have hself : (order .candidates).filter (fun i => h.placeAt? i == some .candidate) = order .candidates :=
    List.filter_eq_self.mpr fun i hi => by simpa using hf.mem_candidates.mp hi
  have hsub' : (order .candidates).Sublist (h.stillCandidates found) := hself ▸ hsub.filter _
  have hall : h.stillCandidates found ⊆ order .candidates := fun i hi =>
    hf.mem_candidates.mpr (by simpa using (List.mem_filter.mp hi).2)
  exact hsub'.eq_of_length_le ((hnodup.filter _).subperm hall).length_le

section

variable {x : Ledger} {n : Nat} {h₂ h₃ : Heap} {found garbage : List Nat}

/-- The walks that find the garbage. -/
theorem Sound.walks_finding (hs : h.Sound x n) (hf : h.Files order) (htrial : h.trialDeletion = .ok (h₁, found))
    (hrescue : h₁.rescue h₁.liveOrder = .ok h₂)
    (hrestore : (h₂.stillCandidates found).foldlM restoreCell h₂ = .ok h₃) :
    Walks Tries (linkBefore .live) h (h.lists.next .live none) h.liveOrder h₁ ∧
      Walks Rescues (linkAfter .live) h₁ (h₁.lists.next .live none) h₂.liveOrder h₂ ∧
      Walks Restores (linkAfter .candidates) h₂ (h₂.lists.next .candidates none) (h₂.stillCandidates found) h₃ ∧
      ∃ order', h₃.Files order' ∧ order' .candidates = h₂.stillCandidates found ∧ order' .waiting = [] := by
  obtain ⟨h₁', found', htrial', ht⟩ := trialDeletion_eq rfl
    (fun i hi => tenant_of_mem_liveOrder hi) hs.ready.covered hs.ready.unmarked
  cases htrial'.symm.trans htrial
  obtain ⟨⟨_, backwards⟩, htried, e⟩ := except_bind_eq_ok htrial
  cases e
  have hempty : ∀ name, name ≠ .live → order name = [] := fun name hne => hf.eq_nil hs hne
  have hsorting : Sorting h.liveOrder (h, []) order :=
    ⟨hf, hf.live_eq ▸ List.suffix_refl _, fun j _ => hs.ready.unmarked j, hempty .candidates (by decide),
      fun j hj => absurd hj List.not_mem_nil, hempty .waiting (by decide)⟩
  obtain ⟨hwalk₁, order₁, hs₁⟩ := hsorting.walk (nodup_liveOrder h) htried
  have hcounted : ∀ j ∈ order₁ .live, h₁.countAt j ≠ 0 := by
    -- a cell without a count is a candidate, unless it was not on the live list before
    intro j hj hzero
    rw [hs₁.files.live_eq] at hj
    obtain ⟨t, hlive⟩ := mem_liveOrder.mp hj
    have hplace := ht.place j
    split at hplace
    · rw [hplace] at hlive
      cases hlive
    · rename_i hout
      rw [hplace] at hlive
      exact hout ⟨mem_liveOrder.mpr ⟨t, hlive⟩, hzero⟩
  have hsaving : Saving backwards.reverse [] h₁.liveOrder h₁ order₁ :=
    ⟨hs₁.files, hs₁.files.live_eq, hs₁.candidates ▸ List.Sublist.refl _, hcounted, hs₁.waiting⟩
  obtain ⟨log, order₂, hwalk₂, hs₂⟩ := hsaving.walk hrescue
  obtain rfl : log = h₂.liveOrder := by
    rw [← hs₂.files.live_eq, hs₂.live]
    simp
  have hgarbage := hs₂.files.candidates_eq hs₂.candidates ht.nodup
  obtain ⟨hwalk₃, hf₃⟩ := hs₂.files.walk_restoring [] hgarbage hrestore
  refine ⟨?_, ?_, ?_, order₂, hf₃, hgarbage, hs₂.waiting⟩
  · rw [hf.first, hf.live_eq]
    exact hwalk₁
  · rw [hs₁.files.first, hs₁.files.live_eq]
    exact hwalk₂
  · rw [hs₂.files.first, hgarbage]
    exact hwalk₃

/-- The walks that remove the garbage. -/
theorem Removable.walks_removing (hg : Removable x n h garbage) (hf : h.Files order)
    (hgarbage : order .candidates = garbage) (hnone : order .waiting = [])
    (e : h.removeGarbage garbage = .ok h') :
    ∃ h₁ cleared parked,
      Walks Removes (firstAfter .candidates) { h with phase := .removingCycles } (h.lists.next .candidates none)
        cleared h₁ ∧
      Takes (· ∈ garbage) (fun _ => False) cleared ∧
      Walks Sweeps (firstAfter .waiting) { h₁ with phase := .idle } (h₁.lists.next .waiting none) parked h' ∧
      h₁.lists.Spells .waiting parked ∧
      ∀ i ∈ parked, ∃ c k, h₁.tenant? i = some c ∧ c.body = .zombie k ∧ (k = .object ∨ k = .bytecode) := by
  obtain ⟨h₁, hfold, _, hzombies⟩ := hg.finalizes
  obtain ⟨h₁', hfold', hsweep⟩ := except_bind_eq_ok e
  cases hfold.symm.trans hfold'
  have hf₀ : ({ h with phase := .removingCycles } : Heap).Files order := hf.of_places (fun _ => rfl) rfl rfl
  have hwaiting : (order .waiting).Sublist [] := hnone ▸ List.Sublist.refl _
  obtain ⟨cleared, order₁, hwalk, hf₁, hsub, htakes⟩ := hf₀.walk_removal rfl
    (hgarbage ▸ List.Sublist.refl _) hwaiting hg.nodup hfold
  have hparked : ∀ i ∈ order₁ .waiting, ∃ c, h₁.tenant? i = some c ∧
      c.body.isZombie = true ∧ c.kind.isQueued = true ∧ c.place = .parked := by
    intro i hi
    obtain ⟨p, hp, -⟩ := Option.bind_eq_some_iff.mp ((hf₁.mem _ i).mp hi)
    rw [placeAt?_eq] at hp
    obtain ⟨c, hc, -⟩ := Option.map_eq_some_iff.mp hp
    obtain ⟨hz, hq, hplace, -⟩ := hzombies i c (hsub.subset hi) hc
    exact ⟨c, hc, hz, hq, hplace⟩
  have hf₂ : ({ h₁ with phase := .idle } : Heap).Files order₁ := hf₁.of_places (fun _ => rfl) rfl rfl
  have hsweeps := hf₂.walk_sweep hsub hg.nodup (fun i hi => ?_) hsweep
  · refine ⟨h₁, cleared, order₁ .waiting, ?_, hgarbage ▸ htakes, ?_, hf₁.arranged.spells .waiting,
      fun i hi => ?_⟩
    · rw [hf.first]
      exact hwalk
    · rw [hf₁.first]
      exact hsweeps
    · obtain ⟨c, hc, hz, hq, -⟩ := hparked i hi
      obtain ⟨k, hk⟩ := Body.exists_zombie hz
      rw [Cell.kind, hk] at hq
      exact ⟨c, k, hc, hk, Kind.isQueued_iff.mp hq⟩
  · obtain ⟨c, hc, -, -, hplace⟩ := hparked i hi
    exact (placeAt?_of_tenant hc).trans (congrArg some hplace)

/-- The walks of a collection come to their ends. -/
theorem Sound.collection_walks (hs : h.Sound x n) (hf : h.Files order) :
    ∃ h₁ h₂ h₃ h₄ h₅ garbage cleared parked, CollectionWalks h h₁ h₂ h₃ h₄ h₅ garbage cleared parked ∧
      h.collectCycles = .ok { h₅ with collections := h₅.collections + 1 } := by
  obtain ⟨h₁, found, h₂, h₃, htrial, hrescue, hrestore, hsift⟩ := hs.ready.sift hs.countAt_eq
  obtain ⟨hwalk₁, hwalk₂, hwalk₃, order₃, hf₃, hgarbage, hnone⟩ := hs.walks_finding hf htrial hrescue hrestore
  have hg := hsift.removable hs
  obtain ⟨h₅, hremove, -⟩ := hg.removeGarbage_eq
  obtain ⟨h₄, cleared, parked, hwalk₄, htakes, hwalk₅, hwaiting, hzombies⟩ :=
    hg.walks_removing hf₃ hgarbage hnone hremove
  refine ⟨h₁, h₂, h₃, h₄, h₅, _, cleared, parked, ⟨hwalk₁, hwalk₂, hwalk₃, hwalk₄, hwalk₅,
    hgarbage ▸ hf₃.arranged.spells .candidates, htakes.nodup, fun i => (htakes.mem i).trans (by simp),
    hwaiting, hzombies⟩, ?_⟩
  unfold Heap.collectCycles
  simp only [htrial, hrescue, hrestore, hremove, bind, Except.bind]
  rfl

end

end Heap

/-! ## The heaps of clients -/

namespace Client

open Heap

variable {config : Config} {h : Heap} {x : Ledger}

/-- With exact counts a collection ends without a fault.  So do its walks along the linked lists, whatever
moves under their cursors: each candidate that is left for removal is freed or parked once, and what waits
for the sweep are finalized objects and functions. -/
theorem collector_walks_end (hr : Reached (fun _ => True) config h x)
    (hexact : ∀ r c, h.cell? r = some c →
      c.refCount = x r + h.heldByCells r + h.heldByFrames r + h.dropped.toList.count r) :
    ∃ n h₀ h₁ h₂ h₃ h₄ h₅ garbage cleared parked, HeapM.flushRoots h = .ok ((), h₀) ∧
      CollectionWalks h₀ h₁ h₂ h₃ h₄ h₅ garbage cleared parked ∧
      HeapM.collect h = .ok (n, { h₅ with collections := h₅.collections + 1 }) := by
  have hs := (hr.valid_of_exact hexact).sound
  obtain ⟨h₀, hflush, hs₀, -⟩ := hs.flushRoots
  have hrun : h.Strokes h₀ := .of_shifts (HeapM.Shifting.flushRoots _ _ _ hflush)
  have hk₀ := hrun.keeps (fun e hk => hk.stroke e) hr.registry_kept
  obtain ⟨order, hf₀⟩ := hk₀.files
  obtain ⟨h₁, h₂, h₃, h₄, h₅, garbage, cleared, parked, hwalks, hok⟩ := hs₀.collection_walks hf₀
  exact ⟨_, h₀, h₁, h₂, h₃, h₄, h₅, garbage, cleared, parked, hflush, hwalks,
    collect_eq hs.idle hflush hok⟩

/-- Of two objects, the second refers to itself and nobody else to it. -/
theorem collector_walks_end_loop : ∃ h x, Reached (fun _ => True) .default h x ∧
    (∀ r c, h.cell? r = some c →
      c.refCount = x r + h.heldByCells r + h.heldByFrames r + h.dropped.toList.count r) ∧
    ∃ n h₀ h₁ h₂ h₃ h₄ h₅ garbage cleared parked, HeapM.flushRoots h = .ok ((), h₀) ∧
      CollectionWalks h₀ h₁ h₂ h₃ h₄ h₅ garbage cleared parked ∧
      HeapM.collect h = .ok (n, { h₅ with collections := h₅.collections + 1 }) := by
  obtain ⟨h, x, hr, _, _, _⟩ := reached_loop
  have hexact : ∀ r c, h.cell? r = some c →
      c.refCount = x r + h.heldByCells r + h.heldByFrames r + h.dropped.toList.count r := by
    intro r c hc
    rw [hr.valid_of_no_push.sound.coherent.counted.counts r c hc, Heap.held]
    omega
  have hr' : Reached (fun _ => True) .default h x := hr.mono fun _ _ => trivial
  exact ⟨h, x, hr', hexact, collector_walks_end hr' hexact⟩

end Client

end ObjectMemory
