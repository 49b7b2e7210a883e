import ObjectMemory.Proofs.Draining
set_option autoImplicit false

/-!
# Runs step by step

`Heap.Runs` is a run of freeing with the log of its steps.  What a step does to a cell shows in the state
it starts from: it finalizes the cell, gives its slot back, or both at once (`Heap.step_cases`).  A log in
which every step takes just the cells it names out of some set names each of them once
(`Heap.Runs.taken`); so a run gives back the slot of every cell it frees once (`Heap.Runs.vacated`), and
finalizes every cell it finalizes once (`Heap.Runs.finalized`).
-/

namespace ObjectMemory

namespace Heap

/-- The cell has one reference left and is of a kind that goes at once. -/
def goesAtOnce (h : Heap) (r : Handle) : Bool :=
  (h.cell? r).any fun c => decide (c.refCount = 1) && !c.kind.isQueued

/-- The cell is garbage that other garbage still refers to, and a collection is under way. -/
def isParked (h : Heap) (i : Nat) : Bool :=
  decide (h.phase = .removingCycles) && (h.tenant? i).any fun c => decide (c.refCount ≠ 0)

end Heap

namespace Task

/-- The cell whose body the step takes. -/
def finalizes? (h : Heap) : Task → Option Handle
  | release r => if h.goesAtOnce r then some r else none
  | finalize i => some (h.handle i)
  | _ => none

/-- The cell whose slot the step gives back. -/
def vacates? (h : Heap) : Task → Option Handle
  | release r => if h.goesAtOnce r then some r else none
  | dispose i => if h.isParked i then none else some (h.handle i)
  | _ => none

end Task

namespace Heap

variable {x : Ledger} {n : Nat} {h h₀ h₁ h' : Heap} {r q : Handle} {c : Cell} {i : Nat} {task : Task}
  {tasks rest : List Task} {log : List (Heap × Task)}

/-! ## What a step does -/

theorem body?_modifyCell (h : Heap) (i : Nat) {f : Cell → Cell} (hbody : ∀ c, (f c).body = c.body)
    (q : Handle) : (h.modifyCell i f).body? q = h.body? q := by
  unfold body?
  rw [cell?_modifyCell]
  split
  · rw [Option.map_map]
    exact congrArg (Option.map · (h.cell? q)) (funext hbody)
  · rfl

theorem body?_of_slots (hs : h'.slots = h.slots) (q : Handle) : h'.body? q = h.body? q := by
  unfold body?
  rw [(SameCells.of_slots hs).cell]

theorem body?_setPlace (h : Heap) (i : Nat) (p q : Place) (r : Handle) :
    (h.setPlace i p q).body? r = h.body? r :=
  (body?_of_slots rfl r).trans (body?_modifyCell h i (f := fun c => { c with place := q }) (fun _ => rfl) r)

/-- What is freed at once is no zombie and is of a kind that does not wait; nothing else goes. -/
theorem Updates.freeNow {b : Body} (hc : h.cell? r = some c) (e : h.freeNow r b = .ok h') :
    b.isZombie = false ∧ Updates r none h h' := by
  obtain ⟨hbody, hcases⟩ := freeNow_cases e
  refine ⟨Body.isZombie_eq_false hbody, ?_⟩
  obtain ⟨table, hfree⟩ | ⟨h₁, v, hfree, hforget⟩ := hcases
  · have hsame : SameCells h { h with table := table } := .of_slots rfl
    exact .after_same hsame (.free (by rw [hsame.cell, hc]) hfree)
  · exact (Updates.free hc hfree).then_slots (forgetVariable_eq_ok hforget).1

theorem body?_dropQueued (h : Heap) (i : Nat) (old : Place) (rest : List Task) (q : Handle) :
    (h.dropQueued i old rest).1.body? q = h.body? q := by
  unfold dropQueued
  split
  · rfl
  · exact (body?_of_slots rfl q).trans (body?_setPlace h i old .queued q)
  · exact (body?_of_slots rfl q).trans (body?_setPlace h i old .queued q)

/-- A reference that is given up frees the cell if it goes at once; else the bodies stay. -/
theorem stepRelease_cases (e : h.stepRelease r rest = .ok (h', tasks)) :
    (h.goesAtOnce r = false ∧ ∀ q, h'.body? q = h.body? q) ∨
      h.goesAtOnce r = true ∧ ∃ c, h.cell? r = some c ∧ c.body.isZombie = false ∧ Updates r none h h' := by
  obtain ⟨c, hc, -, hcases⟩ := stepRelease_eq_ok e
  have hcount := body?_modifyCell h r.index (f := fun d => { d with refCount := c.refCount - 1 })
    fun _ => rfl
  obtain ⟨hmore, rfl, -⟩ | ⟨-, hkind, hdrop⟩ | ⟨hone, hkind, hfree, -⟩ := hcases
  · exact .inl ⟨by simp [goesAtOnce, hc, hmore], hcount⟩
  · refine .inl ⟨by simp [goesAtOnce, hc, hkind], fun q => ?_⟩
    have hqueued := body?_dropQueued (h.setRefCount r.index (c.refCount - 1)) r.index c.place rest q
    rw [hdrop] at hqueued
    exact hqueued.trans (hcount q)
  · have hu := Updates.setRefCount hc (c.refCount - 1)
    obtain ⟨hwhole, hu'⟩ := Updates.freeNow hu.cell_self hfree
    exact .inr ⟨by simp [goesAtOnce, hc, hone, hkind], c, hc, hwhole, hu.trans hu'⟩

/-- A cell that is finalized is a zombie of its kind afterwards. -/
theorem updates_of_stepFinalize (e : h.stepFinalize i rest = .ok (h', tasks)) :
    ∃ c, h.tenant? i = some c ∧ c.body.isZombie = false ∧
      Updates (h.handle i) (some { c with body := .zombie c.kind }) h h' := by
  obtain ⟨c, hc, hbody, -, rfl, -⟩ := stepFinalize_eq_ok e
  have hc := cellAt_eq_ok_iff.mp hc
  have hcell : h.cell? (h.handle i) = some c := by rw [cell?_handle, hc]
  exact ⟨c, hc, Body.isZombie_eq_false hbody, .modifyCell hcell fun d => { d with body := .zombie c.kind }⟩

/-- A cell that is disposed of is parked or freed. -/
theorem stepDispose_cases (e : h.stepDispose i rest = .ok (h', tasks)) :
    (h.isParked i = true ∧ ∀ q, h'.body? q = h.body? q) ∨
      h.isParked i = false ∧ ∃ c, h.tenant? i = some c ∧ Updates (h.handle i) none h h' := by
  obtain ⟨c, hc, -, ⟨hpark, rfl⟩ | ⟨hpark, hfree⟩⟩ := stepDispose_eq_ok e
  · have hc := cellAt_eq_ok_iff.mp hc
    exact .inl ⟨by simp [isParked, hc, hpark], body?_setPlace h i c.place .parked⟩
  · have hc := cellAt_eq_ok_iff.mp hc
    have hcell : h.cell? (h.handle i) = some c := by rw [cell?_handle, hc]
    exact .inr ⟨by simpa [isParked, hc] using hpark, c, hc, .free hcell hfree⟩

theorem body?_of_stepDrain (e : h.stepDrain rest = .ok (h', tasks)) (q : Handle) : h'.body? q = h.body? q := by
  obtain ⟨-, rfl, -⟩ | ⟨_, _, _, -, -, -, rfl, -⟩ := stepDrain_eq_ok e
  · exact body?_of_slots rfl q
  · exact body?_of_slots rfl q

/-- A step leaves all bodies, or finalizes a cell that waits, or frees a cell at once, or gives the slot
of a cell back. -/
theorem step_cases (e : h.step task rest = .ok (h', tasks)) :
    (task.finalizes? h = none ∧ task.vacates? h = none ∧ ∀ q, h'.body? q = h.body? q) ∨
    (∃ i c, task = .finalize i ∧ h.tenant? i = some c ∧ c.body.isZombie = false ∧
      Updates (h.handle i) (some { c with body := .zombie c.kind }) h h') ∨
    (∃ r c, task = .release r ∧ h.goesAtOnce r = true ∧ h.cell? r = some c ∧ c.body.isZombie = false ∧
      Updates r none h h') ∨
    ∃ i c, task = .dispose i ∧ h.isParked i = false ∧ h.tenant? i = some c ∧
      Updates (h.handle i) none h h' := by
  cases task with
  | release r =>
    rcases stepRelease_cases e with ⟨hstays, hbody⟩ | ⟨hgoes, c, hc, hwhole, hu⟩
    · exact .inl ⟨by simp [Task.finalizes?, hstays], by simp [Task.vacates?, hstays], hbody⟩
    · exact .inr (.inr (.inl ⟨r, c, rfl, hgoes, hc, hwhole, hu⟩))
  | finalize i =>
    obtain ⟨c, hc, hwhole, hu⟩ := updates_of_stepFinalize e
    exact .inr (.inl ⟨i, c, rfl, hc, hwhole, hu⟩)
  | dispose i =>
    rcases stepDispose_cases e with ⟨hparked, hbody⟩ | ⟨hgoes, c, hc, hu⟩
    · exact .inl ⟨rfl, by simp [Task.vacates?, hparked], hbody⟩
    · exact .inr (.inr (.inr ⟨i, c, rfl, hgoes, hc, hu⟩))
  | drain => exact .inl ⟨rfl, rfl, body?_of_stepDrain e⟩

theorem contains_iff_body : h.contains q = true ↔ ∃ b, h.body? q = some b := by
  rw [contains_iff]
  constructor
  · rintro ⟨c, hc⟩
    exact ⟨_, body?_eq_some_iff.mpr ⟨c, hc, rfl⟩⟩
  · rintro ⟨b, hb⟩
    obtain ⟨c, hc, _⟩ := body?_eq_some_iff.mp hb
    exact ⟨c, hc⟩

/-- The cell is there and has not been finalized. -/
def IsWhole (h : Heap) (r : Handle) : Prop := ∃ b, h.body? r = some b ∧ b.isZombie = false

/-- A cell that was vacated is there no more, and the others are as they were. -/
theorem Updates.contains_iff_of_none (hu : Updates r none h h') :
    h'.contains q = true ↔ h.contains q = true ∧ some r ≠ some q := by
  simp only [contains_iff, hu.cell]
  split
  · rename_i hq
    simp [hq]
  · rename_i hq
    simp [Ne.symm hq]

/-- A step takes just the cell away that it names. -/
theorem vacates_of_step (e : h.step task rest = .ok (h', tasks)) :
    (∀ q, task.vacates? h = some q → h.contains q = true) ∧
      ∀ q, h'.contains q = true ↔ h.contains q = true ∧ task.vacates? h ≠ some q := by
  obtain ⟨-, hnone, hsame⟩ | ⟨i, c, rfl, hc, -, hu⟩ | ⟨r, c, rfl, hgoes, hc, -, hu⟩ |
    ⟨i, c, rfl, hpark, hc, hu⟩ := step_cases e
  · rw [hnone]
    simp [contains_iff_body, hsame]
  · have hcell : h.cell? (h.handle i) = some c := by rw [cell?_handle, hc]
    refine ⟨fun q hq => (by cases hq), fun q => ?_⟩
    simp only [contains_iff, hu.cell]
    split
    · rename_i hq
      simp [hq, hcell, Task.vacates?]
    · simp [Task.vacates?]
  · have hname : (Task.release r).vacates? h = some r := if_pos hgoes
    rw [hname]
    refine ⟨fun q hq => ?_, fun q => hu.contains_iff_of_none⟩
    cases hq
    exact contains_of_cell? hc
  · have hname : (Task.dispose i).vacates? h = some (h.handle i) := by simp [Task.vacates?, hpark]
    rw [hname]
    refine ⟨fun q hq => ?_, fun q => hu.contains_iff_of_none⟩
    cases hq
    exact contains_iff.mpr ⟨c, by rw [cell?_handle, hc]⟩

/-- A step finalizes just the cell that it names, if a cell that it disposes of is finalized. -/
theorem finalizes_of_step (e : h.step task rest = .ok (h', tasks))
    (hspent : ∀ i, task = .dispose i → ∃ c, h.tenant? i = some c ∧ c.body.isZombie = true) :
    (∀ q, task.finalizes? h = some q → h.IsWhole q) ∧
      ∀ q, h'.IsWhole q ↔ h.IsWhole q ∧ task.finalizes? h ≠ some q := by
  obtain ⟨hnone, -, hsame⟩ | ⟨i, c, rfl, hc, hwhole, hu⟩ | ⟨r, c, rfl, hgoes, hc, hwhole, hu⟩ |
    ⟨i, c, rfl, -, hc, hu⟩ := step_cases e
  · rw [hnone]
    simp [IsWhole, hsame]
  · have hcell : h.cell? (h.handle i) = some c := by rw [cell?_handle, hc]
    have hname : (Task.finalize i).finalizes? h = some (h.handle i) := rfl
    rw [hname]
    refine ⟨fun q hq => ?_, fun q => ?_⟩
    · cases hq
      exact ⟨_, body?_eq_some_iff.mpr ⟨c, hcell, rfl⟩, hwhole⟩
    · by_cases hq : q = h.handle i
      · subst hq
        simp [IsWhole, hu.body_self, Body.isZombie]
      · simp [IsWhole, hu.body_other hq, Ne.symm hq]
  · have hname : (Task.release r).finalizes? h = some r := if_pos hgoes
    rw [hname]
    refine ⟨fun q hq => ?_, fun q => ?_⟩
    · cases hq
      exact ⟨_, body?_eq_some_iff.mpr ⟨c, hc, rfl⟩, hwhole⟩
    · by_cases hq : q = r
      · subst hq
        simp [IsWhole, body?, hu.cell_self]
      · simp [IsWhole, hu.body_other hq, Ne.symm hq]
  · obtain ⟨d, hd, hzombie⟩ := hspent i rfl
    cases hc.symm.trans hd
    have hcell : h.cell? (h.handle i) = some c := by rw [cell?_handle, hc]
    refine ⟨fun q hq => (by cases hq), fun q => ?_⟩
    by_cases hq : q = h.handle i
    · subst hq
      simp [IsWhole, body?, hu.cell_self, hcell, hzombie]
    · simp [IsWhole, hu.body_other hq, Task.finalizes?]

/-! ## Runs and their logs -/

/-- A run that ends well, with the heap and the task of each of its steps. -/
inductive Runs : Heap → List Task → List (Heap × Task) → Heap → Prop where
  | done (h : Heap) : Runs h [] [] h
  | step {h h₁ h' : Heap} {task : Task} {rest tasks : List Task} {log : List (Heap × Task)}
      (e : h.step task rest = .ok (h₁, tasks)) (more : Runs h₁ tasks log h') :
      Runs h (task :: rest) ((h, task) :: log) h'

theorem exists_runs (e : h.run tasks = .ok h') : ∃ log, Runs h tasks log h' := by
  induction hw : h.work tasks using Nat.strong_induction_on generalizing h tasks with
  | _ w ih =>
    cases tasks with
    | nil =>
      rw [run] at e
      cases e
      exact ⟨[], .done _⟩
    | cons task rest =>
      cases hstep : h.step task rest with
      | error fault =>
        rw [run] at e
        split at e
        · cases e
        · rename_i hok
          cases hstep.symm.trans hok
      | ok next =>
        obtain ⟨h₁, tasks₁⟩ := next
        rw [run_cons hstep] at e
        obtain ⟨log, hlog⟩ := ih _ (hw ▸ work_step hstep) e rfl
        exact ⟨_, .step hstep hlog⟩

/-- What every step keeps holds at every step of the log. -/
theorem Runs.invariant {P : Heap → List Task → Prop}
    (hstep : ∀ {h : Heap} {task : Task} {rest : List Task} {h' : Heap} {tasks : List Task},
      P h (task :: rest) → h.step task rest = .ok (h', tasks) → P h' tasks)
    (e : Runs h tasks log h') (hp : P h tasks) : ∀ a ∈ log, ∃ rest, P a.1 (a.2 :: rest) := by
  induction e with
  | done => exact List.forall_mem_nil _
  | step e _ ih => exact List.forall_mem_cons.mpr ⟨⟨_, hp⟩, ih (hstep hp e)⟩

/-- The names are those of what was in a set before and is no more, once each. -/
structure Takes {α : Type} (S S' : α → Prop) (names : List α) : Prop where
  nodup : names.Nodup
  back : ∀ a, S' a → S a
  mem : ∀ a, a ∈ names ↔ S a ∧ ¬ S' a

namespace Takes

variable {α : Type} {S S₁ S' : α → Prop} {xs ys : List α}

theorem nothing (S : α → Prop) : Takes S S [] := ⟨.nil, fun _ ha => ha, by simp⟩

theorem append (e₁ : Takes S S₁ xs) (e₂ : Takes S₁ S' ys) : Takes S S' (xs ++ ys) := by
  refine ⟨List.nodup_append.mpr ⟨e₁.nodup, e₂.nodup, fun a ha b hb hab => ?_⟩,
    fun a ha => e₁.back a (e₂.back a ha), fun a => ?_⟩
  · exact ((e₁.mem a).mp ha).2 ((e₂.mem a).mp (hab ▸ hb)).1
  · have hback := e₁.back a
    have hback' := e₂.back a
    rw [List.mem_append, e₁.mem, e₂.mem]
    tauto

/-- Just what has the name is taken, if there is one. -/
theorem of_name {name : Option α} (hwas : ∀ a, name = some a → S a)
    (hleft : ∀ a, S' a ↔ S a ∧ name ≠ some a) : Takes S S' name.toList := by
  refine ⟨?_, fun a ha => ((hleft a).mp ha).1, fun a => ?_⟩
  · cases name with
    | none => exact .nil
    | some a => exact List.nodup_singleton a
  · have hin := hwas a
    rw [Option.mem_toList, hleft]
    tauto

end Takes

/-- If each step takes out of a set just the cell that it names, the log names each cell once that the run
takes out of the set, and no other. -/
theorem Runs.taken {α : Type} {S : Heap → α → Prop} {f : Heap → Task → Option α} (e : Runs h tasks log h')
    (hstep : ∀ a ∈ log, ∀ rest g tasks, a.1.step a.2 rest = .ok (g, tasks) →
      (∀ q, f a.1 a.2 = some q → S a.1 q) ∧ ∀ q, S g q ↔ S a.1 q ∧ f a.1 a.2 ≠ some q) :
    Takes (S h) (S h') (log.filterMap fun a => f a.1 a.2) := by
  induction e with
  | done h => exact .nothing _
  | step e _ ih =>
    obtain ⟨hfirst, hrest⟩ := List.forall_mem_cons.mp hstep
    obtain ⟨hwas, hleft⟩ := hfirst _ _ _ e
    rw [List.filterMap_eq_flatMap_toList, List.flatMap_cons, ← List.filterMap_eq_flatMap_toList]
    exact (Takes.of_name hwas hleft).append (ih hrest)

/-- A run gives back the slot of every cell it frees once, and of no other. -/
theorem Runs.vacated (e : Runs h tasks log h') :
    (log.filterMap fun a => a.2.vacates? a.1).Nodup ∧
      ∀ q, q ∈ (log.filterMap fun a => a.2.vacates? a.1) ↔ h.contains q = true ∧ ¬ h'.contains q = true := by
  obtain ⟨hnodup, -, hmem⟩ := e.taken (S := fun h q => h.contains q = true)
    (f := fun h task => task.vacates? h) fun _ _ _ _ _ e => vacates_of_step e
  exact ⟨hnodup, hmem⟩

/-- A run finalizes every cell once that it frees or leaves finalized, and no other, if it disposes only
of cells that are finalized. -/
theorem Runs.finalized (e : Runs h tasks log h')
    (hspent : ∀ a ∈ log, ∀ i, a.2 = .dispose i → ∃ c, a.1.tenant? i = some c ∧ c.body.isZombie = true) :
    (log.filterMap fun a => a.2.finalizes? a.1).Nodup ∧
      ∀ q, q ∈ (log.filterMap fun a => a.2.finalizes? a.1) ↔ h.IsWhole q ∧ ¬ h'.IsWhole q := by
  obtain ⟨hnodup, -, hmem⟩ := e.taken (S := IsWhole) (f := fun h task => task.finalizes? h)
    fun a ha _ _ _ e => finalizes_of_step e (hspent a ha)
  exact ⟨hnodup, hmem⟩

end Heap

end ObjectMemory
