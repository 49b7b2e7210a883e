import ObjectMemory.Proofs.Draining
import ObjectMemory.Proofs.Reachability
set_option autoImplicit false

/-!
# Removing the garbage

Removal finalizes the garbage of the queued kinds, slot by slot.  What a finalized cell held is given
up at once, which frees cells of the other kinds as they lose their last reference; a finalized cell
that other garbage still refers to is parked.  `Heap.Removing` is the invariant of that.

When every cell of a queued kind has been finalized, nothing of the other kinds is left among the
garbage: each has a count, but those that could make it up are gone (`Heap.Removing.only_zombies`).  Then
the parked cells have no references left, and the sweep frees them.
-/

namespace ObjectMemory.Heap

variable {x : Ledger} {n : Nat} {h₀ h h₁ h' : Heap} {r s : Handle} {c c₀ d : Cell} {i j k : Nat}
  {garbage todo : List Nat} {rest tasks : List Task}

/-- The collector finalizes the cell in the slot itself. -/
def queuedAt (h : Heap) (i : Nat) : Bool := (h.tenant? i).elim false (·.kind.isQueued)

/-- The invariant of removal, with the slots of `todo` still to be seen to: `h₀` is the heap that removal
started from. -/
structure Removing (x : Ledger) (n : Nat) (h₀ : Heap) (garbage todo : List Nat) (h : Heap)
    (tasks : List Task) : Prop where
  decays : Decays h₀ h
  coherent : h.Coherent (x.plus (released tasks)) n
  phase : h.phase = .removingCycles
  waiting : h.zeroRefs.toList = []
  plain : ∀ i c, h.tenant? i = some c → c.kind.isQueued = false →
    c.refCount ≠ 0 ∧ c.body.isZombie = false
  places : ∀ i c, i ∉ garbage → h.tenant? i = some c → h₀.placeAt? i = some c.place
  zombies : ∀ i c, h.tenant? i = some c → c.body.isZombie = true →
    i ∈ garbage ∧ (c.place = .parked ∨ .dispose i ∈ tasks)
  fresh : ∀ i ∈ todo, h₀.queuedAt i = true → ∃ c, h.tenant? i = some c ∧ c.kind.isQueued = true ∧
    c.body.isZombie = false ∧ c.place = .candidate
  past : ∀ i c, i ∈ garbage → i ∉ todo → h.tenant? i = some c → c.kind.isQueued = true →
    c.body.isZombie = true
  spent : ∀ i, .dispose i ∈ tasks → ∃ c, h.tenant? i = some c ∧ c.body.isZombie = true
  orderly : ∃ (rs : List Handle) (last : List Task), tasks = rs.map .release ++ last ∧
    (last = [] ∨ ∃ i, last = [.dispose i])

namespace Removing

/-- A finalized cell is of a queued kind. -/
theorem queued_of_zombie (hr : Removing x n h₀ garbage todo h tasks) (hc : h.tenant? i = some c)
    (hz : c.body.isZombie = true) : c.kind.isQueued = true := by
  by_contra hk
  have := (hr.plain i c hc (by simpa using hk)).2
  rw [this] at hz
  cases hz

/-- A cell is of the kind it was of. -/
theorem before (hr : Removing x n h₀ garbage todo h tasks) (hc : h.tenant? i = some c) :
    ∃ c₀, h₀.tenant? i = some c₀ ∧ h₀.cell? (h.handle i) = some c₀ ∧ Fades c₀ c := by
  rw [← cell?_handle] at hc
  obtain ⟨c₀, hc₀, hf⟩ := hr.decays.cells _ c hc
  exact ⟨c₀, tenant?_of_cell? hc₀, hc₀, hf⟩

theorem queuedAt_eq (hr : Removing x n h₀ garbage todo h tasks) (hc : h.tenant? i = some c) :
    h₀.queuedAt i = c.kind.isQueued := by
  obtain ⟨c₀, hc₀, _, hf⟩ := hr.before hc
  unfold queuedAt
  rw [hc₀, Option.elim_some, Cell.kind, ← hf.kind]
  rfl

/-- A step that lowers counts, or frees cells of the other kinds. -/
theorem of_cells {tasks' : List Task} (hr : Removing x n h₀ garbage todo h tasks)
    (hsub : ∀ i d, h'.tenant? i = some d → ∃ c, h.tenant? i = some c ∧ d.body = c.body ∧
      d.place = c.place ∧ (d.kind.isQueued = false → d.refCount ≠ 0))
    (hkeep : ∀ i c, h.tenant? i = some c → c.kind.isQueued = true →
      ∃ d, h'.tenant? i = some d ∧ d.body = c.body ∧ d.place = c.place)
    (hdec : Decays h h') (hx : h'.Coherent (x.plus (released tasks')) n) (hp : h'.phase = h.phase)
    (hz : h'.zeroRefs = h.zeroRefs) (hdis : ∀ i, .dispose i ∈ tasks' ↔ .dispose i ∈ tasks)
    (hord : ∃ (rs : List Handle) (last : List Task), tasks' = rs.map .release ++ last ∧
      (last = [] ∨ ∃ i, last = [.dispose i])) :
    Removing x n h₀ garbage todo h' tasks' := by
  refine ⟨hr.decays.trans hdec, hx, hp.trans hr.phase, by rw [hz]; exact hr.waiting,
    fun i d hd hk => ?_, fun i d hi hd => ?_, fun i d hd hzom => ?_, fun i hi hq => ?_,
    fun i d hi ht hd hk => ?_, fun i hi => ?_, hord⟩
  · obtain ⟨c, hc, hbody, _, hne⟩ := hsub i d hd
    refine ⟨hne hk, ?_⟩
    rw [hbody]
    exact (hr.plain i c hc (by rw [Cell.kind, ← hbody]; exact hk)).2
  · obtain ⟨c, hc, _, hplace, _⟩ := hsub i d hd
    rw [hplace]
    exact hr.places i c hi hc
  · obtain ⟨c, hc, hbody, hplace, _⟩ := hsub i d hd
    rw [hplace, hdis]
    exact hr.zombies i c hc (hbody ▸ hzom)
  · obtain ⟨c, hc, hk, hb, hpl⟩ := hr.fresh i hi hq
    obtain ⟨d, hd, hbody, hplace⟩ := hkeep i c hc hk
    exact ⟨d, hd, by rw [Cell.kind, hbody]; exact hk, by rw [hbody]; exact hb, by rw [hplace]; exact hpl⟩
  · obtain ⟨c, hc, hbody, _, _⟩ := hsub i d hd
    rw [hbody]
    exact hr.past i c hi ht hc (by rw [Cell.kind, ← hbody]; exact hk)
  · obtain ⟨c, hc, hb⟩ := hr.spent i ((hdis i).mp hi)
    obtain ⟨d, hd, hbody, _⟩ := hkeep i c hc (hr.queued_of_zombie hc hb)
    exact ⟨d, hd, by rw [hbody]; exact hb⟩

/-- A reference that was given up is not the last task. -/
theorem orderly_releases (ho : ∃ (rs : List Handle) (last : List Task),
      .release r :: rest = rs.map Task.release ++ last ∧ (last = [] ∨ ∃ i, last = [.dispose i]))
    (ss : List Handle) : ∃ (rs : List Handle) (last : List Task),
      ss.map Task.release ++ rest = rs.map .release ++ last ∧ (last = [] ∨ ∃ i, last = [.dispose i]) := by
  obtain ⟨rs, last, he, hlast⟩ := ho
  cases rs with
  | nil =>
    rcases hlast with rfl | ⟨i, rfl⟩ <;> simp at he
  | cons t rs =>
    simp only [List.map_cons, List.cons_append, List.cons.injEq] at he
    exact ⟨ss ++ rs, last, by rw [he.2, List.map_append, List.append_assoc], hlast⟩

theorem mem_dispose_releases (ss : List Handle) :
    .dispose i ∈ ss.map Task.release ++ rest ↔ .dispose i ∈ Task.release r :: rest := by
  simp

/-- A step that lowers the count of one cell. -/
theorem of_count (hr : Removing x n h₀ garbage todo h (.release r :: rest)) (hc : h.cell? r = some c)
    (hle : k ≤ c.refCount) (hk : c.kind.isQueued = false → k ≠ 0)
    (hx : (h.setRefCount r.index k).Coherent (x.plus (released rest)) n) :
    Removing x n h₀ garbage todo (h.setRefCount r.index k) rest := by
  have hu := Updates.setRefCount hc k
  have ht := tenant?_of_cell? hc
  refine hr.of_cells (fun i d hd => ?_) (fun i d hd _ => ?_)
    (.of_updates hu hc ⟨hle, rfl, rfl, rfl, .inl rfl⟩ (.setRefCount h _ _)) hx rfl rfl
    (fun i => mem_dispose_releases []) (orderly_releases hr.orderly [])
  · rw [hu.tenant] at hd
    split at hd
    · rename_i hi
      cases hd
      exact ⟨c, hi ▸ ht, rfl, rfl, hk⟩
    · exact ⟨d, hd, rfl, rfl, fun hq => (hr.plain i d hd hq).1⟩
  · rw [hu.tenant]
    split
    · rename_i hi
      subst hi
      rw [ht] at hd
      cases hd
      exact ⟨_, rfl, rfl, rfl⟩
    · exact ⟨d, hd, rfl, rfl⟩

theorem step_release (hr : Removing x n h₀ garbage todo h (.release r :: rest)) :
    ∃ h' tasks, h.stepRelease r rest = .ok (h', tasks) ∧ Removing x n h₀ garbage todo h' tasks := by
  have hx : h.Coherent ((x.plus (released rest)).plus [r]) n := by
    have hcons : x.plus (released (.release r :: rest)) = (x.plus (released rest)).plus [r] := by
      change x.plus (r :: released rest) = _
      rw [Ledger.plus_cons, Ledger.plus_comm]
    exact hcons ▸ hr.coherent
  obtain ⟨c, hc, hpos, hcases⟩ := hx.stepRelease rest fun c hc hkind =>
    (hr.plain r.index c (tenant?_of_cell? hc) hkind).2
  have ht := tenant?_of_cell? hc
  rcases hcases with ⟨hone, hx', hok⟩ | ⟨hone, hkind, hx', hok⟩ |
    ⟨hone, hkind, h', hx', hu, hcalm, hphase, hz, hok⟩
  · exact ⟨_, _, hok, hr.of_count hc (Nat.sub_le _ _) (fun _ => by omega) hx'⟩
  · -- during removal nothing is queued
    have hdrop : (h.setRefCount r.index 0).dropQueued r.index c.place rest =
        (h.setRefCount r.index 0, rest) := by
      unfold dropQueued
      have hphase : (h.setRefCount r.index 0).phase = .removingCycles := hr.phase
      rw [hphase]
    rw [hdrop] at hok
    exact ⟨_, _, hok, hr.of_count hc (Nat.zero_le _) (fun hq => by rw [hkind] at hq; cases hq) hx'⟩
  · refine ⟨_, _, hok, hr.of_cells (fun i d hd => ?_) (fun i d hd hq => ?_) (.of_vacated hu hcalm) ?_
      hphase hz (fun i => mem_dispose_releases _) (orderly_releases hr.orderly _)⟩
    · rw [hu.tenant] at hd
      split at hd
      · cases hd
      · exact ⟨d, hd, rfl, rfl, fun hq => (hr.plain i d hd hq).1⟩
    · rw [hu.tenant]
      split
      · rename_i hi
        subst hi
        rw [ht] at hd
        cases hd
        rw [hkind] at hq
        cases hq
      · exact ⟨d, hd, rfl, rfl⟩
    · rw [released_releases, Ledger.plus_append, Ledger.plus_comm]
      exact hx'

/-- The last step of a finalized cell: it is parked or gone. -/
theorem of_dispose {new : Option Cell} (hr : Removing x n h₀ garbage todo h [.dispose k])
    (hc : h.tenant? k = some c) (hzom : c.body.isZombie = true) (hu : Updates (h.handle k) new h h')
    (hnew : ∀ d, new = some d → d = { c with place := .parked }) (hdec : Decays h h')
    (hx : h'.Coherent x n) (hp : h'.phase = h.phase) (hz : h'.zeroRefs = h.zeroRefs) :
    Removing x n h₀ garbage todo h' [] := by
  have hkind := hr.queued_of_zombie hc hzom
  have htenant : ∀ i d, h'.tenant? i = some d →
      (i = k ∧ d = { c with place := .parked }) ∨ (i ≠ k ∧ h.tenant? i = some d) :=
    fun _ d hd => (hu.tenant_cases hd).imp_left (And.imp_right (hnew d))
  refine ⟨hr.decays.trans hdec, by simpa [released] using hx, hp.trans hr.phase,
    by rw [hz]; exact hr.waiting, fun i d hd hq => ?_, fun i d hi hd => ?_, fun i d hd hzd => ?_,
    fun i hi hq => ?_, fun i d hi ht hd hq => ?_, fun i hi => ?_, ⟨[], [], rfl, .inl rfl⟩⟩
  · rcases htenant i d hd with ⟨rfl, rfl⟩ | ⟨_, hd⟩
    · exact absurd hq (by simpa [Cell.kind] using hkind)
    · exact hr.plain i d hd hq
  · rcases htenant i d hd with ⟨rfl, rfl⟩ | ⟨_, hd⟩
    · exact absurd (hr.zombies i c hc hzom).1 hi
    · exact hr.places i d hi hd
  · rcases htenant i d hd with ⟨rfl, rfl⟩ | ⟨hi, hd⟩
    · exact ⟨(hr.zombies i c hc hzom).1, .inl rfl⟩
    · obtain ⟨hg, hpark⟩ := hr.zombies i d hd hzd
      refine ⟨hg, .inl (hpark.resolve_right fun hmem => ?_)⟩
      simp only [List.mem_cons, Task.dispose.injEq, List.not_mem_nil, or_false] at hmem
      exact hi hmem
  · obtain ⟨d, hd, hq, hb, hplace⟩ := hr.fresh i hi hq
    refine ⟨d, ?_, hq, hb, hplace⟩
    have hik : i ≠ k := by
      rintro rfl
      rw [hc] at hd
      cases hd
      rw [hzom] at hb
      cases hb
    rw [hu.tenant_other hik, hd]
  · rcases htenant i d hd with ⟨rfl, rfl⟩ | ⟨_, hd⟩
    · exact hzom
    · exact hr.past i d hi ht hd hq
  · cases hi

theorem refs_of_zombie {b : Body} (hz : b.isZombie = true) : b.refs = [] := by
  cases b with
  | zombie k => rfl
  | _ => cases hz

/-- A finalized cell is parked, or goes if nothing refers to it any more. -/
theorem step_dispose (hr : Removing x n h₀ garbage todo h (.dispose k :: rest)) :
    ∃ h' tasks, h.stepDispose k rest = .ok (h', tasks) ∧ Removing x n h₀ garbage todo h' tasks := by
  have hrest : rest = [] := by
    obtain ⟨rs, last, he, hlast⟩ := hr.orderly
    cases rs with
    | nil => rcases hlast with rfl | ⟨i, rfl⟩ <;> simp_all
    | cons t rs => simp at he
  subst hrest
  obtain ⟨c, hc, hzom⟩ := hr.spent k List.mem_cons_self
  have hcell : h.cell? (h.handle k) = some c := by rw [cell?_handle, hc]
  have hx : h.Coherent x n := by
    have hnil : released [.dispose k] = [] := rfl
    have hx := hr.coherent
    rwa [hnil, Ledger.plus_nil] at hx
  unfold stepDispose
  rw [cellAt_eq_ok_iff.mpr hc]
  dsimp only
  by_cases hzero : c.refCount = 0
  · obtain ⟨hframe, hhash, _⟩ := Coherent.plain_of_queued (hr.queued_of_zombie hc hzom)
    obtain ⟨h', hok, hx'⟩ := hx.free hcell hzero hframe hhash
    have hok : h.free k = .ok h' := hok
    rw [refs_of_zombie hzom, Ledger.plus_nil] at hx'
    have hu := Updates.free hcell hok
    obtain ⟨hcalm, hphase, hz⟩ := Calm.free (r := h.handle k) hok
    rw [if_neg fun hpark => hpark.2 hzero, hok]
    exact ⟨h', [], rfl, hr.of_dispose hc hzom hu (fun d hd => by cases hd) (.of_vacated hu hcalm) hx'
      hphase hz⟩
  · have hu : Updates (h.handle k) (some { c with place := .parked }) h (h.setPlace k c.place .parked) :=
      .setPlace hcell c.place .parked
    have hdec : Decays h (h.setPlace k c.place .parked) :=
      .of_updates hu hcell ⟨Nat.le_refl _, rfl, rfl, rfl, .inl rfl⟩
        (.setPlace h _ _ _)
    have hx' : (h.setPlace k c.place .parked).Coherent x n :=
      hx.recount hu ⟨rfl, rfl, rfl⟩ hcell rfl rfl rfl (fun _ _ => rfl) rfl rfl
    rw [if_pos ⟨hr.phase, hzero⟩]
    exact ⟨_, [], rfl, hr.of_dispose hc hzom hu (fun d hd => (Option.some.inj hd).symm) hdec hx' rfl rfl⟩

/-- No step of a removal faults, and each keeps the invariant. -/
theorem step {task : Task} (hr : Removing x n h₀ garbage todo h (task :: rest)) :
    ∃ h' tasks, h.step task rest = .ok (h', tasks) ∧ Removing x n h₀ garbage todo h' tasks := by
  cases task with
  | release r => exact hr.step_release
  | dispose i => exact hr.step_dispose
  | _ =>
    obtain ⟨rs, last, he, hlast⟩ := hr.orderly
    cases rs with
    | nil => rcases hlast with rfl | ⟨i, rfl⟩ <;> simp at he
    | cons t rs => simp at he

/-- A garbage cell of a queued kind is finalized: what it held is given up, and then the cell. -/
theorem finalize (hr : Removing x n h₀ garbage (k :: todo) h []) (hc : h.tenant? k = some c)
    (hkind : c.kind.isQueued = true) (hbody : c.body.isZombie = false) (hk : k ∈ garbage)
    (hnew : k ∉ todo) :
    ∃ h', h.run [.finalize k] = .ok h' ∧ Removing x n h₀ garbage todo h' [] := by
  have hcell : h.cell? (h.handle k) = some c := by rw [cell?_handle, hc]
  have hx : h.Coherent x n := by simpa [released] using hr.coherent
  obtain ⟨hu, hx₁⟩ := hx.finalize hcell hkind
  have hstep : h.step (.finalize k) [] = .ok (h.modifyBody k fun _ => .zombie c.kind,
    c.body.refs.map .release ++ [.dispose k]) := stepFinalize_eq hc hkind hbody []
  have hdec : Decays h (h.modifyBody k fun _ => .zombie c.kind) :=
    .of_updates hu hcell ⟨Nat.le_refl _, rfl, rfl, rfl, .inr rfl⟩
      (.modifyCell _ _ _)
  have hu : Updates (h.handle k) (some { c with body := .zombie c.kind }) h
    (h.modifyBody k fun _ => .zombie c.kind) := hu
  have hx₁ : (h.modifyBody k fun _ => .zombie c.kind).Coherent (x.plus c.body.refs) n := hx₁
  have hphase : (h.modifyBody k fun _ => .zombie c.kind).phase = .removingCycles := hr.phase
  have hwait : (h.modifyBody k fun _ => .zombie c.kind).zeroRefs.toList = [] := hr.waiting
  rw [run_cons hstep]
  generalize (h.modifyBody k fun _ => .zombie c.kind) = h₁ at hu hx₁ hdec hphase hwait ⊢
  have htenant : ∀ i d, h₁.tenant? i = some d →
      (i = k ∧ d = { c with body := .zombie c.kind }) ∨ (i ≠ k ∧ h.tenant? i = some d) :=
    fun _ _ hd => (hu.tenant_cases hd).imp_left (And.imp_right fun he => (Option.some.inj he).symm)
  refine run_of_invariant (P := Removing x n h₀ garbage todo) (fun _ _ _ hr => hr.step)
    ⟨hr.decays.trans hdec, ?_, hphase, hwait, fun i d hd hq => ?_, fun i d hi hd => ?_,
      fun i d hd hzd => ?_, fun i hi hq => ?_, fun i d hi ht hd hq => ?_, fun i hi => ?_,
      ⟨c.body.refs, [.dispose k], rfl, .inr ⟨k, rfl⟩⟩⟩
  · have hnil : released [.dispose k] = [] := rfl
    rw [released_releases, hnil, List.append_nil]
    exact hx₁
  · rcases htenant i d hd with ⟨rfl, rfl⟩ | ⟨_, hd⟩
    · exact absurd hq (by simpa [Cell.kind, Body.kind] using hkind)
    · exact hr.plain i d hd hq
  · rcases htenant i d hd with ⟨rfl, rfl⟩ | ⟨_, hd⟩
    · exact absurd hk hi
    · exact hr.places i d hi hd
  · rcases htenant i d hd with ⟨rfl, rfl⟩ | ⟨_, hd⟩
    · exact ⟨hk, .inr (by simp)⟩
    · obtain ⟨hg, hpark⟩ := hr.zombies i d hd hzd
      exact ⟨hg, .inl (hpark.resolve_right (by simp))⟩
  · obtain ⟨d, hd, hq, hb, hplace⟩ := hr.fresh i (List.mem_cons_of_mem _ hi) hq
    refine ⟨d, ?_, hq, hb, hplace⟩
    have hik : i ≠ k := fun he => hnew (he ▸ hi)
    rw [hu.tenant_other hik, hd]
  · rcases htenant i d hd with ⟨rfl, rfl⟩ | ⟨hik, hd⟩
    · rfl
    · exact hr.past i d hi (by simp [hik, ht]) hd hq
  · have hik : i = k := by simpa using hi
    subst hik
    exact ⟨_, hu.tenant_self, rfl⟩

/-- A finalized cell is counted. -/
theorem count (hr : Removing x n h₀ garbage todo h tasks) :
    Removing x n { h₀ with collected := h₀.collected + 1 } garbage todo
      { h with collected := h.collected + 1 } tasks := by
  have hd := hr.decays
  exact ⟨⟨⟨hd.calm.config, hd.calm.threshold, hd.calm.collections, congrArg (· + 1) hd.calm.collected,
    hd.calm.dropped, hd.calm.frames, hd.calm.locals⟩, hd.cells⟩,
    hr.coherent.of_same (.of_slots rfl) rfl rfl rfl rfl rfl, hr.phase, hr.waiting, hr.plain, hr.places,
    hr.zombies, hr.fresh, hr.past, hr.spent, hr.orderly⟩

/-- A cell of another kind is parked, and keeps what it has but for its place. -/
theorem park (hr : Removing x n h₀ garbage todo h []) (hc : h.tenant? k = some c) (hk : k ∈ garbage)
    (hkind : c.kind.isQueued = false) :
    Removing x n h₀ garbage todo (h.setPlace k c.place .parked) [] := by
  have hcell : h.cell? (h.handle k) = some c := by rw [cell?_handle, hc]
  have hbody := hr.plain k c hc hkind
  have hu : Updates (h.handle k) (some { c with place := .parked }) h (h.setPlace k c.place .parked) :=
    .setPlace hcell c.place .parked
  have hdec : Decays h (h.setPlace k c.place .parked) :=
    .of_updates hu hcell ⟨Nat.le_refl _, rfl, rfl, rfl, .inl rfl⟩
      (.setPlace h _ _ _)
  have hx := hr.coherent.recount hu ⟨rfl, rfl, rfl⟩ hcell rfl rfl rfl (fun _ _ => rfl) rfl rfl
  have htenant : ∀ i d, (h.setPlace k c.place .parked).tenant? i = some d →
      (i = k ∧ d = { c with place := .parked }) ∨ (i ≠ k ∧ h.tenant? i = some d) :=
    fun _ _ hd => (hu.tenant_cases hd).imp_left (And.imp_right fun he => (Option.some.inj he).symm)
  refine ⟨hr.decays.trans hdec, hx, hr.phase, hr.waiting, fun i d hd hq => ?_, fun i d hi hd => ?_,
    fun i d hd hzd => ?_, fun i hi hq => ?_, fun i d hi ht hd hq => ?_, fun i hi => ?_, hr.orderly⟩
  · rcases htenant i d hd with ⟨rfl, rfl⟩ | ⟨_, hd⟩
    · exact hbody
    · exact hr.plain i d hd hq
  · rcases htenant i d hd with ⟨rfl, rfl⟩ | ⟨_, hd⟩
    · exact absurd hk hi
    · exact hr.places i d hi hd
  · rcases htenant i d hd with ⟨rfl, rfl⟩ | ⟨_, hd⟩
    · exact ⟨hk, .inl rfl⟩
    · exact hr.zombies i d hd hzd
  · obtain ⟨d, hd, hqd, hb, hplace⟩ := hr.fresh i hi hq
    refine ⟨d, ?_, hqd, hb, hplace⟩
    have hik : i ≠ k := by
      rintro rfl
      rw [hc] at hd
      cases hd
      rw [hkind] at hqd
      cases hqd
    rw [hu.tenant_other hik, hd]
  · rcases htenant i d hd with ⟨rfl, rfl⟩ | ⟨_, hd⟩
    · exact absurd hq (by simpa [Cell.kind] using hkind)
    · exact hr.past i d hi ht hd hq
  · cases hi

/-- One cell of the garbage can be seen to. -/
theorem cell (hr : Removing x n h₀ garbage (k :: todo) h []) (hk : k ∈ garbage) (hnew : k ∉ todo) :
    ∃ h', h.removeCell k = .ok h' ∧ Removing x n
      { h₀ with collected := h₀.collected + (h₀.queuedAt k).toNat } garbage todo h' [] := by
  unfold removeCell
  cases hq : h₀.queuedAt k with
  | true =>
    obtain ⟨c, hc, hkind, hbody, hplace⟩ := hr.fresh k List.mem_cons_self hq
    obtain ⟨h₁, hrun, hr₁⟩ := hr.finalize hc hkind hbody hk hnew
    rw [placeAt?_of_tenant hc, hplace]
    dsimp only
    rw [cellAt_eq_ok_iff.mpr hc]
    dsimp only
    rw [if_pos hkind, hrun]
    exact ⟨_, rfl, hr₁.count⟩
  | false =>
    have hdrop : Removing x n h₀ garbage todo h [] := by
      refine ⟨hr.decays, hr.coherent, hr.phase, hr.waiting, hr.plain, hr.places, hr.zombies,
        fun i hi hqi => hr.fresh i (List.mem_cons_of_mem _ hi) hqi, fun i c hi ht hc hkind => ?_,
        hr.spent, hr.orderly⟩
      by_cases hik : i = k
      · subst hik
        rw [hr.queuedAt_eq hc, hkind] at hq
        cases hq
      · exact hr.past i c hi (by simp [hik, ht]) hc hkind
    cases hp : h.placeAt? k with
    | none => exact ⟨h, rfl, hdrop⟩
    | some p =>
      cases p with
      | candidate =>
        rw [placeAt?_eq] at hp
        obtain ⟨c, hc, _⟩ := Option.map_eq_some_iff.mp hp
        have hkind : c.kind.isQueued = false := (hr.queuedAt_eq hc).symm.trans hq
        dsimp only
        rw [cellAt_eq_ok_iff.mpr hc]
        dsimp only
        rw [if_neg (by simp [hkind])]
        exact ⟨_, rfl, hdrop.park hc hk hkind⟩
      | _ => exact ⟨h, rfl, hdrop⟩

/-- All garbage can be seen to. -/
theorem cells (hr : Removing x n h₀ garbage todo h []) (hnd : todo.Nodup)
    (hsub : ∀ i ∈ todo, i ∈ garbage) :
    ∃ h', todo.foldlM removeCell h = .ok h' ∧ Removing x n
      { h₀ with collected := h₀.collected + (todo.map fun i => (h₀.queuedAt i).toNat).sum }
      garbage [] h' [] := by
  induction todo generalizing h h₀ with
  | nil => exact ⟨h, rfl, hr⟩
  | cons k rest ih =>
    obtain ⟨hnew, hnd⟩ := List.nodup_cons.mp hnd
    obtain ⟨h₁, hok, hr₁⟩ := hr.cell (hsub k List.mem_cons_self) hnew
    obtain ⟨h', hrest, hr'⟩ := ih hr₁ hnd fun i hi => hsub i (List.mem_cons_of_mem _ hi)
    refine ⟨h', by rw [List.foldlM_cons, hok]; exact hrest, ?_⟩
    rw [List.map_cons, List.sum_cons, ← Nat.add_assoc]
    exact hr'

end Removing

end ObjectMemory.Heap
