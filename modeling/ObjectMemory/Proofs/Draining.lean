import ObjectMemory.Proofs.Freeing
set_option autoImplicit false

/-!
# Runs of an idle heap

Giving up references to an idle heap finalizes the cells that lose their last one, in turn, and ends
with an idle heap.  On the way every cell without references waits for exactly one step: in the queue,
for its finalization, or, finalized, for its slot to be given back.

Which cells are freed does not depend on the order.  A set of cells that hold each other up, or are held
by what is not given up (`Heap.Supported`), is never touched.
-/

namespace ObjectMemory

namespace Task

/-- The reference a task gives up. -/
def released? : Task → Option Handle
  | release r => some r
  | _ => none

/-- The cell a task finalizes. -/
def finalized? : Task → Option Nat
  | finalize i => some i
  | _ => none

/-- The cell a task disposes of. -/
def disposed? : Task → Option Nat
  | dispose i => some i
  | _ => none

end Task

/-- The references that tasks give up. -/
def released (tasks : List Task) : List Handle := tasks.filterMap Task.released?

@[simp] theorem released_releases (rs : List Handle) (tasks : List Task) :
    released (rs.map .release ++ tasks) = rs ++ released tasks := by
  induction rs with
  | nil => rfl
  | cons r rest ih => simpa [released, Task.released?] using ih

namespace Heap

variable {x y : Ledger} {n m : Nat} {h₀ h h₁ h' : Heap} {r s : Handle} {c c' : Cell} {i j : Nat}
  {rest tasks : List Task}

/-- The cells that wait for a step. -/
def waiting (h : Heap) (tasks : List Task) : List Nat :=
  h.zeroRefs.toList ++ (tasks.filterMap Task.finalized? ++ tasks.filterMap Task.disposed?)

theorem waiting_releases (h : Heap) (rs : List Handle) (tasks : List Task) :
    h.waiting (rs.map .release ++ tasks) = h.waiting tasks := by
  induction rs with
  | nil => rfl
  | cons r rest ih => exact ih

/-- In an idle heap only references are to be given up; in a draining one, the queue is turned to once,
and only references are to be given up after that. -/
def Orderly (h : Heap) (tasks : List Task) : Prop :=
  (h.phase = .idle ∧ h.zeroRefs.toList = [] ∧ ∃ rs : List Handle, tasks = rs.map .release) ∨
    (h.phase = .draining ∧ ∃ (front : List Task) (rs : List Handle),
      tasks = front ++ .drain :: rs.map .release ∧ .drain ∉ front)

/-- Every member of the set is there, and is held from outside or by a member. -/
def Supported (h : Heap) (x : Ledger) (A : Handle → Prop) : Prop :=
  ∀ r, A r → ∃ b, h.body? r = some b ∧
    (0 < h.outside x r ∨ ∃ q b', A q ∧ h.body? q = some b' ∧ r ∈ b'.refs)

theorem heldByCells_pos {b : Body} (hb : h.body? s = some b) (hr : r ∈ b.refs) : 0 < h.heldByCells r := by
  obtain ⟨c, hc, rfl⟩ := body?_eq_some_iff.mp hb
  exact held_pos_of_mem_refs (tenant?_of_cell? hc) hr

/-- A cell all of whose references are to be given up is in no set that holds up without them. -/
theorem Counted.not_supported {A : Handle → Prop} {rs : List Handle} (hx : h.Counted (x.plus rs))
    (hA : h.Supported x A) (hc : h.cell? r = some c) (hle : c.refCount ≤ rs.count r) : ¬ A r := by
  intro hr
  have hcount := hx.refCount_eq hc
  unfold outside at hcount
  rw [Ledger.plus_apply] at hcount
  obtain ⟨_, _, hout | ⟨q, b, _, hb, hmem⟩⟩ := hA r hr
  · unfold outside at hout
    omega
  · have := heldByCells_pos hb hmem
    omega

/-- The invariant of a run that started at `h₀`. -/
structure Draining (x : Ledger) (n : Nat) (h₀ h : Heap) (tasks : List Task) : Prop where
  decays : Decays h₀ h
  coherent : h.Coherent (x.plus (released tasks)) n
  orderly : h.Orderly tasks
  nodup : (h.waiting tasks).Nodup
  settled : ∀ i c, h.tenant? i = some c → i ∉ h.waiting tasks → c.Settled
  fresh : ∀ i, i ∈ h.zeroRefs.toList ∨ .finalize i ∈ tasks →
    ∃ c, h.tenant? i = some c ∧ c.refCount = 0 ∧ c.kind.isQueued = true ∧ c.body.isZombie = false
  spent : ∀ i, .dispose i ∈ tasks →
    ∃ c, h.tenant? i = some c ∧ c.refCount = 0 ∧ c.body.isZombie = true
  kept : ∀ A, h₀.Supported x A → ∀ r, A r → h.body? r = h₀.body? r

theorem mem_finalized : i ∈ tasks.filterMap Task.finalized? ↔ .finalize i ∈ tasks := by
  rw [List.mem_filterMap]
  constructor
  · rintro ⟨t, ht, he⟩
    cases t <;> simp only [Task.finalized?, Option.some.injEq, reduceCtorEq] at he
    exact he ▸ ht
  · exact fun ht => ⟨_, ht, rfl⟩

theorem mem_disposed : i ∈ tasks.filterMap Task.disposed? ↔ .dispose i ∈ tasks := by
  rw [List.mem_filterMap]
  constructor
  · rintro ⟨t, ht, he⟩
    cases t <;> simp only [Task.disposed?, Option.some.injEq, reduceCtorEq] at he
    exact he ▸ ht
  · exact fun ht => ⟨_, ht, rfl⟩

theorem mem_waiting : i ∈ h.waiting tasks ↔
    (i ∈ h.zeroRefs.toList ∨ .finalize i ∈ tasks) ∨ .dispose i ∈ tasks := by
  unfold waiting
  rw [List.mem_append, List.mem_append, mem_finalized, mem_disposed, or_assoc]

namespace Draining

/-- A cell that waits has no references. -/
theorem zero_of_waiting (hd : Draining x n h₀ h tasks) (hi : i ∈ h.waiting tasks) :
    ∃ c, h.tenant? i = some c ∧ c.refCount = 0 := by
  rcases mem_waiting.mp hi with hi | hi
  · obtain ⟨c, hc, hz, _⟩ := hd.fresh i hi
    exact ⟨c, hc, hz⟩
  · obtain ⟨c, hc, hz, _⟩ := hd.spent i hi
    exact ⟨c, hc, hz⟩

theorem not_waiting (hd : Draining x n h₀ h tasks) (hc : h.tenant? i = some c)
    (hne : c.refCount ≠ 0) : i ∉ h.waiting tasks := by
  intro hi
  obtain ⟨d, hd, hz⟩ := hd.zero_of_waiting hi
  rw [hc] at hd
  cases hd
  exact hne hz

/-- What held up when the run started still does. -/
theorem supported {A : Handle → Prop} (hd : Draining x n h₀ h tasks) (hA : h₀.Supported x A) :
    h.Supported x A := by
  intro r hr
  obtain ⟨b, hb, hheld⟩ := hA r hr
  refine ⟨b, (hd.kept A hA r hr).trans hb, ?_⟩
  rw [hd.decays.calm.outside]
  refine hheld.imp_right fun ⟨q, b', hq, hb', hmem⟩ => ?_
  exact ⟨q, b', hq, (hd.kept A hA q hq).trans hb', hmem⟩

/-- A change of one cell, all of whose references are to be given up or whose body stays. -/
theorem kept_of_updates {new : Option Cell} (hd : Draining x n h₀ h tasks) (hc : h.cell? r = some c)
    (hu : Updates r new h h')
    (hbody : c.refCount ≤ (released tasks).count r ∨ ∃ c', new = some c' ∧ c'.body = c.body) :
    ∀ A, h₀.Supported x A → ∀ q, A q → h'.body? q = h₀.body? q := by
  intro A hA q hq
  rw [← hd.kept A hA q hq]
  by_cases hqr : q = r
  · rcases hbody with hle | ⟨c', rfl, hsame⟩
    · exact absurd (hqr ▸ hq) (hd.coherent.counted.not_supported (hd.supported hA) hc hle)
    · rw [hqr, hu.body_self, hsame, body?_eq_some_iff.mpr ⟨c, hc, rfl⟩]
  · exact hu.body_other hqr

theorem start {rs : List Handle} (hs : h.Sound (x.plus rs) n) :
    Draining x n h h (rs.map .release) := by
  have hw : h.waiting (rs.map .release) = [] := by
    have := waiting_releases h rs []
    rw [List.append_nil] at this
    rw [this]
    simp [waiting, hs.noneWaiting]
  have hrel : released (rs.map .release) = rs := by
    have := released_releases rs []
    simpa [released] using this
  refine ⟨.refl h, hrel.symm ▸ hs.coherent, .inl ⟨hs.idle, hs.noneWaiting, rs, rfl⟩, hw ▸ .nil,
    fun i c hc _ => hs.settled i c hc, fun i hi => ?_, fun i hi => ?_, fun _ _ _ _ => rfl⟩
  · have : i ∈ h.waiting (rs.map .release) := mem_waiting.mpr (.inl hi)
    simp [hw] at this
  · have : i ∈ h.waiting (rs.map .release) := mem_waiting.mpr (.inr hi)
    simp [hw] at this

/-- A run that is over leaves the heap idle. -/
theorem finish (hd : Draining x n h₀ h []) : h.Sound x n ∧ Decays h₀ h := by
  have hidle : h.phase = .idle ∧ h.zeroRefs.toList = [] := by
    rcases hd.orderly with ⟨hp, hz, _⟩ | ⟨_, front, rs, ht, _⟩
    · exact ⟨hp, hz⟩
    · simp at ht
  have hx := hd.coherent
  simp only [released, List.filterMap_nil, Ledger.plus_nil] at hx
  refine ⟨⟨hx, hidle.1, hidle.2, fun i c hc => hd.settled i c hc ?_⟩, hd.decays⟩
  simp [waiting, hidle.2]

/-! ## One step -/

/-- A reference may be given up in front of any tasks, and references may be put in front. -/
theorem orderly_releases (ho : h.Orderly (.release r :: rest)) (hp : h'.phase = h.phase)
    (hz : h'.zeroRefs = h.zeroRefs) (rs : List Handle) :
    h'.Orderly (rs.map .release ++ rest) := by
  rcases ho with ⟨hidle, hempty, ss, ht⟩ | ⟨hdrain, front, ss, ht, hfront⟩
  · refine .inl ⟨hp.trans hidle, by rw [hz, hempty], ?_⟩
    cases ss with
    | nil => simp at ht
    | cons s ss =>
      simp only [List.map_cons, List.cons.injEq] at ht
      exact ⟨rs ++ ss, by rw [ht.2, List.map_append]⟩
  · refine .inr ⟨hp.trans hdrain, ?_⟩
    cases front with
    | nil => simp at ht
    | cons t front =>
      simp only [List.cons_append, List.cons.injEq] at ht
      refine ⟨rs.map .release ++ front, ss, by rw [ht.2, List.append_assoc], ?_⟩
      simp only [List.mem_append, List.mem_map, reduceCtorEq, and_false, exists_false, false_or]
      exact fun hmem => hfront (List.mem_cons_of_mem _ hmem)

/-- A step that changes or frees one cell that does not wait. -/
theorem of_release {new : Option Cell} (hd : Draining x n h₀ h (.release r :: rest))
    (hc : h.cell? r = some c) (hnot : r.index ∉ h.waiting rest) (hu : Updates r new h h')
    (hbody : c.refCount = 1 ∨ ∃ c', new = some c' ∧ c'.body = c.body)
    (hnew : ∀ c, new = some c → c.Settled) (hdec : Decays h h') (rs : List Handle)
    (hx : h'.Coherent (x.plus (rs ++ released rest)) n) (hp : h'.phase = h.phase)
    (hz : h'.zeroRefs = h.zeroRefs) : Draining x n h₀ h' (rs.map .release ++ rest) := by
  have hw : h'.waiting (rs.map .release ++ rest) = h.waiting (.release r :: rest) := by
    rw [waiting_releases]
    unfold waiting
    rw [hz]
    rfl
  have hnot' : r.index ∉ h.waiting (.release r :: rest) := hnot
  have hother : ∀ i, i ∈ h.waiting (.release r :: rest) → h'.tenant? i = h.tenant? i := by
    intro i hi
    rw [hu.tenant, if_neg]
    rintro rfl
    exact hnot' hi
  have hmem : ∀ t, t ∈ rs.map Task.release ++ rest → (∀ s, t ≠ .release s) →
      t ∈ Task.release r :: rest := by
    intro t ht hne
    rcases List.mem_append.mp ht with ht | ht
    · obtain ⟨s, _, rfl⟩ := List.mem_map.mp ht
      exact absurd rfl (hne s)
    · exact List.mem_cons_of_mem _ ht
  refine ⟨hd.decays.trans hdec, by rw [released_releases]; exact hx,
    orderly_releases hd.orderly hp hz rs, hw ▸ hd.nodup, fun i c hc hi => ?_, fun i hi => ?_,
    fun i hi => ?_, hd.kept_of_updates hc hu (hbody.imp_left fun hone => ?_)⟩
  · rw [hw] at hi
    rw [hu.tenant] at hc
    split at hc
    · exact hnew c hc
    · exact hd.settled i c hc hi
  · have hi : i ∈ h.zeroRefs.toList ∨ .finalize i ∈ Task.release r :: rest := by
      rw [hz] at hi
      exact hi.imp_right fun hf => hmem _ hf nofun
    rw [hother i (mem_waiting.mpr (.inl hi))]
    exact hd.fresh i hi
  · have hi := hmem _ hi nofun
    rw [hother i (mem_waiting.mpr (.inr hi))]
    exact hd.spent i hi
  · have hhead : released (.release r :: rest) = r :: released rest := rfl
    rw [hone, hhead, List.count_cons_self]
    omega

/-- The last reference to a cell of a queued kind puts the cell into the queue, whatever the phase. -/
theorem of_last (hd : Draining x n h₀ h (.release r :: rest)) (hc : h.cell? r = some c)
    (hnot : r.index ∉ h.waiting rest) (hkind : c.kind.isQueued = true)
    (hu : Updates r (some { c with refCount := 0, place := .queued }) h h') (hcalm : Calm h h')
    (hz : h'.zeroRefs = h.zeroRefs.push r.index) (hx : h'.Coherent (x.plus (released rest)) n)
    (hord : h'.Orderly tasks) (hrel : released tasks = released rest)
    (hfin : tasks.filterMap Task.finalized? = rest.filterMap Task.finalized?)
    (hdis : tasks.filterMap Task.disposed? = rest.filterMap Task.disposed?) :
    Draining x n h₀ h' tasks := by
  have hset := hd.settled r.index c (tenant?_of_cell? hc) hnot
  have hperm : (h'.waiting tasks).Perm (r.index :: h.waiting rest) := by
    unfold waiting
    rw [hz, Queue.toList_push, hfin, hdis, List.append_assoc]
    exact List.perm_middle
  have hother : ∀ i, i ∈ h.waiting rest → i ≠ r.index := by
    rintro i hi rfl
    exact hnot hi
  refine ⟨hd.decays.trans (.of_updates hu hc ⟨Nat.zero_le _, rfl, rfl, rfl, .inl rfl⟩ hcalm),
    by rw [hrel]; exact hx, hord, ?_, fun i d hd' hi => ?_, fun i hi => ?_, fun i hi => ?_,
    hd.kept_of_updates hc hu (.inr ⟨_, rfl, rfl⟩)⟩
  · exact hperm.nodup_iff.mpr (List.nodup_cons.mpr ⟨hnot, hd.nodup⟩)
  · rw [hperm.mem_iff, List.mem_cons, not_or] at hi
    rw [hu.tenant, if_neg hi.1] at hd'
    exact hd.settled i d hd' hi.2
  · have hold : i = r.index ∨ (i ∈ h.zeroRefs.toList ∨ .finalize i ∈ rest) := by
      rcases hi with hi | hi
      · rw [hz, Queue.toList_push, List.mem_append, List.mem_singleton] at hi
        exact hi.symm.imp_right .inl
      · rw [← mem_finalized, hfin, mem_finalized] at hi
        exact .inr (.inr hi)
    rw [hu.tenant]
    rcases hold with rfl | hold
    · rw [if_pos rfl]
      exact ⟨_, rfl, rfl, hkind, hset.body⟩
    · rw [if_neg (hother i (mem_waiting.mpr (.inl hold)))]
      exact hd.fresh i (hold.imp_right (List.mem_cons_of_mem _))
  · rw [← mem_disposed, hdis, mem_disposed] at hi
    rw [hu.tenant, if_neg (hother i (mem_waiting.mpr (.inr hi)))]
    exact hd.spent i (List.mem_cons_of_mem _ hi)

theorem step_release (hd : Draining x n h₀ h (.release r :: rest)) :
    ∃ h' tasks, h.stepRelease r rest = .ok (h', tasks) ∧ Draining x n h₀ h' tasks := by
  have hx : h.Coherent ((x.plus (released rest)).plus [r]) n := by
    have hcons : x.plus (released (.release r :: rest)) = (x.plus (released rest)).plus [r] := by
      change x.plus (r :: released rest) = _
      rw [Ledger.plus_cons, Ledger.plus_comm]
    exact hcons ▸ hd.coherent
  obtain ⟨c, hc, hpos, hcases⟩ := hx.stepRelease rest fun c hc hkind =>
    (hd.settled r.index c (tenant?_of_cell? hc)
      (hd.not_waiting (tenant?_of_cell? hc) (hx.counted.pos_of_owned hc (by simp)))).body
  have hnot := hd.not_waiting (tenant?_of_cell? hc) hpos
  have hset := hd.settled r.index c (tenant?_of_cell? hc) hnot
  rcases hcases with ⟨hone, hx', hok⟩ | ⟨hone, hkind, hx', hok⟩ |
    ⟨hone, hkind, h', hx', hu, hcalm, hphase, hz, hok⟩
  · -- other references are left
    have hu := Updates.setRefCount hc (c.refCount - 1)
    refine ⟨_, _, hok, hd.of_release hc hnot hu (.inr ⟨_, rfl, rfl⟩) (fun d hd' => ?_)
      (.of_updates hu hc ⟨Nat.sub_le _ _, rfl, rfl, rfl, .inl rfl⟩ (.setRefCount h _ _)) [] hx' rfl rfl⟩
    cases hd'
    exact hset.recount (by omega)
  · -- the cell is put into the queue
    have hcount := Updates.setRefCount hc 0
    have hplace := Updates.setPlace hcount.cell_self c.place .queued
    have hqueued : ∀ h', h'.slots = ((h.setRefCount r.index 0).setPlace r.index c.place .queued).slots →
        SameBooks (h.setRefCount r.index 0) h' → h'.used = h.used → h'.liveCells = h.liveCells →
        Updates r (some { c with refCount := 0, place := .queued }) h h' ∧
          h'.Coherent (x.plus (released rest)) n := by
      intro h' hs hb hused hlive
      have hplace := hplace.then_slots hs
      exact ⟨hcount.trans hplace, hx'.recount hplace hb hcount.cell_self rfl rfl rfl (fun _ _ => rfl)
        hused hlive⟩
    rcases hd.orderly with ⟨hidle, hempty, rs, ht⟩ | ⟨hdrain, front, rs, ht, hfront⟩
    · have hdrop : (h.setRefCount r.index 0).dropQueued r.index c.place rest =
          ({ (h.setRefCount r.index 0).enqueue r.index c.place with phase := .draining },
            .drain :: rest) := by
        unfold dropQueued
        have hphase : (h.setRefCount r.index 0).phase = .idle := hidle
        rw [hphase]
      obtain ⟨hu, hx''⟩ := hqueued
        { (h.setRefCount r.index 0).enqueue r.index c.place with phase := .draining } rfl
        ⟨rfl, rfl, rfl⟩ rfl rfl
      rw [hdrop] at hok
      refine ⟨_, _, hok, hd.of_last hc hnot hkind hu ⟨rfl, rfl, rfl, rfl, rfl, fun _ => rfl, fun _ => rfl⟩ rfl
        hx'' (.inr ⟨rfl, ?_⟩) rfl rfl rfl⟩
      cases rs with
      | nil => simp at ht
      | cons s rs =>
        simp only [List.map_cons, List.cons.injEq] at ht
        exact ⟨[], rs, by rw [ht.2]; rfl, by simp⟩
    · have hdrop : (h.setRefCount r.index 0).dropQueued r.index c.place rest =
          ((h.setRefCount r.index 0).enqueue r.index c.place, rest) := by
        unfold dropQueued
        have hphase : (h.setRefCount r.index 0).phase = .draining := hdrain
        rw [hphase]
      obtain ⟨hu, hx''⟩ := hqueued ((h.setRefCount r.index 0).enqueue r.index c.place) rfl
        ⟨rfl, rfl, rfl⟩ rfl rfl
      rw [hdrop] at hok
      refine ⟨_, _, hok, hd.of_last hc hnot hkind hu ⟨rfl, rfl, rfl, rfl, rfl, fun _ => rfl, fun _ => rfl⟩ rfl
        hx'' (.inr ⟨hdrain, ?_⟩) rfl rfl rfl⟩
      cases front with
      | nil => simp at ht
      | cons t front =>
        simp only [List.cons_append, List.cons.injEq] at ht
        exact ⟨front, rs, ht.2, fun hmem => hfront (List.mem_cons_of_mem _ hmem)⟩
  · -- the cell is freed
    have hx' : h'.Coherent (x.plus (c.body.refs ++ released rest)) n := by
      rw [Ledger.plus_append, Ledger.plus_comm]
      exact hx'
    have hgone : ∀ d, (none : Option Cell) = some d → d.Settled := fun d hd' => by cases hd'
    exact ⟨_, _, hok, hd.of_release hc hnot hu (.inl hone) hgone (.of_vacated hu hcalm) c.body.refs hx'
      hphase hz⟩

theorem orderly_front (front' : List Task) {t : Task} (ho : h.Orderly (t :: rest))
    (ht : ∀ r, t ≠ .release r) (hdrain : t ≠ .drain) (hfront : .drain ∉ front')
    (hp : h'.phase = h.phase) : h'.Orderly (front' ++ rest) := by
  rcases ho with ⟨_, _, rs, he⟩ | ⟨hphase, front, rs, he, hfront₀⟩
  · cases rs with
    | nil => simp at he
    | cons r rs =>
      simp only [List.map_cons, List.cons.injEq] at he
      exact absurd he.1 (ht r)
  · cases front with
    | nil =>
      simp only [List.nil_append, List.cons.injEq] at he
      exact absurd he.1 hdrain
    | cons u front =>
      simp only [List.cons_append, List.cons.injEq] at he
      refine .inr ⟨hp.trans hphase, front' ++ front, rs, by rw [he.2, List.append_assoc], ?_⟩
      simp only [List.mem_append, not_or]
      exact ⟨hfront, fun hmem => hfront₀ (List.mem_cons_of_mem _ hmem)⟩

theorem step_finalize (hd : Draining x n h₀ h (.finalize i :: rest)) :
    ∃ h' tasks, h.stepFinalize i rest = .ok (h', tasks) ∧ Draining x n h₀ h' tasks := by
  obtain ⟨c, hc, hzero, hkind, hbody⟩ := hd.fresh i (.inr List.mem_cons_self)
  have hcell : h.cell? (h.handle i) = some c := by rw [cell?_handle, hc]
  obtain ⟨hu, hx⟩ := hd.coherent.finalize hcell hkind
  rw [index_handle] at hu hx
  refine ⟨_, _, stepFinalize_eq hc hkind hbody rest, ?_⟩
  -- the cell moves from those to finalize to those to dispose of
  have hperm : ((h.modifyBody i fun _ => .zombie c.kind).waiting
      (c.body.refs.map .release ++ .dispose i :: rest)).Perm (h.waiting (.finalize i :: rest)) := by
    rw [waiting_releases]
    exact List.Perm.append_left _ List.perm_middle
  have hother : ∀ j, j ≠ i → (h.modifyBody i fun _ => .zombie c.kind).tenant? j = h.tenant? j :=
    fun j hj => hu.tenant_other hj
  have hnot : ∀ j, j ∈ h.zeroRefs.toList ∨ .finalize j ∈ rest ∨ .dispose j ∈ rest → j ≠ i := by
    rintro j hj rfl
    have hnd := hd.nodup
    unfold waiting at hnd
    simp only [List.filterMap_cons, Task.finalized?, Task.disposed?, List.cons_append] at hnd
    rw [List.perm_middle.nodup_iff] at hnd
    refine (List.nodup_cons.mp hnd).1 ?_
    rw [List.mem_append, List.mem_append, mem_finalized, mem_disposed]
    exact hj
  refine ⟨hd.decays.trans (.of_updates hu hcell ⟨Nat.le_refl _, rfl, rfl, rfl, .inr rfl⟩
    ⟨rfl, rfl, rfl, rfl, rfl, fun _ => rfl, fun _ => rfl⟩), ?_, ?_, hperm.nodup_iff.mpr hd.nodup,
    fun j d hd' hj => ?_, fun j hj => ?_, fun j hj => ?_,
    hd.kept_of_updates hcell hu (.inl (by omega))⟩
  · rw [released_releases, Ledger.plus_append, Ledger.plus_comm]
    exact hx
  · have hsplit : c.body.refs.map Task.release ++ .dispose i :: rest =
        (c.body.refs.map Task.release ++ [.dispose i]) ++ rest := by simp
    rw [hsplit]
    exact orderly_front _ hd.orderly nofun nofun (by simp) rfl
  · rw [hperm.mem_iff] at hj
    have hji : j ≠ i := by
      rintro rfl
      exact hj (mem_waiting.mpr (.inl (.inr List.mem_cons_self)))
    rw [hother j hji] at hd'
    exact hd.settled j d hd' hj
  · have hj : j ∈ h.zeroRefs.toList ∨ .finalize j ∈ rest :=
      hj.imp_right fun hj => by simpa using hj
    rw [hother j (hnot j (hj.imp_right .inl))]
    exact hd.fresh j (hj.imp_right (List.mem_cons_of_mem _))
  · have hj : j = i ∨ .dispose j ∈ rest := by
      simpa using hj
    rcases hj with rfl | hj
    · exact ⟨_, hu.tenant_self, hzero, rfl⟩
    · rw [hother j (hnot j (.inr (.inr hj)))]
      exact hd.spent j (List.mem_cons_of_mem _ hj)

theorem step_dispose (hd : Draining x n h₀ h (.dispose i :: rest)) :
    ∃ h' tasks, h.stepDispose i rest = .ok (h', tasks) ∧ Draining x n h₀ h' tasks := by
  obtain ⟨c, hc, hzero, hbody⟩ := hd.spent i List.mem_cons_self
  have hcell : h.cell? (h.handle i) = some c := by rw [cell?_handle, hc]
  obtain ⟨k, hk⟩ : ∃ k, c.body = .zombie k := by
    cases hb : c.body with
    | zombie k => exact ⟨k, rfl⟩
    | _ =>
      rw [hb] at hbody
      cases hbody
  obtain ⟨h', hok, hx⟩ := hd.coherent.free hcell hzero (by rw [hk]; rfl) (by rw [hk]; rfl)
  have hok : h.free i = .ok h' := hok
  have hu := Updates.free hcell hok
  obtain ⟨hcalm, hphase, hz⟩ := Calm.free (r := h.handle i) hok
  have hw : h'.waiting rest = h.zeroRefs.toList ++ (rest.filterMap Task.finalized? ++
      rest.filterMap Task.disposed?) := by
    unfold waiting
    rw [hz]
  have hperm : (h.waiting (.dispose i :: rest)).Perm (i :: h'.waiting rest) := by
    rw [hw]
    unfold waiting
    simp only [List.filterMap_cons, Task.finalized?, Task.disposed?]
    exact (List.Perm.append_left _ List.perm_middle).trans List.perm_middle
  have hnd := List.nodup_cons.mp (hperm.nodup_iff.mp hd.nodup)
  have hother : ∀ j, j ∈ h'.waiting rest → h'.tenant? j = h.tenant? j := by
    rintro j hj
    refine hu.tenant_other fun hji => hnd.1 ?_
    rw [← index_handle h i, ← hji]
    exact hj
  refine ⟨h', rest, ?_, hd.decays.trans (.of_vacated hu hcalm), ?_,
    orderly_front [] hd.orderly nofun nofun (by simp) hphase, hnd.2,
    fun j d hd' hj => ?_, fun j hj => ?_, fun j hj => ?_,
    hd.kept_of_updates hcell hu (.inl (by omega))⟩
  · unfold stepDispose
    rw [cellAt_eq_ok_iff.mpr hc]
    dsimp only
    rw [if_neg (fun hpark => hpark.2 hzero), hok]
  · rw [hk, Body.refs, Ledger.plus_nil] at hx
    exact hx
  · rw [hu.tenant] at hd'
    split at hd'
    · cases hd'
    · rename_i hji
      refine hd.settled j d hd' fun hmem => ?_
      rw [hperm.mem_iff, List.mem_cons] at hmem
      rcases hmem with rfl | hmem
      · exact hji rfl
      · exact hj hmem
  · rw [hother j (mem_waiting.mpr (.inl hj))]
    rw [hz] at hj
    exact hd.fresh j (hj.imp_right (List.mem_cons_of_mem _))
  · rw [hother j (mem_waiting.mpr (.inr hj))]
    exact hd.spent j (List.mem_cons_of_mem _ hj)

theorem step_drain (hd : Draining x n h₀ h (.drain :: rest)) :
    ∃ h' tasks, h.stepDrain rest = .ok (h', tasks) ∧ Draining x n h₀ h' tasks := by
  obtain ⟨hphase, rs, hrest⟩ : h.phase = .draining ∧ ∃ rs : List Handle, rest = rs.map .release := by
    rcases hd.orderly with ⟨_, _, rs, he⟩ | ⟨hphase, front, rs, he, hfront⟩
    · cases rs <;> simp at he
    · cases front with
      | nil => exact ⟨hphase, rs, by simpa using he⟩
      | cons t front =>
        simp only [List.cons_append, List.cons.injEq] at he
        exact absurd (he.1 ▸ List.mem_cons_self) hfront
  have hw : h.waiting (.drain :: rest) = h.zeroRefs.toList := by
    have hrel := waiting_releases h rs []
    rw [List.append_nil] at hrel
    change h.waiting rest = _
    rw [hrest, hrel]
    simp [waiting]
  have hnone : ∀ i, .finalize i ∉ rest ∧ .dispose i ∉ rest := by
    intro i
    rw [hrest]
    simp
  unfold Heap.stepDrain
  cases hq : h.zeroRefs.pop? with
  | none =>
    have hempty := Queue.pop?_eq_none hq
    rw [hempty] at hw
    refine ⟨_, _, rfl, hd.decays.trans ⟨⟨rfl, rfl, rfl, rfl, rfl, fun _ => rfl, fun _ => rfl⟩,
      fun r c hc => ⟨c, hc, .refl c⟩⟩,
      hd.coherent.of_same (.of_slots rfl) rfl rfl rfl rfl rfl, .inl ⟨rfl, hempty, rs, hrest⟩,
      hd.nodup, fun i c hc hi => hd.settled i c hc hi, fun i hi => ?_, fun i hi => ?_, hd.kept⟩
    · rcases hi with hi | hi
      · change i ∈ h.zeroRefs.toList at hi
        simp [hempty] at hi
      · exact absurd hi (hnone i).1
    · exact absurd hi (hnone i).2
  | some p =>
    obtain ⟨i, q⟩ := p
    have hlist := Queue.pop?_eq_some hq
    obtain ⟨c, hc, hzero, hkind, hbody⟩ := hd.fresh i (.inl (by rw [hlist]; exact List.mem_cons_self))
    dsimp only
    rw [cellAt_eq_ok_iff.mpr hc]
    dsimp only
    rw [if_neg (fun hne => hne hzero)]
    have hperm : (waiting { h with zeroRefs := q } (.finalize i :: .drain :: rest)).Perm
        (h.waiting (.drain :: rest)) := by
      unfold waiting
      rw [hlist]
      exact List.perm_middle
    refine ⟨_, _, rfl, hd.decays.trans ⟨⟨rfl, rfl, rfl, rfl, rfl, fun _ => rfl, fun _ => rfl⟩,
      fun r c hc => ⟨c, hc, .refl c⟩⟩,
      hd.coherent.of_same (.of_slots rfl) rfl rfl rfl rfl rfl,
      .inr ⟨hphase, [.finalize i], rs, by rw [hrest]; rfl, by simp⟩,
      hperm.nodup_iff.mpr hd.nodup, fun j d hd' hj => ?_, fun j hj => ?_, fun j hj => ?_, hd.kept⟩
    · rw [hperm.mem_iff] at hj
      exact hd.settled j d hd' hj
    · refine hd.fresh j (.inl ?_)
      rw [hlist]
      rcases hj with hj | hj
      · exact List.mem_cons_of_mem _ hj
      · simp only [List.mem_cons, Task.finalize.injEq, reduceCtorEq, false_or] at hj
        rcases hj with rfl | hj
        · exact List.mem_cons_self
        · exact absurd hj (hnone j).1
    · simp only [List.mem_cons, reduceCtorEq, false_or] at hj
      exact absurd hj (hnone j).2

/-- No step of an orderly run faults, and each keeps the invariant. -/
theorem step {task : Task} (hd : Draining x n h₀ h (task :: rest)) :
    ∃ h' tasks, h.step task rest = .ok (h', tasks) ∧ Draining x n h₀ h' tasks := by
  cases task with
  | release r => exact hd.step_release
  | finalize i => exact hd.step_finalize
  | dispose i => exact hd.step_dispose
  | drain => exact hd.step_drain

end Draining

/-- Giving up references that are held never faults, leaves the heap sound, and spares what holds up
without them. -/
theorem Sound.run (rs : List Handle) (hs : h.Sound (x.plus rs) n) :
    ∃ h', h.run (rs.map .release) = .ok h' ∧ h'.Sound x n ∧ Decays h h' ∧
      ∀ A, h.Supported x A → ∀ r, A r → h'.body? r = h.body? r := by
  obtain ⟨h', hrun, hd⟩ := run_of_invariant (P := Draining x n h)
    (fun _ _ _ hd => hd.step) (Draining.start hs)
  exact ⟨h', hrun, hd.finish.1, hd.finish.2, hd.kept⟩

/-- What is left of a sound heap when references were given up: every cell as it was, but for its
count. -/
theorem Decays.kept (hd : Decays h h') (hs : h'.Sound y m) (hc : h'.cell? r = some c') :
    ∃ c, h.cell? r = some c ∧ c'.body = c.body ∧ c'.size = c.size ∧ c'.refCount ≤ c.refCount := by
  obtain ⟨c, hc₀, hf⟩ := hd.cells r c' hc
  refine ⟨c, hc₀, ?_, hf.size, hf.count⟩
  have hz := (hs.settled r.index c' (tenant?_of_cell? hc)).body
  rcases hf.body with hb | hb
  · exact hb
  · rw [hz] at hb
    cases hb

end Heap

end ObjectMemory
