import ObjectMemory.Proofs.GarbageCollection
import ObjectMemory.Proofs.Registry
import ObjectMemory.Proofs.Traces
set_option autoImplicit false

/-!
# What giving up a reference frees

Freeing mixes a queue with cells that go at once, and the order in which cells go depends on both.  Which
cells go does not: they are the least set that has every cell all of whose references come from cells of
the set (`Heap.Doomed`).  Each of them is finalized once and its slot given back once, and the rest of the
heap stays as it was but for the references it had from them (`Client.release_frees_doomed`).
-/

namespace ObjectMemory

namespace Heap

variable {x : Ledger} {n : Nat} {h h' : Heap} {r q : Handle} {c c' : Cell} {rs : List Handle}
  {tasks : List Task} {log : List (Heap × Task)}

/-! ## The cells that go -/

/-- The least set of cells that has every cell without references from outside, that is from the ledger,
from frames or from dropped roots, all of whose references come from bodies of cells of the set. -/
inductive Doomed (h : Heap) (x : Ledger) : Handle → Prop where
  | intro {r : Handle} (hr : h.contains r = true) (hout : h.outside x r = 0)
      (hin : ∀ q c, h.cell? q = some c → r ∈ c.body.refs → Doomed h x q) : Doomed h x r

theorem Doomed.contains (hd : h.Doomed x r) : h.contains r = true := by
  cases hd with
  | intro hr _ _ => exact hr

/-- What is not doomed holds itself up. -/
theorem supported_of_not_doomed (h : Heap) (x : Ledger) :
    h.Supported x fun r => h.contains r = true ∧ ¬ h.Doomed x r := by
  rintro r ⟨hr, hsafe⟩
  obtain ⟨b, hb⟩ := contains_iff_body.mp hr
  refine ⟨b, hb, ?_⟩
  by_contra hnone
  obtain ⟨hout, hin⟩ := not_or.mp hnone
  refine hsafe (.intro hr (by omega) fun q c hc hq => ?_)
  by_contra hq'
  exact hin ⟨q, c.body, ⟨contains_of_cell? hc, hq'⟩, body?_eq_some_iff.mpr ⟨c, hc, rfl⟩, hq⟩

/-- Nothing is left of what is doomed, for every cell that is left has a reference that counts. -/
theorem Doomed.not_contains (hd : h.Doomed x r) (hs' : h'.Sound x n) (hdec : Decays h h') :
    ¬ h'.contains r = true := by
  induction hd with
  | @intro r _ hout _ ih =>
    intro hr'
    obtain ⟨c', hc'⟩ := contains_iff.mp hr'
    have hpos := (hs'.settled _ _ (tenant?_of_cell? hc')).counted
    have hcount := hs'.coherent.counted.refCount_eq hc'
    rw [hdec.calm.outside, hout, Nat.zero_add] at hcount
    obtain ⟨i, d', hd', hmem⟩ := exists_of_total_pos (Nat.pos_of_ne_zero (hcount ▸ hpos))
    rw [← cell?_handle] at hd'
    obtain ⟨d, hd, hb⟩ := hdec.keeps hs' _ _ hd'
    exact ih _ d hd (hb ▸ List.count_pos_iff.mp hmem) (contains_of_cell? hd')

/-- A run that gives up references frees what is doomed without them, and nothing else. -/
theorem Sound.freed_iff (hs : h.Sound (x.plus rs) n) (hrun : h.run (rs.map .release) = .ok h') :
    (h.contains q = true ∧ ¬ h'.contains q = true) ↔ h.Doomed x q := by
  obtain ⟨h₁, hrun₁, hs', hdec, hkept⟩ := Sound.run rs hs
  cases hrun₁.symm.trans hrun
  refine ⟨fun ⟨hq, hgone⟩ => ?_, fun hd => ⟨hd.contains, hd.not_contains hs' hdec⟩⟩
  by_contra hsafe
  refine hgone (contains_iff_body.mpr ?_)
  rw [hkept _ (supported_of_not_doomed h x) q ⟨hq, hsafe⟩]
  exact contains_iff_body.mp hq

theorem Sound.isWhole_iff (hs : h.Sound x n) : h.IsWhole q ↔ h.contains q = true := by
  rw [contains_iff_body]
  refine ⟨fun ⟨b, hb, _⟩ => ⟨b, hb⟩, fun ⟨b, hb⟩ => ⟨b, hb, ?_⟩⟩
  obtain ⟨c, hc, rfl⟩ := body?_eq_some_iff.mp hb
  exact (hs.settled _ _ (tenant?_of_cell? hc)).body

/-- A run that gives up references disposes only of cells that are finalized. -/
theorem Draining.spent_of_runs {h₀ : Heap} (hd : Draining x n h₀ h tasks) (e : Runs h tasks log h') :
    ∀ a ∈ log, ∀ i, a.2 = .dispose i → ∃ c, a.1.tenant? i = some c ∧ c.body.isZombie = true := by
  have hstep : ∀ {g : Heap} {task : Task} {rest : List Task} {g' : Heap} {tasks : List Task},
      Draining x n h₀ g (task :: rest) → g.step task rest = .ok (g', tasks) → Draining x n h₀ g' tasks := by
    intro g task rest g' tasks hd e
    obtain ⟨_, _, e', hd'⟩ := hd.step
    cases e'.symm.trans e
    exact hd'
  intro a ha i htask
  obtain ⟨rest, hd⟩ := e.invariant hstep hd a ha
  rw [htask] at hd
  obtain ⟨c, hc, -, hz⟩ := hd.spent i List.mem_cons_self
  exact ⟨c, hc, hz⟩

/-- A run that gives up references finalizes every doomed cell once and gives its slot back once. -/
theorem Sound.runs_once (hs : h.Sound (x.plus rs) n) (e : Runs h (rs.map .release) log h')
    (hrun : h.run (rs.map .release) = .ok h') :
    ((log.filterMap fun a => a.2.finalizes? a.1).Nodup ∧
      ∀ q, q ∈ (log.filterMap fun a => a.2.finalizes? a.1) ↔ h.Doomed x q) ∧
    (log.filterMap fun a => a.2.vacates? a.1).Nodup ∧
      ∀ q, q ∈ (log.filterMap fun a => a.2.vacates? a.1) ↔ h.Doomed x q := by
  obtain ⟨h₁, hrun₁, hs', -, -⟩ := Sound.run rs hs
  cases hrun₁.symm.trans hrun
  obtain ⟨hfinal, hfinalized⟩ := e.finalized ((Draining.start hs).spent_of_runs e)
  obtain ⟨hvacant, hvacated⟩ := e.vacated
  refine ⟨⟨hfinal, fun q => ?_⟩, hvacant, fun q => ?_⟩
  · rw [hfinalized, hs.isWhole_iff, hs'.isWhole_iff, hs.freed_iff hrun]
  · rw [hvacated, hs.freed_iff hrun]

end Heap

namespace Client

open Heap

variable {config : Config} {h : Heap} {x : Ledger} {r : Handle}

/-- Giving up a reference that the client owns ends with the registry at rest.  The cells that went are
those that are doomed without the reference; each was finalized once, and its slot was given back once.
Every other cell is as it was, and its count is lower by the references it had from those, and by one if
the reference was for it.  Variables that went are no longer open in their frames. -/
theorem release_frees_doomed (hr : Reached (fun _ => True) config h x)
    (hexact : ∀ r c, h.cell? r = some c →
      c.refCount = x r + h.heldByCells r + h.heldByFrames r + h.dropped.toList.count r) (hown : 0 < x r) :
    ∃ h' log, HeapM.release r h = .ok ((), h') ∧ h'.AtRest ∧ Runs h [.release r] log h' ∧
      (∀ q, (h.contains q = true ∧ ¬ h'.contains q = true) ↔ h.Doomed (x.minus [r]) q) ∧
      ((log.filterMap fun a => a.2.finalizes? a.1).Nodup ∧
        ∀ q, q ∈ (log.filterMap fun a => a.2.finalizes? a.1) ↔ h.Doomed (x.minus [r]) q) ∧
      ((log.filterMap fun a => a.2.vacates? a.1).Nodup ∧
        ∀ q, q ∈ (log.filterMap fun a => a.2.vacates? a.1) ↔ h.Doomed (x.minus [r]) q) ∧
      (∀ q c', h'.cell? q = some c' → ∃ c, h.cell? q = some c ∧ c'.body = c.body ∧
        c'.refCount + h.edgesFromFreed h' q + [r].count q = c.refCount) ∧
      ∀ id f, h.frames.get? id = some f → ∃ f', h'.frames.get? id = some f' ∧ f'.locals = f.locals ∧
        ∀ q, q ∈ f'.openVariables.toList ↔ q ∈ f.openVariables.toList ∧ h'.contains q = true := by
  have howned : ∀ q, [r].count q ≤ x q := by
    intro q
    rw [List.count_singleton]
    split
    · rename_i hq
      rw [← eq_of_beq hq]
      exact hown
    · exact Nat.zero_le _
  have hs : h.Sound ((x.minus [r]).plus [r]) 0 := by
    rw [Ledger.minus_plus howned]
    exact (hr.valid_of_exact hexact).sound
  obtain ⟨h', hrun, hs', hdec, -⟩ := Sound.run [r] hs
  obtain ⟨log, e⟩ := exists_runs hrun
  obtain ⟨hfinalized, hvacated⟩ := hs.runs_once e hrun
  have hk := hdec.keeps hs'
  have hok : HeapM.release r h = .ok ((), h') := HeapM.change_apply hrun
  have hkept := hr.registry_kept.operation (.call (.release r)) (HeapM.bind_of_ok hok)
  refine ⟨h', log, hok, hkept.at_rest hs', e, fun q => hs.freed_iff hrun, hfinalized, hvacated,
    fun q c' hc' => ?_, fun id f hf => ?_⟩
  · obtain ⟨c, hc, hb⟩ := hk q c' hc'
    refine ⟨c, hc, hb, ?_⟩
    have hbefore := hs.coherent.counted.refCount_eq hc
    have hafter := hs'.coherent.counted.refCount_eq hc'
    have hfreed := hk.heldByCells q
    rw [hdec.calm.outside] at hafter
    unfold outside at hbefore hafter
    rw [Ledger.plus_apply] at hbefore
    omega
  · exact hk.frame hdec.calm.frames hs.coherent.bound hs'.coherent.bound hf

/-- An object refers to another, and the client owns both.  It gives up the first: that goes, and the other
loses the reference it had from there. -/
theorem release_frees_doomed_holder : ∃ h x, Reached (fun _ => True) .default h x ∧ 0 < x ⟨2, 0⟩ ∧
    ∃ h', HeapM.release ⟨2, 0⟩ h = .ok ((), h') ∧ h'.AtRest ∧ ¬ h'.contains ⟨2, 0⟩ = true ∧
      ∃ c c', h.cell? ⟨1, 0⟩ = some c ∧ h'.cell? ⟨1, 0⟩ = some c' ∧ c'.body = c.body ∧ c.refCount = 2 ∧
        c'.refCount + h.edgesFromFreed h' ⟨1, 0⟩ = 2 := by
  obtain ⟨h₁, e₁, hrest⟩ := ok_of_answers (x := (Call.newObject none).perform (.new .default))
    (a := .handle ⟨1, 0⟩) (t := fun h => answers ((Call.newObject none).perform h) (.handle ⟨2, 0⟩) fun h =>
      answers ((Call.retain ⟨1, 0⟩).perform h) .done fun h =>
      decide (h.kind? ⟨1, 0⟩ = some .object) &&
      answers ((Call.setProperty ⟨2, 0⟩ ⟨300⟩ (.object ⟨1, 0⟩)).perform h) (.flag true) fun h =>
      decide (h.contains ⟨2, 0⟩ = true ∧ h.heldByCells ⟨2, 0⟩ = 0 ∧ h.heldByFrames ⟨2, 0⟩ = 0 ∧
        h.dropped.toList = [] ∧ h.refCount? ⟨1, 0⟩ = some 2))
    (by decide +kernel)
  obtain ⟨h₂, e₂, hrest⟩ := ok_of_answers hrest
  obtain ⟨h₃, e₃, hrest⟩ := ok_of_answers hrest
  obtain ⟨hkind, hrest⟩ := Bool.and_eq_true_iff.mp hrest
  obtain ⟨h₄, e₄, hfacts⟩ := ok_of_answers hrest
  obtain ⟨hlive, hcells, hframes, hdropped, htwo⟩ := of_decide_eq_true hfacts
  have hstart : Reached (·.isPush = false) .default (.new .default) .empty := .start
  have hr₁ := hstart.next (.call (.newObject none)) rfl (.of_nothing rfl rfl) e₁
  have hr₂ := hr₁.next (.call (.newObject none)) rfl (.of_nothing rfl rfl) e₂
  have hr₃ := hr₂.next (.call (.retain ⟨1, 0⟩)) rfl (.of_nothing rfl rfl) e₃
  have hr₄ := hr₃.next (.call (.setProperty ⟨2, 0⟩ ⟨300⟩ (.object ⟨1, 0⟩))) rfl ⟨fun r => ?_, ?_⟩ e₄
  · generalize hx : Operation.settle _ (.call (.setProperty ⟨2, 0⟩ ⟨300⟩ (.object ⟨1, 0⟩))) (.flag true) = x
      at hr₄
    have hone : x ⟨1, 0⟩ = 1 ∧ x ⟨2, 0⟩ = 1 := by
      rw [← hx]
      decide
    have hexact := hr₄.valid_of_no_push.sound.coherent.counted.counts
    obtain ⟨h', _, hok, hrest, _, hfreed, _, _, hleft, _⟩ :=
      release_frees_doomed (hr₄.mono fun _ _ => trivial) (fun r c hc => by
        rw [hexact r c hc, Heap.held]
        omega) (by omega : 0 < x ⟨2, 0⟩)
    have hdoomed : h₄.Doomed (x.minus [⟨2, 0⟩]) ⟨2, 0⟩ := by
      refine .intro hlive ?_ fun q c hc hq => ?_
      · rw [outside, hframes, hdropped, Ledger.minus, hone.2]
        rfl
      · have := held_pos_of_mem_refs (tenant?_of_cell? hc) hq
        omega
    have hsafe : ¬ h₄.Doomed (x.minus [⟨2, 0⟩]) ⟨1, 0⟩ := by
      intro hd
      cases hd with
      | intro _ hout _ =>
        rw [outside, Ledger.minus, hone.1] at hout
        simp at hout
    obtain ⟨c, hc, hcount⟩ := refCount?_eq_some_iff.mp htwo
    have hstays : h'.contains ⟨1, 0⟩ = true := by
      by_contra hgone
      exact hsafe ((hfreed _).mp ⟨contains_of_cell? hc, hgone⟩)
    obtain ⟨c', hc'⟩ := contains_iff.mp hstays
    obtain ⟨d, hd, hb, hsum⟩ := hleft _ c' hc'
    cases hd.symm.trans hc
    refine ⟨h₄, x, hr₄.mono fun _ _ => trivial, by omega, h', hok, hrest, ((hfreed _).mpr hdoomed).2, c, c',
      hc, hc', hb, hcount, ?_⟩
    rw [hcount] at hsum
    simpa using hsum
  · simp only [Operation.settle_apply, Operation.consumed, Operation.gained, Call.consumed, Call.gained,
      Reply.refs, Value.ref?, Ledger.empty_apply, Option.toList_some, List.count_cons, List.count_nil,
      beq_iff_eq]
    grind
  · intro a ha
    cases List.mem_singleton.mp ha
    exact of_decide_eq_true hkind

end Client

end ObjectMemory
