import ObjectMemory.Proofs.CallStrokes
import ObjectMemory.Proofs.Stamps
set_option autoImplicit false

/-!
# Generations

Cells and frames are named alike: a place and the number of times it was vacated before, in one 32-bit
word.  `Tenancy` is what both have in common, and a run of changes is described by the names it gives away
(`Tenancy.Leads`).  The names given away for a place are those of its tenants from the first to the last,
so as long as no place is vacated `2 ^ 32` times no name is given away twice (`Tenancy.Leads.nodup`), and
a name that means something before and after meant it in between (`Tenancy.Leads.live_between`).

The strokes say what operations do to the two tenancies.  The main statement is about any operations of
anyone: `Heap.stale_names_stay_stale`.
-/

namespace ObjectMemory

/-! ## Tenants of places -/

/-- How often each place was vacated, and whether it is taken. -/
structure Tenancy where
  gone : Nat → Nat
  taken : Nat → Bool

namespace Tenancy

variable {p p₁ p₂ p' : Tenancy} {log more : List (Nat × UInt32)} {n : Nat × UInt32} {i : Nat}

/-- How often a place was taken. -/
def tenures (p : Tenancy) (i : Nat) : Nat := p.gone i + (p.taken i).toNat

/-- The names given away for a place, the first tenant's first. -/
def names (p : Tenancy) (i : Nat) : List (Nat × UInt32) :=
  (List.range (p.tenures i)).map fun k => (i, k.toUInt32)

/-- The name is the one of the tenant that is there. -/
def Live (p : Tenancy) (n : Nat × UInt32) : Prop := p.taken n.1 = true ∧ (p.gone n.1).toUInt32 = n.2

/-- Places are vacated, and taken under the names of `log`. -/
structure Leads (log : List (Nat × UInt32)) (p p' : Tenancy) : Prop where
  gone : ∀ i, p.gone i ≤ p'.gone i
  made : ∀ i, p'.names i = p.names i ++ log.filter (·.1 = i)

theorem toUInt32_inj {k m : Nat} (hk : k < 2 ^ 32) (hm : m < 2 ^ 32) (he : k.toUInt32 = m.toUInt32) :
    k = m := by
  have hword := congrArg UInt32.toNat he
  simp only [Nat.toUInt32, UInt32.toNat_ofNat'] at hword
  omega

@[simp] theorem length_names (p : Tenancy) (i : Nat) : (p.names i).length = p.tenures i := by simp [names]

theorem tenures_le (p : Tenancy) (i : Nat) : p.tenures i ≤ p.gone i + 1 := by
  unfold tenures
  have := (p.taken i).toNat_le
  omega

/-- Tenants that come before the generations come round have different names. -/
theorem nodup_names (hgone : p.gone i < 2 ^ 32) : (p.names i).Nodup := by
  refine List.Nodup.map_on (fun k hk m hm he => ?_) List.nodup_range
  have hle := p.tenures_le i
  rw [List.mem_range] at hk hm
  exact toUInt32_inj (by omega) (by omega) (Prod.ext_iff.mp he).2

/-- The tenant that is there got its name when it came. -/
theorem Live.mem_names (hn : p.Live n) : n ∈ p.names n.1 := by
  refine List.mem_map.mpr ⟨p.gone n.1, List.mem_range.mpr ?_, Prod.ext rfl hn.2⟩
  rw [tenures, hn.1]
  exact Nat.lt_succ_self _

namespace Leads

theorem refl (p : Tenancy) : Leads [] p p := ⟨fun _ => Nat.le_refl _, fun i => by simp⟩

theorem trans (e₁ : Leads log p p₁) (e₂ : Leads more p₁ p') : Leads (log ++ more) p p' :=
  ⟨fun i => Nat.le_trans (e₁.gone i) (e₂.gone i), fun i => by
    rw [e₂.made, e₁.made, List.filter_append, List.append_assoc]⟩

theorem of_same (hgone : ∀ i, p'.gone i = p.gone i) (htaken : ∀ i, p'.taken i = p.taken i) : Leads [] p p' := by
  refine ⟨fun i => Nat.le_of_eq (hgone i).symm, fun i => ?_⟩
  rw [names, tenures, hgone, htaken]
  exact (List.append_nil _).symm

/-- A tenant leaves. -/
theorem of_vacate (htaken : p.taken i = true) (hgone : ∀ j, p'.gone j = if i = j then p.gone j + 1 else p.gone j)
    (hvacant : ∀ j, p'.taken j = if i = j then false else p.taken j) : Leads [] p p' := by
  refine ⟨fun j => ?_, fun j => ?_⟩
  · rw [hgone]
    split
    · exact Nat.le_succ _
    · exact Nat.le_refl _
  · have htenures : p'.tenures j = p.tenures j := by
      rw [tenures, tenures, hgone, hvacant]
      split
      · rename_i hij
        rw [← hij, htaken]
        rfl
      · rfl
    rw [names, names, htenures]
    exact (List.append_nil _).symm

/-- A tenant comes, and gets the place and the number of those before it for a name. -/
theorem of_take {q : Tenancy} (hvacant : p.taken i = false) (hgone : ∀ j, q.gone j = p.gone j)
    (htaken : ∀ j, q.taken j = if i = j then true else p.taken j) :
    Leads [(i, (p.gone i).toUInt32)] p q := by
  refine ⟨fun j => Nat.le_of_eq (hgone j).symm, fun j => ?_⟩
  rw [names, names, tenures, tenures, hgone, htaken]
  by_cases hij : i = j
  · subst hij
    rw [if_pos rfl, hvacant]
    simp [List.range_succ]
  · rw [if_neg hij]
    simp [hij]

theorem tenures_le (e : Leads log p p') (i : Nat) : p.tenures i ≤ p'.tenures i := by
  have hlength := congrArg List.length (e.made i)
  rw [List.length_append, length_names, length_names] at hlength
  omega

/-- No name is given away twice. -/
theorem nodup (e : Leads log p p') (hstart : ∀ i, p.tenures i = 0) (hgone : ∀ i, p'.gone i < 2 ^ 32) :
    log.Nodup := by
  refine List.nodup_iff_count_le_one.mpr fun n => ?_
  have hnames : p'.names n.1 = log.filter (·.1 = n.1) := by
    rw [e.made, names, hstart]
    rfl
  rw [← List.count_filter (p := fun m => decide (m.1 = n.1)) (by simp), ← hnames]
  exact List.nodup_iff_count_le_one.mp (nodup_names (hgone n.1)) n

/-- What is there has got its name on the way. -/
theorem mem_of_live (e : Leads log p p') (hstart : ∀ i, p.tenures i = 0) (hn : p'.Live n) : n ∈ log := by
  have hmem := hn.mem_names
  rw [e.made, names, hstart, List.range_zero, List.map_nil, List.nil_append] at hmem
  exact List.mem_of_mem_filter hmem

/-- The tenant of a name that is there before and after did not leave. -/
theorem live_between (e₁ : Leads log p₁ p₂) (e₂ : Leads more p₂ p') (hn₁ : p₁.Live n) (hn : p'.Live n)
    (hgone : p'.gone n.1 < 2 ^ 32) : p₂.Live n := by
  have hle₁ := e₁.gone n.1
  have hle₂ := e₂.gone n.1
  have hsame : p₁.gone n.1 = p'.gone n.1 := toUInt32_inj (by omega) hgone (hn₁.2.trans hn.2.symm)
  have hgone₂ : p₂.gone n.1 = p₁.gone n.1 := by omega
  have hten := e₁.tenures_le n.1
  rw [tenures, tenures, hn₁.1, hgone₂] at hten
  refine ⟨?_, by rw [hgone₂, hn₁.2]⟩
  cases ht : p₂.taken n.1 with
  | true => rfl
  | false =>
    rw [ht] at hten
    exact absurd hten (by simp)

end Leads

end Tenancy

/-! ## Cells and frames -/

/-- The parts of a handle. -/
def Handle.name (r : Handle) : Nat × UInt32 := (r.index, r.generation)

/-- The parts of a frame's name. -/
def FrameId.name (id : FrameId) : Nat × UInt32 := (id.index, id.generation)

namespace Birth

/-- The handle of a cell that was made. -/
def cell? : Birth → Option Handle
  | cell r => some r
  | frame _ => none

/-- The name of a frame that was entered. -/
def frame? : Birth → Option FrameId
  | cell _ => none
  | frame id => some id

end Birth

namespace FrameTable

variable {t : FrameTable} {id : FrameId}

/-- The frames as tenants of the places of their table. -/
def tenancy (t : FrameTable) : Tenancy where
  gone i := (t.slots[i]?.map (·.pops)).getD 0
  taken i := (t.slots[i]?.bind (·.frame)).isSome

theorem live_iff : t.tenancy.Live id.name ↔ (t.get? id).isSome = true := by
  simp only [Tenancy.Live, tenancy, get?, FrameId.name]
  cases t.slots[id.index]? with
  | none => simp
  | some s =>
    dsimp only
    split
    · rename_i hg
      exact ⟨fun hlive => hlive.1, fun hlive => ⟨hlive, hg⟩⟩
    · rename_i hg
      exact ⟨fun hlive => absurd hlive.2 hg, fun hlive => by cases hlive⟩

theorem leads_modify (t : FrameTable) (i : Nat) (g : Frame → Frame) :
    Tenancy.Leads [] t.tenancy (t.modify i g).tenancy := by
  refine .of_same (fun j => ?_) fun j => ?_
  · simp only [tenancy, FrameTable.modify, Array.getElem?_modify]
    split
    · rw [Option.map_map]
      rfl
    · rfl
  · simp only [tenancy, FrameTable.modify, Array.getElem?_modify]
    split
    · cases t.slots[j]? <;> simp
    · rfl

theorem leads_pop {f : Frame} (hf : t.get? id = some f) :
    Tenancy.Leads [] t.tenancy (t.pop id.index).tenancy := by
  obtain ⟨s, hs, hsf, _⟩ := get?_eq_some_iff.mp hf
  refine .of_vacate (i := id.index) (by simp [tenancy, hs, hsf]) (fun j => ?_) fun j => ?_
  · simp only [tenancy, FrameTable.pop, Array.getElem?_modify]
    split
    · rename_i hij
      subst hij
      simp [hs]
    · rfl
  · simp only [tenancy, FrameTable.pop, Array.getElem?_modify]
    split
    · cases t.slots[j]? <;> rfl
    · rfl

/-- A frame that is entered gets the name of the place it takes. -/
theorem Tidy.leads_push (ht : t.Tidy) (f : Frame) :
    Tenancy.Leads [(t.push f).1.name] t.tenancy (t.push f).2.tenancy := by
  cases hfree : t.free with
  | nil =>
    rw [push_of_nil hfree]
    have hout : t.slots[t.slots.size]? = none := Array.getElem?_eq_none (Nat.le_refl _)
    have htake := Tenancy.Leads.of_take (p := t.tenancy) (q := (⟨t.slots.push ⟨0, some f⟩, []⟩ : FrameTable).tenancy)
      (i := t.slots.size) (by simp [tenancy]) (fun j => ?_) fun j => ?_
    · simpa [tenancy, FrameId.name] using htake
    · simp only [tenancy, Array.getElem?_push]
      split
      · rename_i hj
        rw [hj, hout]
        rfl
      · rfl
    · simp only [tenancy, Array.getElem?_push, eq_comm (a := j)]
      split
      · rfl
      · rfl
  | cons i rest =>
    obtain ⟨s, hs, hsf⟩ := ht.vacant i (by simp [hfree])
    rw [push_of_cons hfree hs]
    have htake := Tenancy.Leads.of_take (p := t.tenancy)
      (q := (⟨t.slots.modify i fun s => { s with frame := some f }, rest⟩ : FrameTable).tenancy)
      (i := i) (by simp [tenancy, hs, hsf]) (fun j => ?_) fun j => ?_
    · have hname : (t.tenancy.gone i).toUInt32 = s.generation := by
        simp [tenancy, hs, FrameSlot.generation]
      rw [hname] at htake
      exact htake
    · simp only [tenancy, Array.getElem?_modify]
      split
      · rw [Option.map_map]
        rfl
      · rfl
    · simp only [tenancy, Array.getElem?_modify]
      split
      · rename_i hij
        rw [← hij, hs]
        rfl
      · rfl

end FrameTable

namespace Heap

variable {h h₀ h₁ h₂ h₃ h' : Heap} {births log log₁ log₂ log₃ : List Birth} {i : Nat} {r : Handle}
  {id : FrameId}

/-- The cells as tenants of the slots. -/
def tenancy (h : Heap) : Tenancy := ⟨h.frees, fun i => (h.tenant? i).isSome⟩

/-- The handles of the cells that were made. -/
def cellsOf (log : List Birth) : List Handle := log.filterMap Birth.cell?

/-- The names of the frames that were entered. -/
def framesOf (log : List Birth) : List FrameId := log.filterMap Birth.frame?

theorem live_iff : h.tenancy.Live r.name ↔ h.contains r = true := by
  rw [contains_iff]
  constructor
  · rintro ⟨htaken, hg⟩
    obtain ⟨c, hc⟩ := Option.isSome_iff_exists.mp htaken
    exact ⟨c, cell?_eq_some_iff.mpr ⟨hc, hg⟩⟩
  · rintro ⟨c, hc⟩
    obtain ⟨ht, hg⟩ := cell?_eq_some_iff.mp hc
    exact ⟨Option.isSome_iff_exists.mpr ⟨c, ht⟩, hg⟩

theorem leads_modifyCell (h : Heap) (i : Nat) (f : Cell → Cell) :
    Tenancy.Leads [] h.tenancy (h.modifyCell i f).tenancy := by
  refine .of_same (fun j => frees_modifyCell h i f j) fun j => ?_
  simp only [tenancy, tenant?_modifyCell]
  split
  · exact Option.isSome_map
  · rfl

theorem leads_of_slots (hs : h'.slots = h.slots) : Tenancy.Leads [] h.tenancy h'.tenancy := by
  refine .of_same (fun i => ?_) fun i => ?_
  · simp only [tenancy, frees, hs]
  · simp only [tenancy, tenant?, hs]

theorem Shift.leads (e : Shift h h') : Tenancy.Leads [] h.tenancy h'.tenancy := by
  cases e with
  | aside hslots _ _ => exact leads_of_slots hslots
  | touch i _ _ => exact leads_modifyCell h i _
  | @relist i c new _ => exact leads_modifyCell h i fun c => { c with place := new }
  | join i _ => exact leads_modifyCell h i fun c => { c with place := .live h.nextTicket }
  | rewrite i _ => exact leads_modifyCell h i _
  | free hf =>
    obtain ⟨c, hc, _⟩ := free_eq_ok_iff.mp hf
    refine .of_vacate (by simp only [tenancy, hc]; rfl) (frees_free hf) fun j => ?_
    simp only [tenancy, tenant?_free hf]
    split
    · rfl
    · rfl
  | widen => exact .of_same (frees_widen h) fun j => congrArg Option.isSome (tenant?_widen h j)
  | close i r => exact leads_of_slots rfl

/-- A stroke vacates slots, or takes one under the handle it tells. -/
theorem Stroke.leads (e : Stroke births h h') :
    Tenancy.Leads ((cellsOf births).map Handle.name) h.tenancy h'.tenancy := by
  cases e with
  | shift e => exact e.leads
  | edit _ i _ => exact leads_modifyCell h i _
  | make ht ho hp =>
    rename_i h₁ h₂ p o u body listed r
    have hputs : Puts p.index body h h' := puts_of_make ht ho hp
    obtain ⟨_, hfrees₁, _⟩ := takeSlot_eq_ok ht
    obtain ⟨_, _, hr, _, hfrees, _⟩ := putCell_eq_ok hp
    have hname : r.name = (p.index, (h.tenancy.gone p.index).toUInt32) := by
      rw [hr, Handle.name, handle, ← hfrees, hputs.frees]
      rfl
    have htake := Tenancy.Leads.of_take (p := h.tenancy) (q := h'.tenancy) (i := p.index)
      (by simp only [tenancy, hputs.vacant]; rfl) hputs.frees fun j => ?_
    · rw [← hname] at htake
      exact htake
    · have hbody := fun k (g : Heap) => (Option.isSome_map (x := g.tenant? k) (f := Cell.body))
      change (h'.tenant? j).isSome = if p.index = j then true else (h.tenant? j).isSome
      rw [← hbody j h', ← hbody j h]
      split
      · rename_i hij
        subst hij
        exact congrArg Option.isSome hputs.here
      · rename_i hij
        exact congrArg Option.isSome (hputs.others j hij)
  | enter => exact leads_of_slots rfl
  | inside => exact leads_of_slots rfl
  | leave => exact leads_of_slots rfl

theorem Shift.frames_leads (e : Shift h h') : Tenancy.Leads [] h.frames.tenancy h'.frames.tenancy ∧
    (h.frames.Tidy → h'.frames.Tidy) := by
  have hsame : ∀ {h' : Heap}, h'.frames = h.frames → Tenancy.Leads [] h.frames.tenancy h'.frames.tenancy ∧
      (h.frames.Tidy → h'.frames.Tidy) := fun he => by
    rw [he]
    exact ⟨.refl _, id⟩
  cases e with
  | aside _ _ hframes => exact hsame hframes
  | touch => exact hsame rfl
  | relist => exact hsame rfl
  | join => exact hsame rfl
  | rewrite => exact hsame rfl
  | free hf =>
    obtain ⟨_, _, _, _, rfl⟩ := free_eq_ok_iff.mp hf
    exact hsame rfl
  | widen => exact hsame rfl
  | close i r => exact ⟨FrameTable.leads_modify _ i _, fun ht => ht.modify i _⟩

/-- A stroke leaves frames, or enters one under the name it tells. -/
theorem Stroke.frames_leads (e : Stroke births h h') (ht : h.frames.Tidy) :
    Tenancy.Leads ((framesOf births).map FrameId.name) h.frames.tenancy h'.frames.tenancy ∧
      h'.frames.Tidy := by
  cases e with
  | shift e => exact ⟨e.frames_leads.1, e.frames_leads.2 ht⟩
  | edit => exact ⟨.refl _, ht⟩
  | make hslot ho hp =>
    have hframes := (puts_of_make hslot ho hp).frames
    exact ⟨hframes ▸ .refl _, hframes ▸ ht⟩
  | enter _ f => exact ⟨ht.leads_push f, ht.push f⟩
  | inside _ i f => exact ⟨FrameTable.leads_modify _ i f, ht.modify i f⟩
  | leave hf => exact ⟨FrameTable.leads_pop hf, ht.pop hf⟩

theorem Logged.leads (e : Logged log h h') :
    Tenancy.Leads ((cellsOf log).map Handle.name) h.tenancy h'.tenancy := by
  induction e with
  | none h => exact .refl _
  | next _ e ih =>
    have htrans := ih.trans e.leads
    rwa [← List.map_append, cellsOf, cellsOf, ← List.filterMap_append] at htrans

theorem Logged.frames_leads (e : Logged log h h') (ht : h.frames.Tidy) :
    Tenancy.Leads ((framesOf log).map FrameId.name) h.frames.tenancy h'.frames.tenancy ∧ h'.frames.Tidy := by
  induction e with
  | none h => exact ⟨.refl _, ht⟩
  | next _ e ih =>
    obtain ⟨hleads, ht₁⟩ := ih ht
    obtain ⟨hlast, ht'⟩ := e.frames_leads ht₁
    have htrans := hleads.trans hlast
    rw [← List.map_append, framesOf, framesOf, ← List.filterMap_append] at htrans
    exact ⟨htrans, ht'⟩

/-! ## Runs -/

/-- Any operations of anyone, one after the other, and all they make. -/
inductive Chronicle : List Birth → Heap → Heap → Prop where
  | none (h : Heap) : Chronicle [] h h
  | next {log births : List Birth} {h₀ h h' : Heap} {reply : Reply} (hrun : Chronicle log h₀ h)
      (op : Operation) (e : op.perform h = .ok (reply, h')) (hmade : Logged births h h') :
      Chronicle (log ++ births) h₀ h'

/-- All that the operations of a run make can be told. -/
theorem Steps.chronicle (hrun : Steps h h') : ∃ log, Chronicle log h h' := by
  induction hrun with
  | none => exact ⟨[], .none h⟩
  | next _ op e ih =>
    obtain ⟨_, ih⟩ := ih
    obtain ⟨_, hmade⟩ := op.strokes e
    exact ⟨_, ih.next op e hmade⟩

theorem Chronicle.logged (hrun : Chronicle log h h') : Logged log h h' := by
  induction hrun with
  | none h => exact .none h
  | next _ _ _ hmade ih => exact ih.trans hmade

/-- However the changes of a run are told, the names are the same for each place, in the same order. -/
theorem Chronicle.names_unique {log' : List Birth} (hrun : Chronicle log h h') (hrun' : Chronicle log' h h')
    (i : Nat) : ((cellsOf log).map Handle.name).filter (·.1 = i) =
      ((cellsOf log').map Handle.name).filter (·.1 = i) :=
  List.append_cancel_left ((hrun.logged.leads.made i).symm.trans (hrun'.logged.leads.made i))

/-- Nothing is found under the handle. -/
structure Stale (h : Heap) (r : Handle) : Prop where
  contains : h.contains r = false
  cell : h.cell? r = none
  refCount : h.refCount? r = none
  object : h.object? r = none
  shape : h.shape? r = none
  captured : h.captured? r = none
  property : ∀ atom, h.findProperty? r atom = none
  own : ∀ atom, h.findOwn? r atom = none
  lookup : ∀ atom, h.lookup? r atom = none

theorem stale_of_not_contains (hr : ¬ h.contains r = true) : h.Stale r := by
  have hcell : h.cell? r = none := by
    cases hc : h.cell? r with
    | none => rfl
    | some c => exact absurd (contains_iff.mpr ⟨c, hc⟩) hr
  have hbody : h.body? r = none := by rw [body?, hcell]; rfl
  have hobject : h.object? r = none := by rw [object?, hbody]
  have hshape : h.shape? r = none := by rw [shape?, hbody]
  refine ⟨eq_false_of_ne_true hr, hcell, by rw [refCount?, hcell]; rfl, hobject, hshape,
    by rw [captured?, hbody], fun atom => by rw [findProperty?, hshape]; rfl,
    fun atom => by rw [findOwn?, hobject]; rfl, fun atom => ?_⟩
  have hof : h.shapeOf? r = none := by rw [shapeOf?, hobject]; rfl
  rw [lookup?, lookupFrom, hof]

/-- Three stretches of a run of anyone, and no slot and no place for frames has been vacated `2 ^ 32`
times.  No two cells were made under one handle and no two frames under one name, and what is there was
made on the way.  A handle that named a cell after the first stretch and none after the second finds
nothing after the third, and the name of a frame that was left by then does not name another. -/
theorem stale_names_stay_stale {config : Config} (e₁ : Chronicle log₁ (.new config) h₁)
    (e₂ : Chronicle log₂ h₁ h₂) (e₃ : Chronicle log₃ h₂ h₃) (hcells : ∀ i, h₃.frees i < 2 ^ 32)
    (hframes : ∀ i, h₃.frames.tenancy.gone i < 2 ^ 32) :
    (cellsOf (log₁ ++ log₂ ++ log₃)).Nodup ∧ (framesOf (log₁ ++ log₂ ++ log₃)).Nodup ∧
      (∀ r, h₃.contains r = true → r ∈ cellsOf (log₁ ++ log₂ ++ log₃)) ∧
      (∀ id, h₃.isFrameLive id = true → id ∈ framesOf (log₁ ++ log₂ ++ log₃)) ∧
      (∀ r, h₁.contains r = true → h₂.contains r = false → h₃.Stale r) ∧
      ∀ id, h₁.isFrameLive id = true → h₂.isFrameLive id = false → h₃.isFrameLive id = false := by
  have ht₀ : (new config).frames.Tidy := FrameTable.tidy_empty
  have hempty : ∀ i, (new config).tenancy.tenures i = 0 := fun i => by
    simp [Tenancy.tenures, tenancy, frees, tenant?, new]
  have hempty' : ∀ i, (new config).frames.tenancy.tenures i = 0 := fun i => by
    simp [Tenancy.tenures, FrameTable.tenancy, new, FrameTable.empty]
  have hall := (e₁.logged.trans e₂.logged).trans e₃.logged
  have hleads := hall.leads
  have hleads' := (hall.frames_leads ht₀).1
  have ht₁ := (e₁.logged.frames_leads ht₀).2
  have ht₂ := (e₂.logged.frames_leads ht₁).2
  have hname : Function.Injective Handle.name := fun r s hrs => by
    cases r
    cases s
    simpa [Handle.name] using hrs
  have hname' : Function.Injective FrameId.name := fun a b hab => by
    cases a
    cases b
    simpa [FrameId.name] using hab
  refine ⟨(hleads.nodup hempty hcells).of_map _, (hleads'.nodup hempty' hframes).of_map _, fun r hr => ?_,
    fun id hid => ?_, fun r hr hgone => ?_, fun id hid hgone => ?_⟩
  · exact (List.mem_map_of_injective hname).mp (hleads.mem_of_live hempty (live_iff.mpr hr))
  · exact (List.mem_map_of_injective hname').mp
      (hleads'.mem_of_live hempty' (FrameTable.live_iff.mpr hid))
  · refine stale_of_not_contains fun hr₃ => ?_
    have hlive := e₂.logged.leads.live_between e₃.logged.leads (live_iff.mpr hr) (live_iff.mpr hr₃)
      (hcells r.index)
    rw [live_iff, hgone] at hlive
    cases hlive
  · refine eq_false_of_ne_true fun hid₃ => ?_
    have hlive := (e₂.logged.frames_leads ht₁).1.live_between (e₃.logged.frames_leads ht₂).1
      (FrameTable.live_iff.mpr hid) (FrameTable.live_iff.mpr hid₃) (hframes id.index)
    rw [FrameTable.live_iff] at hlive
    rw [isFrameLive, hlive] at hgone
    cases hgone

/-- An object goes and a frame is left, and a variable and another frame take their places. -/
theorem stale_names_stay_stale_reused : ∃ log₁ log₂ log₃ h₁ h₂ h₃, Chronicle log₁ (.new .default) h₁ ∧
    Chronicle log₂ h₁ h₂ ∧ Chronicle log₃ h₂ h₃ ∧ (∀ i, h₃.frees i < 2 ^ 32) ∧
    (∀ i, h₃.frames.tenancy.gone i < 2 ^ 32) ∧ h₁.contains ⟨1, 0⟩ = true ∧ h₂.contains ⟨1, 0⟩ = false ∧
    h₁.isFrameLive ⟨0, 0⟩ = true ∧ h₂.isFrameLive ⟨0, 0⟩ = false ∧ h₃.contains ⟨1, 1⟩ = true ∧
    h₃.isFrameLive ⟨0, 1⟩ = true ∧ (cellsOf (log₁ ++ log₂ ++ log₃)).Nodup ∧ h₃.Stale ⟨1, 0⟩ ∧
    h₃.isFrameLive ⟨0, 0⟩ = false := by
  obtain ⟨_, e₁, hrest⟩ := ok_of_answers (x := (Call.newObject none).perform (.new .default))
    (a := .handle ⟨1, 0⟩) (t := fun h => answers ((Call.pushFrame #[]).perform h) (.frame ⟨0, 0⟩)
      fun h => decide (h.contains ⟨1, 0⟩ = true ∧ h.isFrameLive ⟨0, 0⟩ = true) &&
      answers ((Call.release ⟨1, 0⟩).perform h) .done
      fun h => answers ((Call.popFrame ⟨0, 0⟩).perform h) .done
      fun h => decide (h.contains ⟨1, 0⟩ = false ∧ h.isFrameLive ⟨0, 0⟩ = false) &&
      answers ((Call.newVariable (.smi 1)).perform h) (.handle ⟨1, 1⟩)
      fun h => answers ((Call.pushFrame #[]).perform h) (.frame ⟨0, 1⟩)
      fun h => decide (h.contains ⟨1, 1⟩ = true ∧ h.isFrameLive ⟨0, 1⟩ = true ∧
        (∀ s ∈ h.slots.toList, s.frees < 2 ^ 32) ∧ ∀ s ∈ h.frames.slots.toList, s.pops < 2 ^ 32))
    (by decide +kernel)
  obtain ⟨h₁, e₂, hrest⟩ := ok_of_answers hrest
  obtain ⟨hlive₁, hrest⟩ := Bool.and_eq_true_iff.mp hrest
  obtain ⟨_, e₃, hrest⟩ := ok_of_answers hrest
  obtain ⟨h₂, e₄, hrest⟩ := ok_of_answers hrest
  obtain ⟨hgone₂, hrest⟩ := Bool.and_eq_true_iff.mp hrest
  obtain ⟨_, e₅, hrest⟩ := ok_of_answers hrest
  obtain ⟨h₃, e₆, hfacts⟩ := ok_of_answers hrest
  obtain ⟨hcell₁, hframe₁⟩ := of_decide_eq_true hlive₁
  obtain ⟨hcell₂, hframe₂⟩ := of_decide_eq_true hgone₂
  obtain ⟨hcell₃, hframe₃, hslots, hplaces⟩ := of_decide_eq_true hfacts
  obtain ⟨log₁, hrun₁⟩ := ((Steps.none.next (.call (.newObject none)) e₁).next
    (.call (.pushFrame #[])) e₂).chronicle
  obtain ⟨log₂, hrun₂⟩ := ((Steps.none.next (.call (.release ⟨1, 0⟩)) e₃).next
    (.call (.popFrame ⟨0, 0⟩)) e₄).chronicle
  obtain ⟨log₃, hrun₃⟩ := ((Steps.none.next (.call (.newVariable (.smi 1))) e₅).next
    (.call (.pushFrame #[])) e₆).chronicle
  have hcells : ∀ i, h₃.frees i < 2 ^ 32 := by
    intro i
    unfold frees
    cases hs : h₃.slots[i]? with
    | none => decide
    | some s => exact hslots s (Array.mem_toList_iff.mpr (Array.mem_of_getElem? hs))
  have hframes : ∀ i, h₃.frames.tenancy.gone i < 2 ^ 32 := by
    intro i
    simp only [FrameTable.tenancy]
    cases hs : h₃.frames.slots[i]? with
    | none => decide
    | some s => exact hplaces s (Array.mem_toList_iff.mpr (Array.mem_of_getElem? hs))
  obtain ⟨hnodup, _, _, _, hstale, hleft⟩ := stale_names_stay_stale hrun₁ hrun₂ hrun₃ hcells hframes
  exact ⟨_, _, _, _, _, _, hrun₁, hrun₂, hrun₃, hcells, hframes, hcell₁, hcell₂, hframe₁, hframe₂, hcell₃,
    hframe₃, hnodup, hstale _ hcell₁ hcell₂, hleft _ hframe₁ hframe₂⟩

end Heap

end ObjectMemory
