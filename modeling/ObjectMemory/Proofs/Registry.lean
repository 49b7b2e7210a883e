import ObjectMemory.Proofs.CallStrokes
import ObjectMemory.Proofs.Clients
import ObjectMemory.Proofs.LinkedLists
set_option autoImplicit false

/-!
# The registry of cells

A heap keeps track of its slots twice: the cell in a slot knows its place, and the heap has linked lists
of the cells and a list of the vacant slots.  That both agree is kept by every stroke, so it holds for
every client, in the midst of a collection as well: each list is made of the cells that say they are on
it, once each, the live list in the order of the tickets (`Heap.Files`), and the vacant slots are the
ones without a cell (`Heap.Roomy` and `Heap.Fallow`).

For a client that keeps its books the main statement says what the registry looks like between two
operations (`Client.registry_well_formed`): nothing waits, nothing is a candidate, no mark is left, and
the live list is made of all cells but the variables attached to a frame.
-/

namespace ObjectMemory

namespace Heap

variable {h h₁ h' : Heap} {i j : Nat} {c : Cell} {order : ListName → List Nat} {births : List Birth}

/-! ## Lists and places -/

/-- The list the cell in a slot says it is on. -/
def listAt? (h : Heap) (i : Nat) : Option ListName := (h.placeAt? i).bind Place.list?

/-- The ticket of the cell in a slot, if it is on the live list. -/
def ticketAt? (h : Heap) (i : Nat) : Option Nat := (h.placeAt? i).bind Place.ticket?

/-- The lists are made of the cells that `order` gives for them.  These are the cells that say they are
on the list, and on the live list they stand in the order of their tickets. -/
structure Files (h : Heap) (order : ListName → List Nat) : Prop where
  arranged : h.lists.Arranges order
  mem : ∀ name i, i ∈ order name ↔ h.listAt? i = some name
  sorted : (order .live).Pairwise fun i j => ∀ s t, h.ticketAt? i = some s → h.ticketAt? j = some t → s < t
  tickets : ∀ i t, h.ticketAt? i = some t → t < h.nextTicket

/-- The cells of the lists when one has left its own, and joined another if one is given. -/
def reorder (order : ListName → List Nat) (i : Nat) (new : Option ListName) (name : ListName) : List Nat :=
  if new = some name then (order name).erase i ++ [i] else (order name).erase i

theorem reorder_self (order : ListName → List Nat) (i : Nat) (name : ListName) :
    reorder order i (some name) name = (order name).erase i ++ [i] := if_pos rfl

theorem reorder_other {new : Option ListName} {name : ListName} (order : ListName → List Nat) (i : Nat)
    (hne : new ≠ some name) : reorder order i new name = (order name).erase i := if_neg hne

theorem list?_of_ticket? {p : Place} {t : Nat} (ht : p.ticket? = some t) : p.list? = some .live := by
  cases p with
  | live _ => rfl
  | _ => cases ht

theorem listAt?_of_ticketAt? {t : Nat} (ht : h.ticketAt? i = some t) : h.listAt? i = some .live := by
  obtain ⟨p, hp, ht⟩ := Option.bind_eq_some_iff.mp ht
  exact Option.bind_eq_some_iff.mpr ⟨p, hp, list?_of_ticket? ht⟩

theorem listAt?_of_tenant? (hc : h.tenant? i = some c) : h.listAt? i = c.place.list? := by
  rw [listAt?, placeAt?_of_tenant hc]
  rfl

theorem placeAt?_congr (ht : h'.tenant? i = h.tenant? i) : h'.placeAt? i = h.placeAt? i := by
  rw [placeAt?_eq, placeAt?_eq, ht]

theorem placeAt?_modifyCell (h : Heap) (i : Nat) {f : Cell → Cell} (hplace : ∀ c, (f c).place = c.place)
    (j : Nat) : (h.modifyCell i f).placeAt? j = h.placeAt? j := by
  rw [placeAt?_eq, placeAt?_eq, tenant?_modifyCell]
  split
  · rw [Option.map_map]
    exact congrArg (Option.map · (h.tenant? j)) (funext hplace)
  · rfl

theorem placeAt?_setPlace {p q : Place} (hc : h.tenant? i = some c) (j : Nat) :
    (h.setPlace i p q).placeAt? j = if i = j then some q else h.placeAt? j := by
  rw [placeAt?_eq, placeAt?_eq]
  change ((h.modifyCell i fun c => { c with place := q }).tenant? j).map (·.place) = _
  rw [tenant?_modifyCell]
  split
  · rename_i hij
    rw [← hij, hc]
    rfl
  · rfl

namespace Files

theorem nodup (hf : h.Files order) (name : ListName) : (order name).Nodup := (hf.arranged.spells name).nodup

/-- The head of a list is linked to its first cell. -/
theorem first (hf : h.Files order) (name : ListName) : h.lists.next name none = (order name).head? :=
  (hf.arranged.spells name).first

/-- A cell is linked to the cell behind it. -/
theorem behind {name : ListName} {xs ys : List Nat} (hf : h.Files order) (hs : order name = xs ++ i :: ys) :
    h.lists.next name (some i) = ys.head? := by
  have hspells := hf.arranged.spells name
  rw [hs] at hspells
  exact hspells.behind

theorem mem_candidates (hf : h.Files order) : i ∈ order .candidates ↔ h.placeAt? i = some .candidate := by
  rw [hf.mem, listAt?, Option.bind_eq_some_iff]
  refine ⟨fun ⟨p, hp, hl⟩ => ?_, fun hp => ⟨.candidate, hp, rfl⟩⟩
  cases p with
  | candidate => exact hp
  | _ => cases hl

/-- Cells and lists change, and no cell in its place. -/
theorem of_places (hf : h.Files order) (hplaces : ∀ j, h'.placeAt? j = h.placeAt? j)
    (hlists : h'.lists = h.lists) (htickets : h'.nextTicket = h.nextTicket) : h'.Files order := by
  have hlist : ∀ j, h'.listAt? j = h.listAt? j := fun j => by rw [listAt?, hplaces, listAt?]
  have hticket : ∀ j, h'.ticketAt? j = h.ticketAt? j := fun j => by rw [ticketAt?, hplaces, ticketAt?]
  refine ⟨hlists ▸ hf.arranged, fun name j => by rw [hlist]; exact hf.mem name j, ?_, fun j t ht => ?_⟩
  · simp only [hticket]
    exact hf.sorted
  · rw [htickets]
    exact hf.tickets j t (by rwa [hticket] at ht)

/-- A slot gets another place, and what is there moves from list to list.  The ticket it may get is a
new one. -/
theorem moves {q : Option Place} (hf : h.Files order)
    (hplaces : ∀ j, h'.placeAt? j = if i = j then q else h.placeAt? j)
    (hlists : h'.lists = h.lists.move i (h.listAt? i) (q.bind Place.list?))
    (hnew : ∀ t, q.bind Place.ticket? = some t → h.nextTicket ≤ t ∧ t < h'.nextTicket)
    (hle : h.nextTicket ≤ h'.nextTicket) : h'.Files (reorder order i (q.bind Place.list?)) := by
  have hgone : ∀ name, i ∉ (order name).erase i := fun name hi =>
    ((hf.nodup name).mem_erase_iff.mp hi).1 rfl
  have hother : ∀ j, j ≠ i → h'.placeAt? j = h.placeAt? j := fun j hj => by
    rw [hplaces, if_neg (Ne.symm hj)]
  have hself : h'.placeAt? i = q := by rw [hplaces, if_pos rfl]
  refine ⟨?_, fun name j => ?_, ?_, fun j t ht => ?_⟩
  · rw [hlists]
    exact (hf.arranged.leave fun name => hf.mem name i).join hgone _
  · have hmem : j ∈ (order name).erase i ↔ j ≠ i ∧ h.listAt? j = some name :=
      (hf.nodup name).mem_erase_iff.trans (and_congr_right' (hf.mem name j))
    by_cases hj : j = i
    · subst hj
      rw [listAt?, hself, reorder]
      split
      · rename_i hlist
        exact iff_of_true (by simp) hlist
      · rename_i hlist
        exact iff_of_false (hgone name) hlist
    · have hkeep : h'.listAt? j = h.listAt? j := by rw [listAt?, hother j hj, listAt?]
      rw [hkeep, reorder]
      split
      · rw [List.mem_append, hmem, List.mem_singleton]
        simp [hj]
      · rw [hmem]
        simp [hj]
  · have hkeep : ∀ j ∈ (order .live).erase i, h'.ticketAt? j = h.ticketAt? j := fun j hj => by
      rw [ticketAt?, hother j ((hf.nodup _).mem_erase_iff.mp hj).1, ticketAt?]
    have hrest : ((order .live).erase i).Pairwise fun j k =>
        ∀ s t, h'.ticketAt? j = some s → h'.ticketAt? k = some t → s < t := by
      refine (hf.sorted.erase i).imp_of_mem fun {j k} hj hk hlt => ?_
      rw [hkeep j hj, hkeep k hk]
      exact hlt
    rw [reorder]
    split
    · refine List.pairwise_append.mpr ⟨hrest, List.pairwise_singleton _ _, fun j hj k hk s t hs ht => ?_⟩
      -- the cell that joined has the latest ticket
      obtain rfl := List.mem_singleton.mp hk
      rw [hkeep j hj] at hs
      rw [ticketAt?, hself] at ht
      exact Nat.lt_of_lt_of_le (hf.tickets j s hs) (hnew t ht).1
    · exact hrest
  · by_cases hj : j = i
    · subst hj
      rw [ticketAt?, hself] at ht
      exact (hnew t ht).2
    · rw [ticketAt?, hother j hj] at ht
      exact Nat.lt_of_lt_of_le (hf.tickets j t ht) hle

/-- A cell moves from its list to another, if that is not the live list. -/
theorem setPlace {q : Place} (hf : h.Files order) (hc : h.tenant? i = some c) (hq : q.isLive = false) :
    (h.setPlace i c.place q).Files (reorder order i q.list?) := by
  refine hf.moves (q := some q) (placeAt?_setPlace hc) (by rw [listAt?_of_tenant? hc]; rfl) (fun t ht => ?_)
    (Nat.le_refl _)
  rw [Option.bind_some] at ht
  rw [Place.isLive, ht] at hq
  cases hq

/-- A cell joins the live list, with a new ticket. -/
theorem joinLive (hf : h.Files order) (hc : h.tenant? i = some c) :
    (h.joinLive i c.place).Files (reorder order i (some .live)) := by
  refine hf.moves (q := some (.live h.nextTicket)) (placeAt?_setPlace (p := c.place) hc)
    (by rw [listAt?_of_tenant? hc]; rfl) (fun t ht => ?_) (Nat.le_succ _)
  cases ht
  exact ⟨Nat.le_refl _, Nat.lt_succ_self _⟩

/-- A cell that is freed leaves its list. -/
theorem free (hf : h.Files order) (e : h.free i = .ok h') : h'.Files (reorder order i none) := by
  obtain ⟨c, hc, _, _, heq⟩ := free_eq_ok_iff.mp e
  refine hf.moves (i := i) (q := none) (fun j => ?_) (by rw [listAt?_of_tenant? hc, heq]; rfl)
    (fun _ ht => by cases ht) (by rw [heq])
  rw [placeAt?_eq, placeAt?_eq, tenant?_free e]
  split
  · rfl
  · rfl

theorem shift (hf : h.Files order) (e : Shift h h') : ∃ order', h'.Files order' := by
  cases e with
  | aside hslots _ _ hlists htickets =>
    refine ⟨order, hf.of_places (fun j => ?_) hlists htickets⟩
    rw [placeAt?, hslots, placeAt?]
  | touch i _ hplace => exact ⟨order, hf.of_places (placeAt?_modifyCell h i hplace) rfl rfl⟩
  | relist i hc hnew => exact ⟨_, hf.setPlace hc hnew⟩
  | join i hc => exact ⟨_, hf.joinLive hc⟩
  | rewrite i _ => exact ⟨order, hf.of_places (placeAt?_modifyCell h i fun _ => rfl) rfl rfl⟩
  | free hfree => exact ⟨_, hf.free hfree⟩
  | widen =>
    exact ⟨order, hf.of_places (fun j => by rw [placeAt?_eq, placeAt?_eq, tenant?_widen]) rfl rfl⟩
  | close i r => exact ⟨order, hf.of_places (fun _ => rfl) rfl rfl⟩

/-- A cell that is made joins the live list, or none. -/
theorem putCell {p : Reservation} {body : Body} {listed : Bool} {r : Handle} (hf : h.Files order)
    (e : h.putCell p body listed = .ok (r, h')) : ∃ order', h'.Files order' := by
  obtain ⟨hvac, _, _, _, _, htenant⟩ := putCell_eq_ok e
  have hlist : h.listAt? p.index = none := by
    rw [listAt?, placeAt?_eq, hvac]
    rfl
  have hplaces : ∀ j, h'.placeAt? j = if p.index = j then
      some (if listed then .live h.nextTicket else .unlisted) else h.placeAt? j := fun j => by
    rw [placeAt?_eq, placeAt?_eq, htenant]
    split
    · rfl
    · rfl
  unfold Heap.putCell at e
  split at e
  · cases e
  · split at e
    · cases e
    · cases listed with
      | false =>
        cases e
        exact ⟨_, hf.moves hplaces (by rw [hlist]; rfl) (fun _ ht => by cases ht) (Nat.le_refl _)⟩
      | true =>
        cases e
        refine ⟨_, hf.moves hplaces (by rw [hlist]; rfl) (fun t ht => ?_) (Nat.le_succ _)⟩
        cases ht
        exact ⟨Nat.le_refl _, Nat.lt_succ_self _⟩

theorem stroke (hf : h.Files order) (e : Stroke births h h') : ∃ order', h'.Files order' := by
  cases e with
  | shift e => exact hf.shift e
  | edit _ i hplace => exact ⟨order, hf.of_places (placeAt?_modifyCell h i hplace) rfl rfl⟩
  | make ht ho hp =>
    rename_i h₁ h₂ _ _ _ _ _ _
    obtain ⟨_, _, htenant⟩ := takeSlot_eq_ok ht
    have hrest := takeSlot_rest ht
    have hf₁ : h₁.Files order :=
      hf.of_places (fun j => placeAt?_congr (htenant j)) (by rw [hrest]) (by rw [hrest])
    rcases retainOption_cases ho with rfl | ⟨q, rfl⟩
    · exact hf₁.putCell hp
    · have hplaces := placeAt?_modifyCell h₁ q.index (f := fun c => { c with refCount := c.refCount + 1 })
        fun _ => rfl
      exact (hf₁.of_places hplaces rfl rfl).putCell hp
  | enter => exact ⟨order, hf.of_places (fun _ => rfl) rfl rfl⟩
  | inside => exact ⟨order, hf.of_places (fun _ => rfl) rfl rfl⟩
  | leave => exact ⟨order, hf.of_places (fun _ => rfl) rfl rfl⟩

end Files

theorem files_new (config : Config) : (new config).Files fun _ => [] :=
  have hplace : ∀ i, (new config).placeAt? i = none := fun i => by simp [placeAt?, new]
  ⟨CellLists.arranges_empty, fun name i => by simp [listAt?, hplace], .nil,
    fun i t ht => by simp [ticketAt?, hplace] at ht⟩

/-! ## The live list -/

theorem mem_liveTickets {p : Nat × Nat} : p ∈ h.liveTickets ↔ h.ticketAt? p.2 = some p.1 := by
  obtain ⟨t, i⟩ := p
  simp only [liveTickets, List.mem_filterMap, List.mem_range]
  constructor
  · rintro ⟨j, _, hj⟩
    obtain ⟨s, hs, he⟩ := Option.map_eq_some_iff.mp hj
    cases he
    exact hs
  · intro ht
    refine ⟨i, ?_, Option.map_eq_some_iff.mpr ⟨t, ht, rfl⟩⟩
    obtain ⟨place, hp, _⟩ := Option.bind_eq_some_iff.mp ht
    rw [placeAt?_eq] at hp
    obtain ⟨c, hc, _⟩ := Option.map_eq_some_iff.mp hp
    exact lt_size_of_tenant hc

theorem nodup_liveTickets (h : Heap) : h.liveTickets.Nodup :=
  List.Nodup.filterMap (fun i j p hi hj => by
    obtain ⟨_, _, rfl⟩ := Option.map_eq_some_iff.mp hi
    obtain ⟨_, _, he⟩ := Option.map_eq_some_iff.mp hj
    exact (Prod.ext_iff.mp he).2.symm) List.nodup_range

theorem Files.ticket (hf : h.Files order) (hi : i ∈ order .live) : ∃ t, h.ticketAt? i = some t := by
  obtain ⟨p, hp, hl⟩ := Option.bind_eq_some_iff.mp ((hf.mem _ _).mp hi)
  cases p with
  | live t => exact ⟨t, Option.bind_eq_some_iff.mpr ⟨_, hp, rfl⟩⟩
  | _ => cases hl

/-- No ticket is given away twice. -/
theorem Files.slot_eq_of_ticket (hf : h.Files order) {t : Nat} (hi : h.ticketAt? i = some t)
    (hj : h.ticketAt? j = some t) : i = j := by
  have hmem : ∀ k, h.ticketAt? k = some t → k ∈ order .live := fun k hk =>
    (hf.mem _ _).mpr (listAt?_of_ticketAt? hk)
  have hnodup : ((order .live).map h.ticketAt?).Nodup := by
    refine List.pairwise_map.mpr (hf.sorted.imp_of_mem fun {i j} hi _ hlt he => ?_)
    obtain ⟨s, hs⟩ := hf.ticket hi
    exact Nat.lt_irrefl s (hlt s s hs (he ▸ hs))
  exact List.inj_on_of_nodup_map hnodup (hmem i hi) (hmem j hj) (hi.trans hj.symm)

/-- Sorting the tickets gives the live list in its order. -/
theorem Files.live_eq (hf : h.Files order) : order .live = h.liveOrder := by
  -- the list with its tickets has the members that the sorted list has
  have hpairs : ((order .live).map fun i => ((h.ticketAt? i).getD 0, i)) =
      h.liveTickets.mergeSort fun a b => a.1 ≤ b.1 := by
    refine @List.Perm.eq_of_pairwise _ (fun a b => a.1 ≤ b.1) _ _ (fun a b ha hb hab hba => ?_) ?_ ?_ ?_
    · rw [List.mem_mergeSort, mem_liveTickets] at hb
      obtain ⟨i, hi, rfl⟩ := List.mem_map.mp ha
      obtain ⟨s, hs⟩ := hf.ticket hi
      rw [hs, Option.getD_some] at hab hba ⊢
      obtain rfl : s = b.1 := Nat.le_antisymm hab hba
      rw [hf.slot_eq_of_ticket hs hb]
    · refine List.pairwise_map.mpr (hf.sorted.imp_of_mem fun {i j} hi hj hlt => ?_)
      obtain ⟨s, hs⟩ := hf.ticket hi
      obtain ⟨t, ht⟩ := hf.ticket hj
      rw [hs, ht]
      exact Nat.le_of_lt (hlt s t hs ht)
    · refine (List.pairwise_mergeSort (fun a b c hab hbc => ?_) (fun a b => ?_) _).imp fun {a b} hab => ?_
      · exact decide_eq_true (Nat.le_trans (of_decide_eq_true hab) (of_decide_eq_true hbc))
      · rw [← Bool.decide_or]
        exact decide_eq_true (Nat.le_total _ _)
      · exact of_decide_eq_true hab
    · refine List.Perm.trans ?_ (List.mergeSort_perm _ _).symm
      refine (List.perm_ext_iff_of_nodup ?_ h.nodup_liveTickets).mpr fun p => ?_
      · exact (hf.nodup _).map fun i j hij => (Prod.ext_iff.mp hij).2
      · rw [mem_liveTickets, List.mem_map]
        constructor
        · rintro ⟨i, hi, rfl⟩
          obtain ⟨t, ht⟩ := hf.ticket hi
          rw [ht]
          rfl
        · intro ht
          exact ⟨p.2, (hf.mem _ _).mpr (listAt?_of_ticketAt? ht), by rw [ht]; rfl⟩
  have hmap := congrArg (List.map (·.2)) hpairs
  rw [List.map_map] at hmap
  simpa [liveOrder, Function.comp_def] using hmap

/-! ## Vacant slots -/

theorem Roomy.stroke (hr : h.Roomy) (e : Stroke births h h') : h'.Roomy := by
  cases e with
  | shift e => exact e.roomy hr
  | edit _ i _ => exact hr.modifyCell i _
  | make ht ho hp => exact (puts_of_make ht ho hp).roomy hr
  | enter => exact hr.of_slots rfl rfl
  | inside => exact hr.of_slots rfl rfl
  | leave => exact hr.of_slots rfl rfl

/-- Every vacant slot is marked vacant. -/
def Fallow (h : Heap) : Prop := ∀ i, i < h.slots.size → h.tenant? i = none → i ∈ h.freeSlots

theorem fallow_new (config : Config) : (new config).Fallow := fun _ hi _ => absurd hi (Nat.not_lt_zero _)

namespace Fallow

/-- Cells change, and no slot is taken or vacated. -/
theorem of_views (hw : h.Fallow) (hfree : h'.freeSlots = h.freeSlots) (hsize : h'.slots.size = h.slots.size)
    (hvacant : ∀ i, h'.tenant? i = none → h.tenant? i = none) : h'.Fallow := by
  intro i hi hnone
  rw [hsize] at hi
  rw [hfree]
  exact hw i hi (hvacant i hnone)

theorem of_slots (hw : h.Fallow) (hslots : h'.slots = h.slots) (hfree : h'.freeSlots = h.freeSlots) :
    h'.Fallow :=
  hw.of_views hfree (by rw [hslots]) fun i hi => by
    unfold tenant? at hi ⊢
    rwa [hslots] at hi

theorem modifyCell (hw : h.Fallow) (i : Nat) (f : Cell → Cell) : (h.modifyCell i f).Fallow := by
  refine hw.of_views rfl (size_modifyCell h i f) fun j hj => ?_
  rw [tenant?_modifyCell] at hj
  split at hj
  · exact Option.map_eq_none_iff.mp hj
  · exact hj

theorem setPlace (hw : h.Fallow) (i : Nat) (old new : Place) : (h.setPlace i old new).Fallow :=
  (hw.modifyCell i fun c => { c with place := new }).of_slots rfl rfl

theorem free (hw : h.Fallow) (hf : h.free i = .ok h') : h'.Fallow := by
  obtain ⟨c, _, _, _, heq⟩ := free_eq_ok_iff.mp hf
  intro j hj hnone
  have hsize : h'.slots.size = h.slots.size := by rw [heq, Array.size_modify]
  rw [tenant?_free hf] at hnone
  have hfree : h'.freeSlots = i :: h.freeSlots := by rw [heq]
  rw [hfree]
  split at hnone
  · rename_i hij
    exact hij ▸ List.mem_cons_self
  · exact List.mem_cons_of_mem _ (hw j (hsize ▸ hj) hnone)

theorem shift (hw : h.Fallow) (e : Shift h h') : h'.Fallow := by
  cases e with
  | aside hslots hfree _ => exact hw.of_slots hslots hfree
  | touch i _ _ => exact hw.modifyCell i _
  | relist i _ _ => exact hw.setPlace i _ _
  | @join i c _ => exact (hw.setPlace i c.place (.live h.nextTicket)).of_slots rfl rfl
  | rewrite i _ => exact hw.modifyCell i _
  | free hf => exact hw.free hf
  | widen =>
    intro j hj hnone
    rw [size_widen] at hj
    rw [tenant?_widen] at hnone
    rcases Nat.lt_succ_iff_lt_or_eq.mp hj with hj | rfl
    · exact List.mem_cons_of_mem _ (hw j hj hnone)
    · exact List.mem_cons_self
  | close i r => exact hw.of_slots rfl rfl

/-- Of the vacant slots only the one that is taken loses its mark. -/
theorem takeSlot (hw : h.Fallow) (e : h.takeSlot = .ok (i, h')) :
    ∀ j, j < h'.slots.size → h'.tenant? j = none → j = i ∨ j ∈ h'.freeSlots := by
  obtain ⟨_, _, htenant⟩ := takeSlot_eq_ok e
  intro j hj hnone
  rw [htenant] at hnone
  unfold Heap.takeSlot at e
  split at e
  · rename_i k rest hfree
    cases e
    have hmem := hw j hj hnone
    rw [hfree] at hmem
    exact List.mem_cons.mp hmem
  · rename_i hfree
    split at e
    · cases e
      rw [Array.size_push] at hj
      rcases Nat.lt_succ_iff_lt_or_eq.mp hj with hlt | heq
      · exact .inr (hw j hlt hnone)
      · exact .inl heq
    · cases e

/-- The slot that was taken is not vacant when the cell is in it. -/
theorem make {h₂ : Heap} {p : Reservation} {o : Option Handle} {u : Unit} {body : Body} {listed : Bool}
    {r : Handle} (hw : h.Fallow) (ht : h.takeSlot = .ok (p.index, h₁))
    (ho : HeapM.retainOption o h₁ = .ok (u, h₂)) (hp : h₂.putCell p body listed = .ok (r, h')) :
    h'.Fallow := by
  obtain ⟨_, _, _, hsize, _, htenant⟩ := putCell_eq_ok hp
  have hfree : h'.freeSlots = h₂.freeSlots := freeSlots_of_putCell hp
  have hback : ∀ j, h₂.tenant? j = none → h₁.tenant? j = none := by
    rcases retainOption_cases ho with rfl | ⟨q, rfl⟩
    · exact fun _ hj => hj
    · intro j hj
      rw [tenant?_modifyCell] at hj
      split at hj
      · exact Option.map_eq_none_iff.mp hj
      · exact hj
  have hsize₂ : h₂.slots.size = h₁.slots.size ∧ h₂.freeSlots = h₁.freeSlots := by
    rcases retainOption_cases ho with rfl | ⟨q, rfl⟩
    · exact ⟨rfl, rfl⟩
    · exact ⟨size_modifyCell h₁ q.index _, rfl⟩
  intro j hj hnone
  rw [htenant] at hnone
  rw [hsize, hsize₂.1] at hj
  rw [hfree, hsize₂.2]
  split at hnone
  · cases hnone
  · rename_i hne
    exact (hw.takeSlot ht j hj (hback j hnone)).resolve_left (Ne.symm hne)

theorem stroke (hw : h.Fallow) (e : Stroke births h h') : h'.Fallow := by
  cases e with
  | shift e => exact hw.shift e
  | edit _ i _ => exact hw.modifyCell i _
  | make ht ho hp => exact hw.make ht ho hp
  | enter => exact hw.of_slots rfl rfl
  | inside => exact hw.of_slots rfl rfl
  | leave => exact hw.of_slots rfl rfl

end Fallow

/-! ## Every run -/

/-- The registry tells what is in the slots. -/
structure Kept (h : Heap) : Prop where
  files : ∃ order, h.Files order
  roomy : h.Roomy
  fallow : h.Fallow

theorem kept_new (config : Config) : (new config).Kept :=
  ⟨⟨_, files_new config⟩, roomy_new config, fallow_new config⟩

theorem Kept.stroke (hk : h.Kept) (e : Stroke births h h') : h'.Kept := by
  obtain ⟨_, hf⟩ := hk.files
  exact ⟨hf.stroke e, hk.roomy.stroke e, hk.fallow.stroke e⟩

/-- Whoever asks for what, the registry tells what is in the slots afterwards. -/
theorem Kept.operation (hk : h.Kept) (op : Operation) {reply : Reply} (e : op.perform h = .ok (reply, h')) :
    h'.Kept :=
  (op.strokes e).keeps (fun e hk => hk.stroke e) hk

theorem Kept.mem_freeSlots (hk : h.Kept) : i ∈ h.freeSlots ↔ i < h.slots.size ∧ h.tenant? i = none :=
  ⟨hk.roomy.vacant i, fun hi => hk.fallow i hi.1 hi.2⟩

/-- What the registry looks like between two operations. -/
structure AtRest (h : Heap) : Prop where
  idle : h.phase = .idle
  noneWaiting : h.zeroRefs.toList = []
  candidates : h.lists.Spells .candidates []
  waiting : h.lists.Spells .waiting []
  /-- the live list, linked in both directions, is made of the cells in the order they joined it -/
  live : h.lists.Spells .live h.liveOrder
  /-- these are the cells that are no attached variables -/
  members : ∀ i, i ∈ h.liveOrder ↔
    ∃ c, h.tenant? i = some c ∧ ∀ id slot, c.body ≠ .captured (.attached id slot)
  unmarked : ∀ i c, h.tenant? i = some c → c.mark = false
  whole : ∀ i c, h.tenant? i = some c → ∀ k, c.body ≠ .zombie k
  vacant : ∀ i, i ∈ h.freeSlots ↔ i < h.slots.size ∧ h.tenant? i = none
  vacantOnce : h.freeSlots.Nodup
  taken : h.liveCells = (List.range h.slots.size).countP fun i => (h.tenant? i).isSome

theorem frame?_eq_none_iff {b : Body} :
    b.frame? = none ↔ ∀ id slot, b ≠ .captured (.attached id slot) := by
  cases b with
  | captured v =>
    cases v with
    | attached id slot => exact iff_of_false (by simp [Body.frame?]) fun h => h id slot rfl
    | detached v => simp [Body.frame?]
  | _ => simp [Body.frame?]

/-- The cells of a heap are as many as the slots that are taken. -/
theorem total_one (h : Heap) :
    (h.total fun _ => 1) = (List.range h.slots.size).countP fun i => (h.tenant? i).isSome := by
  have hnodup : ((List.range h.slots.size).filter fun i => (h.tenant? i).isSome).Nodup :=
    List.nodup_range.filter _
  have hsum := h.sum_map_eq_total (f := fun _ => 1) hnodup
    (fun i hi => List.mem_range.mp (List.mem_of_mem_filter hi)) fun i hi => ?_
  · rw [← hsum, List.countP_eq_length_filter]
    have hone : ∀ i ∈ (List.range h.slots.size).filter fun i => (h.tenant? i).isSome,
        (h.tenant? i).elim 0 (fun _ => 1) = 1 := fun i hi => by
      obtain ⟨c, hc⟩ := Option.isSome_iff_exists.mp (List.mem_filter.mp hi).2
      rw [hc]
      rfl
    rw [List.map_congr_left hone]
    simp
  · cases hc : h.tenant? i with
    | none => rfl
    | some c =>
      exact absurd (List.mem_filter.mpr ⟨List.mem_range.mpr (lt_size_of_tenant hc), by rw [hc]; rfl⟩) hi

/-- No cell of a heap at rest is on another list than the live one. -/
theorem Files.eq_nil {x : Ledger} {n : Nat} (hf : h.Files order) (hs : h.Sound x n) {name : ListName}
    (hne : name ≠ .live) : order name = [] := by
  refine List.eq_nil_iff_forall_not_mem.mpr fun i hi => ?_
  obtain ⟨p, hp, hl⟩ := Option.bind_eq_some_iff.mp ((hf.mem name i).mp hi)
  rw [placeAt?_eq] at hp
  obtain ⟨c, hc, rfl⟩ := Option.map_eq_some_iff.mp hp
  have hset := hs.settled i c hc
  cases hplace : c.place with
  | unlisted => rw [hplace] at hl; cases hl
  | live t => rw [hplace] at hl; exact hne (Option.some.inj hl).symm
  | _ =>
    have hlive := hset.place
    rw [hplace] at hlive
    have hun := hset.unlisted (by
      cases hfr : c.body.frame? with
      | none => rw [hfr] at hlive; cases hlive
      | some _ => rfl)
    rw [hplace] at hun
    cases hun

theorem Kept.at_rest {x : Ledger} {n : Nat} (hk : h.Kept) (hs : h.Sound x n) : h.AtRest := by
  obtain ⟨order, hf⟩ := hk.files
  have hspells := hf.arranged.spells
  refine ⟨hs.idle, hs.noneWaiting, ?_, ?_, hf.live_eq ▸ hspells .live, fun i => ?_, fun i c hc =>
    (hs.settled i c hc).mark, fun i c hc k hz => ?_, fun i => hk.mem_freeSlots, hk.roomy.nodup, ?_⟩
  · exact hf.eq_nil hs (by decide : ListName.candidates ≠ .live) ▸ hspells .candidates
  · exact hf.eq_nil hs (by decide : ListName.waiting ≠ .live) ▸ hspells .waiting
  · simp only [hs.tracks.mem_iff, frame?_eq_none_iff]
  · have hbody := (hs.settled i c hc).body
    rw [hz] at hbody
    cases hbody
  · rw [← total_one]
    exact hs.coherent.accounted.cells

end Heap

namespace Client

variable {allowed : Operation → Prop} {config : Config} {h : Heap} {x : Ledger}

theorem Reached.registry_kept (hr : Reached allowed config h x) : h.Kept := by
  induction hr with
  | start => exact Heap.kept_new config
  | next _ op _ _ e ih => exact ih.operation op e

/-- After every operation of a client that keeps its books the registry is at rest, and tells what is in
the slots. -/
theorem registry_well_formed (hr : Reached (fun _ => True) config h x) : h.AtRest := by
  obtain ⟨_, _, hv⟩ := hr.valid
  exact hr.registry_kept.at_rest hv.sound

/-- A variable is attached to a frame, two objects of one shape are made, and the first of them goes: the
shape and the second object are each other's neighbours. -/
theorem registry_well_formed_after_free : ∃ h x, Reached (fun _ => True) .default h x ∧
    h.lists.live = ⟨some 1, some 3, 2⟩ ∧ h.lists.link 1 = ⟨none, some 3⟩ ∧ h.lists.link 3 = ⟨some 1, none⟩ ∧
    h.freeSlots = [2] ∧ h.AtRest := by
  obtain ⟨h₁, e₁, hrest⟩ := ok_of_answers (x := (Call.pushFrame #[.smi 5]).perform (.new .default))
    (a := .frame ⟨0, 0⟩) (t := fun h => answers ((Call.captureVariable ⟨0, 0⟩ 0).perform h) (.handle ⟨0, 0⟩)
      fun h => answers ((Call.newObject none).perform h) (.handle ⟨2, 0⟩)
      fun h => answers ((Call.newObject none).perform h) (.handle ⟨3, 0⟩)
      fun h => answers ((Call.release ⟨2, 0⟩).perform h) .done
      fun h => decide (h.lists.live = ⟨some 1, some 3, 2⟩ ∧ h.lists.link 1 = ⟨none, some 3⟩ ∧
        h.lists.link 3 = ⟨some 1, none⟩ ∧ h.freeSlots = [2]))
    (by decide +kernel)
  obtain ⟨h₂, e₂, hrest⟩ := ok_of_answers hrest
  obtain ⟨h₃, e₃, hrest⟩ := ok_of_answers hrest
  obtain ⟨h₄, e₄, hrest⟩ := ok_of_answers hrest
  obtain ⟨h₅, e₅, hrest⟩ := ok_of_answers hrest
  obtain ⟨hhead, hlink₁, hlink₃, hfree⟩ := of_decide_eq_true hrest
  have hstart : Reached (fun _ => True) .default (.new .default) .empty := .start
  have hr₁ := hstart.next (.call (.pushFrame #[.smi 5])) trivial (.of_nothing rfl rfl) e₁
  have hr₂ := hr₁.next (.call (.captureVariable ⟨0, 0⟩ 0)) trivial (.of_nothing rfl rfl) e₂
  have hr₃ := hr₂.next (.call (.newObject none)) trivial (.of_nothing rfl rfl) e₃
  have hr₄ := hr₃.next (.call (.newObject none)) trivial (.of_nothing rfl rfl) e₄
  have hr₅ := hr₄.next (.call (.release ⟨2, 0⟩)) trivial ⟨fun r => ?_, fun p hp => by cases hp⟩ e₅
  · exact ⟨h₅, _, hr₅, hhead, hlink₁, hlink₃, hfree, registry_well_formed hr₅⟩
  · simp only [Operation.settle_apply, Operation.consumed, Operation.gained, Call.consumed, Call.gained,
      Reply.refs, Ledger.empty_apply, List.count_cons, List.count_nil, beq_iff_eq]
    grind

end Client

end ObjectMemory
