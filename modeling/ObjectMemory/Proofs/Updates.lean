import ObjectMemory.Proofs.References
import ObjectMemory.Proofs.CallHistory
set_option autoImplicit false

/-!
# Changes of one cell

Seen through handles, a heap is a partial function to cells, and every primitive changes it at one
handle: `Heap.Updates s new h h'` says that `h'` has `new` at `s` and is `h` elsewhere, also in every
total.  Releasing, freeing, making a cell and editing one are all of this form.
-/

namespace ObjectMemory.Heap

variable {h h₁ h' : Heap} {i : Nat} {c : Cell} {r s : Handle} {new : Option Cell}

/-- The heaps have the same cells under the same handles. -/
structure SameCells (h h' : Heap) : Prop where
  cell : ∀ r, h'.cell? r = h.cell? r
  tenant : ∀ i, h'.tenant? i = h.tenant? i
  total : ∀ f : Cell → Nat, h'.total f = h.total f

/-- `h'` is `h` but for the handle `s`, which names `new`. -/
structure Updates (s : Handle) (new : Option Cell) (h h' : Heap) : Prop where
  cell : ∀ r, h'.cell? r = if r = s then new else h.cell? r
  tenant : ∀ i, h'.tenant? i = if i = s.index then new else h.tenant? i
  total : ∀ f : Cell → Nat, h'.total f + (h.cell? s).elim 0 f = h.total f + new.elim 0 f

namespace SameCells

theorem of_slots (hs : h'.slots = h.slots) : SameCells h h' := by
  refine ⟨fun r => ?_, fun i => ?_, fun f => ?_⟩
  · unfold cell?
    rw [hs]
  · unfold tenant?
    rw [hs]
  · unfold Heap.total
    rw [hs]

theorem of_views (ht : ∀ j, h'.tenant? j = h.tenant? j) (hf : ∀ j, h'.frees j = h.frees j) :
    SameCells h h' :=
  ⟨fun r => cell?_congr (ht r.index) (hf r.index), ht, fun f => total_congr fun j => by rw [ht]⟩

theorem body? (e : SameCells h h') (r : Handle) : h'.body? r = h.body? r := by
  unfold Heap.body?
  rw [e.cell]

theorem kind? (e : SameCells h h') (r : Handle) : h'.kind? r = h.kind? r := by
  unfold Heap.kind?
  rw [e.cell]

theorem contains (e : SameCells h h') (r : Handle) : h'.contains r = h.contains r := by
  unfold Heap.contains
  rw [e.cell]

end SameCells

namespace Updates

theorem then_same (e : Updates s new h h₁) (e' : SameCells h₁ h') : Updates s new h h' :=
  ⟨fun r => (e'.cell r).trans (e.cell r), fun i => (e'.tenant i).trans (e.tenant i),
    fun f => by rw [e'.total]; exact e.total f⟩

theorem then_slots (e : Updates s new h h₁) (hs : h'.slots = h₁.slots) : Updates s new h h' :=
  e.then_same (.of_slots hs)

theorem after_same (e' : SameCells h h₁) (e : Updates s new h₁ h') : Updates s new h h' := by
  refine ⟨fun r => by rw [e.cell, e'.cell], fun i => by rw [e.tenant, e'.tenant], fun f => ?_⟩
  rw [← e'.total, ← e'.cell]
  exact e.total f

/-- Two changes under one handle are one. -/
theorem trans {c₁ : Option Cell} (e₁ : Updates s c₁ h h₁) (e₂ : Updates s new h₁ h') :
    Updates s new h h' := by
  refine ⟨fun r => ?_, fun i => ?_, fun f => ?_⟩
  · rw [e₂.cell, e₁.cell]
    split <;> rfl
  · rw [e₂.tenant, e₁.tenant]
    split <;> rfl
  · have htotal₁ := e₁.total f
    have htotal₂ := e₂.total f
    rw [e₁.cell, if_pos rfl] at htotal₂
    omega

theorem cell_self (e : Updates s new h h') : h'.cell? s = new := by
  rw [e.cell, if_pos rfl]

theorem cell_other (e : Updates s new h h') (hr : r ≠ s) : h'.cell? r = h.cell? r := by
  rw [e.cell, if_neg hr]

theorem tenant_self (e : Updates s new h h') : h'.tenant? s.index = new := by
  rw [e.tenant, if_pos rfl]

theorem tenant_other (e : Updates s new h h') (hi : i ≠ s.index) : h'.tenant? i = h.tenant? i := by
  rw [e.tenant, if_neg hi]

theorem body_other (e : Updates s new h h') (hr : r ≠ s) : h'.body? r = h.body? r := by
  unfold Heap.body?
  rw [e.cell_other hr]

theorem body_self (e : Updates s (some c) h h') : h'.body? s = some c.body := by
  unfold Heap.body?
  rw [e.cell_self]
  rfl

/-- A handle of another generation of the slot names nothing. -/
theorem cell?_eq_none_of_index (hc : h.cell? s = some c) (hi : r.index = s.index) (hr : r ≠ s) :
    h.cell? r = none := by
  cases hr' : h.cell? r with
  | none => rfl
  | some d =>
    have h₁ := handle_eq_of_cell? hr'
    rw [hi, handle_eq_of_cell? hc] at h₁
    exact absurd h₁.symm hr

theorem modifyCell (hc : h.cell? s = some c) (g : Cell → Cell) :
    Updates s (some (g c)) h (h.modifyCell s.index g) := by
  refine ⟨fun r => ?_, fun i => ?_, fun f => ?_⟩
  · rw [cell?_modifyCell]
    by_cases hr : r = s
    · subst hr
      rw [if_pos rfl, if_pos rfl, hc]
      rfl
    · rw [if_neg hr]
      split
      · rename_i hi
        rw [cell?_eq_none_of_index hc hi.symm hr]
        rfl
      · rfl
  · rw [tenant?_modifyCell]
    by_cases hi : s.index = i
    · rw [if_pos hi, if_pos hi.symm, ← hi, tenant?_of_cell? hc]
      rfl
    · rw [if_neg hi, if_neg (Ne.symm hi)]
  · rw [hc]
    exact total_modifyCell f g (tenant?_of_cell? hc)

theorem setPlace (hc : h.cell? s = some c) (old place : Place) :
    Updates s (some { c with place := place }) h (h.setPlace s.index old place) :=
  (modifyCell hc fun c => { c with place := place }).then_slots rfl

theorem joinLive (hc : h.cell? s = some c) (old : Place) :
    Updates s (some { c with place := .live h.nextTicket }) h (h.joinLive s.index old) :=
  (setPlace hc old (.live h.nextTicket)).then_slots rfl

theorem free (hc : h.cell? s = some c) (hf : h.free s.index = .ok h') : Updates s none h h' := by
  have ht := tenant?_of_cell? hc
  refine ⟨fun r => ?_, fun i => ?_, fun f => ?_⟩
  · by_cases hi : s.index = r.index
    · have hgone : h'.cell? r = none := by
        cases hr : h'.cell? r with
        | none => rfl
        | some d =>
          have htr := tenant?_of_cell? hr
          rw [tenant?_free hf, if_pos hi] at htr
          cases htr
      rw [hgone]
      split
      · rfl
      · rename_i hr
        rw [cell?_eq_none_of_index hc hi.symm hr]
    · have hr : r ≠ s := fun hr => hi (by rw [hr])
      rw [if_neg hr]
      exact cell?_congr (by rw [tenant?_free hf, if_neg hi]) (by rw [frees_free hf, if_neg hi])
  · rw [tenant?_free hf]
    by_cases hi : s.index = i
    · rw [if_pos hi, if_pos hi.symm]
    · rw [if_neg hi, if_neg (Ne.symm hi)]
  · rw [hc]
    exact total_free f hf ht

/-- A new cell is put under a handle that named nothing. -/
theorem putCell {p : Reservation} {body : Body} {listed : Bool}
    (e : h.putCell p body listed = .ok (r, h')) : h.cell? r = none ∧
      Updates r (some ⟨1, false, if listed then .live h.nextTicket else .unlisted, p.size, body⟩) h h' := by
  obtain ⟨hvac, _, rfl, _, hfrees, htenant⟩ := putCell_eq_ok e
  have hnone : h.cell? (h.handle p.index) = none := by rw [cell?_handle, hvac]
  refine ⟨hnone, fun r => ?_, fun i => ?_, fun f => ?_⟩
  · by_cases hi : p.index = r.index
    · by_cases hr : r = h.handle p.index
      · rw [if_pos hr]
        refine cell?_eq_some_iff.mpr ⟨by rw [htenant, if_pos hi], ?_⟩
        rw [hfrees, ← hi, hr]
        rfl
      · rw [if_neg hr]
        have hgone : h.cell? r = none := by
          cases hr' : h.cell? r with
          | none => rfl
          | some d =>
            have htr := tenant?_of_cell? hr'
            rw [← hi, hvac] at htr
            cases htr
        rw [hgone]
        cases hr' : h'.cell? r with
        | none => rfl
        | some d =>
          have hg := (cell?_eq_some_iff.mp hr').2
          rw [hfrees, ← hi] at hg
          refine absurd ?_ hr
          cases r
          simp only at hi hg
          subst hi hg
          rfl
    · have hr : r ≠ h.handle p.index := fun hr => hi (by rw [hr]; rfl)
      rw [if_neg hr]
      exact cell?_congr (by rw [htenant, if_neg hi]) (hfrees _)
  · have hindex : (h.handle p.index).index = p.index := rfl
    rw [htenant, hindex]
    by_cases hi : p.index = i
    · rw [if_pos hi, if_pos hi.symm]
    · rw [if_neg hi, if_neg (Ne.symm hi)]
  · have hother : ∀ j, j ≠ p.index → h'.tenant? j = h.tenant? j :=
      fun j hj => by rw [htenant, if_neg (Ne.symm hj)]
    have hchange := total_of_change (f := f) hother
    rw [hvac, htenant, if_pos rfl] at hchange
    rw [hnone]
    exact hchange

theorem cell_cases (e : Updates s new h h') (hc : h'.cell? r = some c) :
    (r = s ∧ new = some c) ∨ (r ≠ s ∧ h.cell? r = some c) := by
  rw [e.cell] at hc
  split at hc
  · rename_i hr
    exact .inl ⟨hr, hc⟩
  · rename_i hr
    exact .inr ⟨hr, hc⟩

theorem tenant_cases (e : Updates s new h h') (hc : h'.tenant? i = some c) :
    (i = s.index ∧ new = some c) ∨ (i ≠ s.index ∧ h.tenant? i = some c) := by
  rw [e.tenant] at hc
  split at hc
  · rename_i hi
    exact .inl ⟨hi, hc⟩
  · rename_i hi
    exact .inr ⟨hi, hc⟩

/-- What is true of every cell and of the new one is true of every cell after. -/
theorem forall_cells {P : Cell → Prop} (e : Updates s new h h') (hnew : ∀ d, new = some d → P d)
    (hold : ∀ r d, h.cell? r = some d → P d) : ∀ r d, h'.cell? r = some d → P d := by
  intro r d hd
  rcases e.cell_cases hd with ⟨_, hd⟩ | ⟨_, hd⟩
  · exact hnew d hd
  · exact hold r d hd

theorem forall_tenants {P : Cell → Prop} (e : Updates s new h h') (hnew : ∀ d, new = some d → P d)
    (hold : ∀ i d, h.tenant? i = some d → P d) : ∀ i d, h'.tenant? i = some d → P d := by
  intro i d hd
  rcases e.tenant_cases hd with ⟨_, hd⟩ | ⟨_, hd⟩
  · exact hnew d hd
  · exact hold i d hd

end Updates

theorem SameCells.takeSlot (e : h.takeSlot = .ok (i, h')) : SameCells h h' := by
  obtain ⟨_, hfrees, htenant⟩ := takeSlot_eq_ok e
  exact .of_views htenant hfrees

theorem SameCells.widen (h : Heap) : SameCells h h.widen := .of_views (tenant?_widen h) (frees_widen h)

end ObjectMemory.Heap
