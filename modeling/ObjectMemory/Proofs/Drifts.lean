import ObjectMemory.Proofs.Holding
set_option autoImplicit false

/-!
# Runs of changes

Operations also edit layouts and make cells.  `Heap.Move E` adds these changes to those of
`Heap.Shift`, with the slots `E` whose layouts may be edited.  What one change does to the cells
(`Heap.Lasts`), to variables and locals (`Heap.Undisturbed`) and to the vacant slots (`Heap.Roomy`) is
said once for each kind of change, and follows for runs of them by induction.

An operation edits the layouts of shapes it has just made as well.  `Heap.Drifts T h h'` lets these
pass: a run of changes leads from `h` to `h'`, and an edited layout that was there in `h` is in a slot of
`T`.
-/

namespace ObjectMemory

namespace Heap

/-- The body in a slot. -/
def bodyAt? (h : Heap) (i : Nat) : Option Body := (h.tenant? i).map (·.body)

variable {E T S : Nat → Prop} {h h₁ h' : Heap} {i j : Nat} {b : Body} {r : Handle}

theorem bodyAt?_of_tenant? {c : Cell} (hc : h.tenant? i = some c) : h.bodyAt? i = some c.body := by
  rw [bodyAt?, hc, Option.map_some]

theorem tenant?_of_bodyAt? (hb : h.bodyAt? i = some b) : ∃ c, h.tenant? i = some c ∧ c.body = b :=
  Option.map_eq_some_iff.mp hb

theorem tenant?_eq_none_iff : h.tenant? i = none ↔ h.bodyAt? i = none := Option.map_eq_none_iff.symm

theorem body?_iff_bodyAt? :
    h.body? r = some b ↔ h.bodyAt? r.index = some b ∧ (h.frees r.index).toUInt32 = r.generation := by
  rw [body?_eq_some_iff]
  constructor
  · rintro ⟨c, hc, rfl⟩
    obtain ⟨ht, hg⟩ := cell?_eq_some_iff.mp hc
    exact ⟨bodyAt?_of_tenant? ht, hg⟩
  · rintro ⟨hb, hg⟩
    obtain ⟨c, ht, rfl⟩ := tenant?_of_bodyAt? hb
    exact ⟨c, cell?_eq_some_iff.mpr ⟨ht, hg⟩, rfl⟩

theorem bodyAt?_modifyCell (h : Heap) (i : Nat) (f : Cell → Cell) (j : Nat) :
    (h.modifyCell i f).bodyAt? j =
      if i = j then (h.tenant? j).map fun c => (f c).body else h.bodyAt? j := by
  unfold bodyAt?
  rw [tenant?_modifyCell]
  split
  · rw [Option.map_map]
    rfl
  · rfl

theorem bodyAt?_touch (h : Heap) (i : Nat) {f : Cell → Cell} (hf : ∀ c, (f c).body = c.body) (j : Nat) :
    (h.modifyCell i f).bodyAt? j = h.bodyAt? j := by
  rw [bodyAt?_modifyCell]
  simp only [hf]
  exact ite_self _

theorem bodyAt?_setPlace (h : Heap) (i : Nat) (old new : Place) (j : Nat) :
    (h.setPlace i old new).bodyAt? j = h.bodyAt? j :=
  bodyAt?_touch h i (f := fun c => { c with place := new }) (fun _ => rfl) j

theorem bodyAt?_joinLive (h : Heap) (i : Nat) (old : Place) (j : Nat) :
    (h.joinLive i old).bodyAt? j = h.bodyAt? j := bodyAt?_setPlace h i old (.live h.nextTicket) j

theorem bodyAt?_free (hf : h.free i = .ok h') (j : Nat) :
    h'.bodyAt? j = if i = j then none else h.bodyAt? j := by
  unfold bodyAt?
  rw [tenant?_free hf]
  split
  · rfl
  · rfl

theorem bodyAt?_modifyShapeAt (h : Heap) (i : Nat) (f : Shape → Shape) (hij : i ≠ j) :
    (h.modifyShapeAt i f).bodyAt? j = h.bodyAt? j := by
  rw [modifyShapeAt, modifyBody, bodyAt?_modifyCell, if_neg hij]

theorem bodyAt?_widen (h : Heap) (j : Nat) : h.widen.bodyAt? j = h.bodyAt? j := by
  rw [bodyAt?, tenant?_widen]
  rfl

/-! ## Vacant slots -/

theorem freeSlots_of_putCell {p : Reservation} {body : Body} {listed : Bool}
    (e : h.putCell p body listed = .ok (r, h')) : h'.freeSlots = h.freeSlots := by
  unfold putCell at e
  split at e
  · cases e
  · split at e
    · cases e
    · cases listed with
      | false =>
        cases e
        rfl
      | true =>
        cases e
        rfl

/-- The slots marked vacant are vacant, and none is marked twice. -/
structure Roomy (h : Heap) : Prop where
  nodup : h.freeSlots.Nodup
  vacant : ∀ i ∈ h.freeSlots, i < h.slots.size ∧ h.tenant? i = none

theorem roomy_new (config : Config) : (new config).Roomy := ⟨.nil, nofun⟩

namespace Roomy

/-- Cells that are there change, and no slot is taken or vacated. -/
theorem of_views (hr : h.Roomy) (hfree : h'.freeSlots = h.freeSlots) (hsize : h'.slots.size = h.slots.size)
    (hvacant : ∀ i, h.tenant? i = none → h'.tenant? i = none) : h'.Roomy := by
  refine ⟨hfree ▸ hr.nodup, fun i hi => ?_⟩
  rw [hfree] at hi
  obtain ⟨hlt, hnone⟩ := hr.vacant i hi
  exact ⟨hsize ▸ hlt, hvacant i hnone⟩

theorem of_slots (hr : h.Roomy) (hslots : h'.slots = h.slots) (hfree : h'.freeSlots = h.freeSlots) :
    h'.Roomy :=
  hr.of_views hfree (by rw [hslots]) fun i hi => by
    unfold tenant? at hi ⊢
    rw [hslots]
    exact hi

theorem modifyCell (hr : h.Roomy) (i : Nat) (f : Cell → Cell) : (h.modifyCell i f).Roomy := by
  refine hr.of_views rfl (size_modifyCell h i f) fun j hj => ?_
  rw [tenant?_modifyCell, hj]
  exact ite_self _

theorem setPlace (hr : h.Roomy) (i : Nat) (old new : Place) : (h.setPlace i old new).Roomy :=
  (hr.modifyCell i fun c => { c with place := new }).of_slots rfl rfl

theorem free (hr : h.Roomy) (hf : h.free i = .ok h') : h'.Roomy := by
  obtain ⟨c, hc, _, _, heq⟩ := free_eq_ok_iff.mp hf
  have hfree : h'.freeSlots = i :: h.freeSlots := by rw [heq]
  have hsize : h'.slots.size = h.slots.size := by rw [heq, Array.size_modify]
  refine ⟨?_, fun j hj => ?_⟩
  · rw [hfree, List.nodup_cons]
    refine ⟨fun hmem => ?_, hr.nodup⟩
    rw [(hr.vacant i hmem).2] at hc
    cases hc
  · rw [tenant?_free hf, hsize]
    rw [hfree] at hj
    rcases List.mem_cons.mp hj with rfl | hj
    · exact ⟨lt_size_of_tenant hc, if_pos rfl⟩
    · obtain ⟨hlt, hnone⟩ := hr.vacant j hj
      rw [hnone]
      exact ⟨hlt, ite_self _⟩

/-- A slot that is added is marked. -/
theorem widen (hr : h.Roomy) : h.widen.Roomy := by
  refine ⟨List.nodup_cons.mpr ⟨fun hmem => (hr.vacant _ hmem).1.ne rfl, hr.nodup⟩, fun j hj => ?_⟩
  rw [size_widen, tenant?_widen]
  rcases List.mem_cons.mp hj with rfl | hj
  · refine ⟨Nat.lt_succ_self _, Option.eq_none_iff_forall_ne_some.mpr fun c hc => ?_⟩
    exact (lt_size_of_tenant hc).ne rfl
  · obtain ⟨hlt, hnone⟩ := hr.vacant j hj
    exact ⟨Nat.lt_succ_of_lt hlt, hnone⟩

/-- A slot that is taken is vacant and marked no longer. -/
theorem takeSlot (hr : h.Roomy) (e : h.takeSlot = .ok (i, h')) :
    h'.Roomy ∧ i < h'.slots.size ∧ h'.tenant? i = none ∧ i ∉ h'.freeSlots := by
  obtain ⟨hsize, _, htenant⟩ := takeSlot_eq_ok e
  have hkeep : ∀ j, h.tenant? j = none → h'.tenant? j = none := fun j hj => by rw [htenant, hj]
  unfold Heap.takeSlot at e
  split at e
  · rename_i k rest hfree
    cases e
    have hnd := hr.nodup
    rw [hfree, List.nodup_cons] at hnd
    obtain ⟨hlt, hnone⟩ := hr.vacant i (by rw [hfree]; exact List.mem_cons_self)
    refine ⟨⟨hnd.2, fun j hj => ?_⟩, hlt, hnone, hnd.1⟩
    exact hr.vacant j (by rw [hfree]; exact List.mem_cons_of_mem _ hj)
  · rename_i hfree
    split at e
    · cases e
      refine ⟨⟨by rw [hfree]; exact .nil, fun j hj => ?_⟩, by simp, hkeep _ ?_, by rw [hfree]; exact nofun⟩
      · rw [hfree] at hj
        cases hj
      · unfold tenant?
        rw [Array.getElem?_eq_none (Nat.le_refl _)]
        rfl
    · cases e

/-- A cell is put into a slot that is marked no longer. -/
theorem putCell {p : Reservation} {body : Body} {listed : Bool} (hr : h.Roomy) (hp : p.index ∉ h.freeSlots)
    (e : h.putCell p body listed = .ok (r, h')) : h'.Roomy := by
  obtain ⟨_, _, _, hsize, _, htenant⟩ := putCell_eq_ok e
  have hfree := freeSlots_of_putCell e
  refine ⟨hfree ▸ hr.nodup, fun j hj => ?_⟩
  rw [hfree] at hj
  have hne : p.index ≠ j := fun hpj => hp (hpj ▸ hj)
  rw [hsize, htenant, if_neg hne]
  exact hr.vacant j hj

end Roomy

/-! ## Making a cell -/

/-- A cell with body `b` is new in slot `i`; the other cells have the bodies they had. -/
structure Puts (i : Nat) (b : Body) (h h' : Heap) : Prop where
  vacant : h.tenant? i = none
  here : h'.bodyAt? i = some b
  others : ∀ j, i ≠ j → h'.bodyAt? j = h.bodyAt? j
  frees : ∀ j, h'.frees j = h.frees j
  frames : h'.frames = h.frames
  roomy : h.Roomy → h'.Roomy

theorem bodyAt?_of_tenants (ht : h'.tenant? i = h.tenant? i) : h'.bodyAt? i = h.bodyAt? i := by
  rw [bodyAt?, ht]
  rfl

theorem retainOption_cases {o : Option Handle} {u : Unit} (e : HeapM.retainOption o h = .ok (u, h')) :
    h' = h ∨ ∃ r : Handle, h' = h.modifyCell r.index fun c => { c with refCount := c.refCount + 1 } := by
  cases o with
  | none =>
    obtain ⟨_, rfl⟩ := HeapM.pure_eq_ok e
    exact .inl rfl
  | some r =>
    change HeapM.retain r h = .ok (u, h') at e
    unfold HeapM.retain at e
    split at e
    · cases e
      exact .inr ⟨r, rfl⟩
    · cases e

/-- A cell is made of a slot that is taken, after a reference of its own. -/
theorem puts_of_make {h₂ : Heap} {p : Reservation} {o : Option Handle} {u : Unit} {listed : Bool}
    (ht : h.takeSlot = .ok (p.index, h₁)) (ho : HeapM.retainOption o h₁ = .ok (u, h₂))
    (hp : h₂.putCell p b listed = .ok (r, h')) : Puts p.index b h h' := by
  obtain ⟨_, hfrees₁, htenant₁⟩ := takeSlot_eq_ok ht
  obtain ⟨hvac, _, _, _, hfrees', htenant'⟩ := putCell_eq_ok hp
  have hbody₂ : ∀ j, h₂.bodyAt? j = h₁.bodyAt? j := by
    intro j
    rcases retainOption_cases ho with rfl | ⟨q, rfl⟩
    · rfl
    · exact bodyAt?_touch h₁ q.index (f := fun c => { c with refCount := c.refCount + 1 }) (fun _ => rfl) j
  have hfrees₂ : ∀ j, h₂.frees j = h₁.frees j := by
    intro j
    rcases retainOption_cases ho with rfl | ⟨q, rfl⟩
    · rfl
    · exact frees_modifyCell h₁ q.index _ j
  have hframes₂ : h₂.frames = h₁.frames := by
    rcases retainOption_cases ho with rfl | ⟨q, rfl⟩
    · rfl
    · rfl
  have hbody : ∀ j, h₂.bodyAt? j = h.bodyAt? j := fun j =>
    (hbody₂ j).trans (bodyAt?_of_tenants (htenant₁ j))
  refine ⟨?_, ?_, fun j hij => ?_, fun j => by rw [hfrees', hfrees₂, hfrees₁], ?_, fun hr => ?_⟩
  · rw [tenant?_eq_none_iff, ← hbody, ← tenant?_eq_none_iff]
    exact hvac
  · rw [bodyAt?, htenant', if_pos rfl]
    rfl
  · rw [← hbody]
    exact bodyAt?_of_tenants (by rw [htenant', if_neg hij])
  · rw [(putCell_rest hp).1.frames, hframes₂, takeSlot_rest ht]
  · obtain ⟨hr₁, _, _, hnot⟩ := hr.takeSlot ht
    rcases retainOption_cases ho with rfl | ⟨q, rfl⟩
    · exact hr₁.putCell hnot hp
    · exact (hr₁.modifyCell q.index _).putCell hnot hp

/-! ## One change -/

/-- One change of a heap that edits no variable or local, and layouts only in the slots of `E`. -/
inductive Move (E : Nat → Prop) : Heap → Heap → Prop where
  /-- no cell is made, and no layout edited -/
  | shift {h h' : Heap} (e : Shift h h') : Move E h h'
  /-- a layout is edited -/
  | reshape (h : Heap) (i : Nat) (f : Shape → Shape) (hE : E i) : Move E h (h.modifyShapeAt i f)
  /-- a cell is made that is no variable -/
  | make {h h' : Heap} {i : Nat} {b : Body} (e : Puts i b h h') (hb : b.kind ≠ .captured) : Move E h h'

/-- What becomes of cells: a slot whose cell was not freed still has one, and a layout is what it was
unless it is in a slot of `E`. -/
structure Lasts (E : Nat → Prop) (h h' : Heap) : Prop where
  frees : ∀ i, h.frees i ≤ h'.frees i
  kept : ∀ i b, h.bodyAt? i = some b → h'.frees i = h.frees i →
    ∃ b', h'.bodyAt? i = some b' ∧ ∀ t, b = .shape t → ¬ E i → b' = b

/-- Variables and locals are what they were. -/
structure Undisturbed (h h' : Heap) : Prop where
  captured : ∀ r v, h'.captured? r = some v → h.captured? r = some v
  locals : ∀ id, (h'.frames.get? id).map (·.locals) = (h.frames.get? id).map (·.locals)

namespace Lasts

theorem refl (h : Heap) : Lasts E h h := ⟨fun _ => Nat.le_refl _, fun _ b hb _ => ⟨b, hb, fun _ _ _ => rfl⟩⟩

theorem trans (e₁ : Lasts E h h₁) (e₂ : Lasts E h₁ h') : Lasts E h h' := by
  refine ⟨fun i => Nat.le_trans (e₁.frees i) (e₂.frees i), fun i b hb hf => ?_⟩
  have hf₁ : h₁.frees i = h.frees i := Nat.le_antisymm (hf ▸ e₂.frees i) (e₁.frees i)
  obtain ⟨b₁, hb₁, hsame₁⟩ := e₁.kept i b hb hf₁
  obtain ⟨b', hb', hsame'⟩ := e₂.kept i b₁ hb₁ (hf.trans hf₁.symm)
  refine ⟨b', hb', fun t ht hE => ?_⟩
  obtain rfl := hsame₁ t ht hE
  exact hsame' t ht hE

theorem of_bodies (hfrees : ∀ i, h'.frees i = h.frees i)
    (hkept : ∀ i b, h.bodyAt? i = some b →
      ∃ b', h'.bodyAt? i = some b' ∧ ∀ t, b = .shape t → ¬ E i → b' = b) : Lasts E h h' :=
  ⟨fun i => Nat.le_of_eq (hfrees i).symm, fun i b hb _ => hkept i b hb⟩

theorem of_same (hfrees : ∀ i, h'.frees i = h.frees i) (hbody : ∀ i, h'.bodyAt? i = h.bodyAt? i) :
    Lasts E h h' :=
  of_bodies hfrees fun i b hb => ⟨b, (hbody i).trans hb, fun _ _ _ => rfl⟩

end Lasts

namespace Undisturbed

theorem refl (h : Heap) : Undisturbed h h := ⟨fun _ _ hv => hv, fun _ => rfl⟩

theorem trans (e₁ : Undisturbed h h₁) (e₂ : Undisturbed h₁ h') : Undisturbed h h' :=
  ⟨fun r v hv => e₁.captured r v (e₂.captured r v hv), fun id => (e₂.locals id).trans (e₁.locals id)⟩

/-- A variable in a slot was there before, and nothing was freed in its slot since. -/
theorem of_bodies (hframes : ∀ id, (h'.frames.get? id).map (·.locals) = (h.frames.get? id).map (·.locals))
    (hbody : ∀ i v, h'.bodyAt? i = some (.captured v) →
      h.bodyAt? i = some (.captured v) ∧ h'.frees i = h.frees i) : Undisturbed h h' := by
  refine ⟨fun r v hv => ?_, hframes⟩
  obtain ⟨c, hc, hb⟩ := captured?_eq_some_iff.mp hv
  obtain ⟨hat, hg⟩ := body?_iff_bodyAt?.mp (body?_eq_some_iff.mpr ⟨c, hc, hb⟩)
  obtain ⟨hat₀, hfrees⟩ := hbody r.index v hat
  obtain ⟨c₀, hc₀, hb₀⟩ := body?_eq_some_iff.mp (body?_iff_bodyAt?.mpr ⟨hat₀, hfrees ▸ hg⟩)
  exact captured?_eq_some_iff.mpr ⟨c₀, hc₀, hb₀⟩

end Undisturbed

theorem bodyAt?_rewrite {f : Body → Body} (hb : h.bodyAt? i = some b) :
    (h.modifyBody i f).bodyAt? i = some (f b) := by
  obtain ⟨c, hc, rfl⟩ := tenant?_of_bodyAt? hb
  rw [modifyBody, bodyAt?_modifyCell, if_pos rfl, hc]
  rfl

theorem Shift.lasts (e : Shift h h') : Lasts E h h' := by
  cases e with
  | aside hslots _ _ =>
    refine .of_same (fun i => ?_) fun i => ?_
    · unfold Heap.frees
      rw [hslots]
    · unfold bodyAt? tenant?
      rw [hslots]
  | touch i hf _ => exact .of_same (fun j => frees_modifyCell h i _ j) fun j => bodyAt?_touch h i hf j
  | relist i _ _ => exact .of_same (fun j => frees_modifyCell h i _ j) fun j => bodyAt?_setPlace h i _ _ j
  | join i _ => exact .of_same (fun j => frees_modifyCell h i _ j) fun j => bodyAt?_joinLive h i _ j
  | rewrite i hf =>
    refine .of_bodies (fun j => frees_modifyCell h i _ j) fun j b hb => ?_
    by_cases hij : i = j
    · subst hij
      refine ⟨_, bodyAt?_rewrite hb, fun t ht _ => ?_⟩
      obtain ⟨c, hc, rfl⟩ := tenant?_of_bodyAt? hb
      rcases hf c hc with hsame | ⟨hguard, _⟩
      · exact hsame
      · rw [ht] at hguard
        cases hguard
    · exact ⟨b, by rw [modifyBody, bodyAt?_modifyCell, if_neg hij, hb], fun _ _ _ => rfl⟩
  | free hf =>
    rename_i i
    refine ⟨fun j => ?_, fun j b hb hfrees => ?_⟩
    · rw [frees_free hf]
      split <;> omega
    · rw [frees_free hf] at hfrees
      by_cases hij : i = j
      · rw [if_pos hij] at hfrees
        omega
      · exact ⟨b, by rw [bodyAt?_free hf, if_neg hij, hb], fun _ _ _ => rfl⟩
  | widen => exact .of_same (frees_widen h) (bodyAt?_widen h)
  | close i r => exact .of_same (fun _ => rfl) fun _ => rfl

theorem Shift.undisturbed (e : Shift h h') : Undisturbed h h' := by
  cases e with
  | aside hslots _ hframes =>
    refine .of_bodies (fun id => by rw [hframes]) fun i v hv => ⟨?_, ?_⟩
    · unfold bodyAt? tenant? at hv ⊢
      rw [← hslots]
      exact hv
    · unfold Heap.frees
      rw [hslots]
  | touch i hf _ =>
    exact .of_bodies (fun _ => rfl) fun j v hv =>
      ⟨(bodyAt?_touch h i hf j).symm.trans hv, frees_modifyCell h i _ j⟩
  | relist i _ _ =>
    exact .of_bodies (fun _ => rfl) fun j v hv =>
      ⟨(bodyAt?_setPlace h i _ _ j).symm.trans hv, frees_modifyCell h i _ j⟩
  | join i _ =>
    exact .of_bodies (fun _ => rfl) fun j v hv =>
      ⟨(bodyAt?_joinLive h i _ j).symm.trans hv, frees_modifyCell h i _ j⟩
  | rewrite i hf =>
    refine .of_bodies (fun _ => rfl) fun j v hv => ⟨?_, frees_modifyCell h i _ j⟩
    rw [modifyBody, bodyAt?_modifyCell] at hv
    split at hv
    · rename_i hij
      subst hij
      obtain ⟨c, hc, hb⟩ := Option.map_eq_some_iff.mp hv
      dsimp only at hb
      rcases hf c hc with hsame | ⟨hguard, hkind⟩
      · rw [bodyAt?_of_tenant? hc, ← hb, hsame]
      · rw [hb] at hkind
        rw [← hkind] at hguard
        cases hguard
    · exact hv
  | free hf =>
    rename_i i
    obtain ⟨_, _, _, _, heq⟩ := free_eq_ok_iff.mp hf
    refine .of_bodies (fun id => by rw [heq]) fun j v hv => ?_
    rw [bodyAt?_free hf] at hv
    split at hv
    · cases hv
    · rename_i hij
      exact ⟨hv, by rw [frees_free hf, if_neg hij]⟩
  | widen =>
    exact .of_bodies (fun _ => rfl) fun j v hv => ⟨(bodyAt?_widen h j).symm.trans hv, frees_widen h j⟩
  | close i r =>
    refine .of_bodies (fun id => ?_) fun j v hv => ⟨hv, rfl⟩
    rw [FrameTable.get?_modify]
    split
    · cases h.frames.get? id with
      | none => rfl
      | some f => simp only [Option.map_some, Frame.locals_close]
    · rfl

theorem Shift.roomy (e : Shift h h') (hr : h.Roomy) : h'.Roomy := by
  cases e with
  | aside hslots hfree _ => exact hr.of_slots hslots hfree
  | touch i hf _ => exact hr.modifyCell i _
  | relist i _ _ => exact hr.setPlace i _ _
  | @join i c _ => exact (hr.setPlace i c.place (.live h.nextTicket)).of_slots rfl rfl
  | rewrite i hf => exact hr.modifyCell i _
  | free hf => exact hr.free hf
  | widen => exact hr.widen
  | close i r => exact hr.of_slots rfl rfl

/-- A new cell takes no one's place. -/
theorem Puts.lasts (e : Puts i b h h') : Lasts E h h' := by
  refine .of_bodies e.frees fun j b hb => ?_
  by_cases hij : i = j
  · rw [← hij, tenant?_eq_none_iff.mp e.vacant] at hb
    cases hb
  · exact ⟨b, (e.others j hij).trans hb, fun _ _ _ => rfl⟩

namespace Move

theorem mono {E' : Nat → Prop} (e : Move E h h') (hE : ∀ i, E i → E' i) : Move E' h h' := by
  cases e with
  | shift e => exact .shift e
  | reshape i f hi => exact .reshape h i f (hE i hi)
  | make e hb => exact .make e hb

theorem lasts (e : Move E h h') : Lasts E h h' := by
  cases e with
  | shift e => exact e.lasts
  | reshape i f hE =>
    refine .of_bodies (fun j => frees_modifyCell h i _ j) fun j b hb => ?_
    by_cases hij : i = j
    · subst hij
      exact ⟨_, bodyAt?_rewrite hb, fun _ _ hnot => absurd hE hnot⟩
    · exact ⟨b, (bodyAt?_modifyShapeAt h i f hij).trans hb, fun _ _ _ => rfl⟩
  | make e _ => exact e.lasts

theorem undisturbed (e : Move E h h') : Undisturbed h h' := by
  cases e with
  | shift e => exact e.undisturbed
  | reshape i f _ =>
    refine .of_bodies (fun _ => rfl) fun j v hv => ⟨?_, frees_modifyCell h i _ j⟩
    rw [modifyShapeAt, modifyBody, bodyAt?_modifyCell] at hv
    split at hv
    · obtain ⟨c, hc, hb⟩ := Option.map_eq_some_iff.mp hv
      rw [bodyAt?_of_tenant? hc, ← hb]
      cases hcb : c.body with
      | shape t =>
        simp only [hcb] at hb
        cases hb
      | _ => rfl
    · exact hv
  | make e hb =>
    rename_i i b
    refine .of_bodies (fun id => by rw [e.frames]) fun j v hv => ⟨?_, e.frees j⟩
    by_cases hij : i = j
    · rw [← hij, e.here] at hv
      cases hv
      exact absurd rfl hb
    · exact (e.others j hij).symm.trans hv

theorem roomy (e : Move E h h') (hr : h.Roomy) : h'.Roomy := by
  cases e with
  | shift e => exact e.roomy hr
  | reshape i f _ => exact hr.modifyCell i _
  | make e _ => exact e.roomy hr

end Move

/-! ## Runs -/

/-- Any number of changes. -/
def Moves (E : Nat → Prop) : Heap → Heap → Prop := Relation.ReflTransGen (Move E)

namespace Moves

theorem mono {E' : Nat → Prop} (e : Moves E h h') (hE : ∀ i, E i → E' i) : Moves E' h h' := by
  induction e with
  | refl => exact Relation.ReflTransGen.refl
  | tail _ hlast ih => exact Relation.ReflTransGen.tail ih (hlast.mono hE)

theorem lasts (e : Moves E h h') : Lasts E h h' := by
  induction e with
  | refl => exact .refl h
  | tail _ hlast ih => exact ih.trans hlast.lasts

theorem undisturbed (e : Moves E h h') : Undisturbed h h' := by
  induction e with
  | refl => exact .refl h
  | tail _ hlast ih => exact ih.trans hlast.undisturbed

theorem roomy (e : Moves E h h') (hr : h.Roomy) : h'.Roomy := by
  induction e with
  | refl => exact hr
  | tail _ hlast ih => exact hlast.roomy ih

end Moves

theorem Shifts.moves (e : Shifts h h') : Moves E h h' := by
  induction e with
  | refl => exact Relation.ReflTransGen.refl
  | tail _ hlast ih => exact Relation.ReflTransGen.tail ih (.shift hlast)

theorem Shifts.undisturbed (e : Shifts h h') : Undisturbed h h' := (e.moves (E := fun _ => False)).undisturbed

theorem Shifts.roomy (e : Shifts h h') (hr : h.Roomy) : h'.Roomy := (e.moves (E := fun _ => False)).roomy hr

/-- The cell that was in the slot is gone. -/
def Fresh (h h' : Heap) (i : Nat) : Prop := ∀ c, h.tenant? i = some c → h'.frees i ≠ h.frees i

/-- A run of changes in which a layout that was there before is edited only in a slot of `T`. -/
def Drifts (T : Nat → Prop) (h h' : Heap) : Prop :=
  ∃ E, Moves E h h' ∧ ∀ i, E i → T i ∨ h.Fresh h' i

namespace Drifts

theorem of_moves (e : Moves T h h') : Drifts T h h' := ⟨T, e, fun _ => .inl⟩

theorem of_shifts (e : Shifts h h') : Drifts T h h' := of_moves e.moves

theorem refl (h : Heap) : Drifts T h h := of_shifts (.refl h)

theorem frees (e : Drifts T h h') (i : Nat) : h.frees i ≤ h'.frees i := by
  obtain ⟨E, hm, _⟩ := e
  exact hm.lasts.frees i

/-- What was new on the way is new at the end. -/
theorem fresh_left (e : Drifts T h₁ h') (hle : h.frees i ≤ h₁.frees i) (hf : h.Fresh h₁ i) : h.Fresh h' i := by
  intro c hc hfrees
  exact hf c hc (Nat.le_antisymm (hfrees ▸ e.frees i) hle)

/-- What is new since the middle is new since the start. -/
theorem fresh_right (e : Drifts T h h₁) (hle : h₁.frees i ≤ h'.frees i) (hf : h₁.Fresh h' i) :
    h.Fresh h' i := by
  intro c hc hfrees
  obtain ⟨E, hm, _⟩ := e
  have hfrees₁ : h₁.frees i = h.frees i := Nat.le_antisymm (hfrees ▸ hle) (hm.lasts.frees i)
  obtain ⟨b₁, hb₁, _⟩ := hm.lasts.kept i c.body (bodyAt?_of_tenant? hc) hfrees₁
  obtain ⟨c₁, hc₁, _⟩ := tenant?_of_bodyAt? hb₁
  exact hf c₁ hc₁ (hfrees.trans hfrees₁.symm)

/-- Two runs in sequence.  Layouts that are new after the first may be edited by the second. -/
theorem andThen (e₁ : Drifts T h h₁) (e₂ : Drifts S h₁ h') (hT : ∀ i, S i → T i ∨ h.Fresh h₁ i) :
    Drifts T h h' := by
  have hall₁ := e₁
  have hall₂ := e₂
  obtain ⟨E₁, hm₁, hE₁⟩ := e₁
  obtain ⟨E₂, hm₂, hE₂⟩ := e₂
  refine ⟨fun i => E₁ i ∨ E₂ i, (hm₁.mono fun _ => .inl).trans (hm₂.mono fun _ => .inr), fun i hi => ?_⟩
  rcases hi with hi | hi
  · exact (hE₁ i hi).imp id (hall₂.fresh_left (hall₁.frees i))
  · rcases hE₂ i hi with hi | hi
    · exact (hT i hi).imp id (hall₂.fresh_left (hall₁.frees i))
    · exact .inr (hall₁.fresh_right (hall₂.frees i) hi)

theorem trans (e₁ : Drifts T h h₁) (e₂ : Drifts T h₁ h') : Drifts T h h' := e₁.andThen e₂ fun _ => .inl

theorem mono (e : Drifts T h h') (hT : ∀ i, T i → S i) : Drifts S h h' := by
  obtain ⟨E, hm, hE⟩ := e
  exact ⟨E, hm, fun i hi => (hE i hi).imp (hT i) id⟩

theorem undisturbed (e : Drifts T h h') : Undisturbed h h' := by
  obtain ⟨E, hm, _⟩ := e
  exact hm.undisturbed

theorem roomy (e : Drifts T h h') (hr : h.Roomy) : h'.Roomy := by
  obtain ⟨E, hm, _⟩ := e
  exact hm.roomy hr

end Drifts

end Heap

/-! ## Actions -/

namespace HeapM

variable {α β : Type} {T : Nat → Prop}

/-- Whenever the action ends well, a run of changes leads to the heap after it. -/
def Drifts (T : Nat → Prop) (act : HeapM α) : Prop := ∀ h a h', act h = .ok (a, h') → h.Drifts T h'

namespace Drifts

theorem pure (a : α) : Drifts T (pure a : HeapM α) := by
  intro h b h' e
  obtain ⟨_, rfl⟩ := pure_eq_ok e
  exact .refl _

theorem read (f : Heap → Except Fault α) : Drifts T (read f) := by
  intro h a h' e
  obtain ⟨_, rfl⟩ := read_eq_ok e
  exact .refl _

theorem fault (cause : Fault) : Drifts T (fault cause : HeapM α) :=
  fun _ _ _ e => (fault_eq_ok e).elim

end Drifts

end HeapM

namespace AllocM

variable {α β : Type} {T : Nat → Prop}

/-- Whenever the action ends, also by running out of memory, a run of changes leads to the heap after
it. -/
def Drifts (T : Nat → Prop) (act : AllocM α) : Prop := HeapM.Drifts T act.run

namespace Drifts

theorem pure (a : α) : Drifts T (pure a : AllocM α) := HeapM.Drifts.pure (Except.ok a)

theorem throw (err : OutOfMemory) : Drifts T (throw err : AllocM α) :=
  HeapM.Drifts.pure (Except.error err)

theorem bind {x : AllocM α} {f : α → AllocM β} (hx : Drifts T x) (hf : ∀ a, Drifts T (f a)) :
    Drifts T (x >>= f) := by
  intro h res h' e
  rcases bind_eq_ok e with ⟨a, h₁, ha, e⟩ | ⟨err, ha, _⟩
  · exact (hx h _ h₁ ha).trans (hf a h₁ res h' e)
  · exact hx h _ h' ha

theorem lift {x : HeapM α} (hx : x.Drifts T) : Drifts T (liftM x : AllocM α) := by
  intro h res h' e
  obtain ⟨a, ha, _⟩ := lift_eq_ok e
  exact hx h a h' ha

theorem fault (cause : Fault) : Drifts T (liftM (HeapM.fault cause : HeapM α) : AllocM α) :=
  .lift (.fault cause)

theorem tryCatch {x : AllocM α} {c : OutOfMemory → AllocM α} (hx : Drifts T x)
    (hc : ∀ err, Drifts T (c err)) : Drifts T (tryCatch x c) := by
  intro h res h' e
  rcases tryCatch_eq_ok e with ⟨a, ha, _⟩ | ⟨err, h₁, ha, e⟩
  · exact hx h _ h' ha
  · exact (hx h _ h₁ ha).trans (hc err h₁ res h' e)

end Drifts

end AllocM

end ObjectMemory
