import ObjectMemory.Proofs.SharedShapes
set_option autoImplicit false

/-!
# Shapes with the same history

A builder starts from the empty shape of a prototype and adds properties to it, one by one.  Two builders
have the same shape exactly if they asked for the same prototype and added the same properties in the same
order (`Client.shape_eq_iff_history`).  They may take turns in any way, other clients may do what they
like in between, and hashes may collide.

The shape of a builder tells what the builder did: it changes only when the builder itself adds a property,
because an edit in place takes the only reference there is (`Heap.Steady`).  So builders with the same
history have shapes that look the same, and of those the table has but one.
-/

namespace ObjectMemory

/-- Who extends a shape: the shape there is now, the prototype that was asked for, and the properties added
since, the first in front. -/
structure Builder where
  shape : Handle
  proto : Option Handle
  history : List Entry

namespace Builder

/-- The references that builders own, one each. -/
def shapes (bs : List Builder) : List Handle := bs.map (·.shape)

/-- The builder once it was given a shape with one more property. -/
def extend (b : Builder) (shape : Handle) (atom : Atom) (flags : Flags) : Builder :=
  ⟨shape, b.proto, b.history ++ [⟨atom, flags⟩]⟩

/-- The shape of a builder is shared, and laid out as the builder asked for. -/
def HasBuilt (b : Builder) (h : Heap) : Prop :=
  ∃ t, h.shape? b.shape = some t ∧ t.isHashed = true ∧ t.proto = b.proto ∧ t.entries.toList = b.history

variable {x : Ledger} {b : Builder} {bs cs : List Builder} {lost : List Handle}

theorem owned_of_mem (hb : b ∈ bs) : 0 < ((x.plus (shapes bs)).plus lost) b.shape := by
  have hpos : 0 < (shapes bs).count b.shape := List.count_pos_iff.mpr (List.mem_map_of_mem hb)
  simp only [Ledger.plus_apply]
  omega

/-- The reference of one builder set apart from those of the others. -/
theorem plus_shapes : (x.plus (shapes (bs ++ b :: cs))).plus lost =
    ((x.plus (shapes (bs ++ cs))).plus lost).plus [b.shape] := by
  funext r
  simp only [Ledger.plus_apply, shapes, List.map_append, List.map_cons, List.count_append, List.count_cons,
    List.count_nil]
  omega

end Builder

open Builder (shapes)

/-! ## One step -/

namespace Heap

variable {x y : Ledger} {h h' : Heap} {s : Handle} {t : Shape} {b : Builder}
  {bs cs : List Builder} {atom : Atom} {flags : Flags}

/-- A shape that the ledger keeps back stays as it is. -/
theorem Passes.shape? (e : Passes x y h h') (hxy : ∀ r, x r ≤ y r) (ev : Evolves 11 h h') (hs : 0 < x s)
    (ht : h.shape? s = some t) : h'.shape? s = some t := by
  obtain ⟨c, hc, hb⟩ := body?_eq_some_iff.mp (shape?_iff_body?.mp ht)
  obtain ⟨c', hc'⟩ := contains_iff.mp
    (e.valid.sound.coherent.counted.owned s (Nat.lt_of_lt_of_le hs (hxy s)))
  -- the owned cell is the same one, for no slot is handed on often enough in one step
  have hkind : h'.kind? s = some .shape := by
    refine kind?_eq_some_iff.mpr ⟨c', hc', ?_⟩
    rw [Cell.kind, (ev.follows_of_live hc hc' (by omega)).kind, hb]
    rfl
  obtain ⟨t', ht'⟩ := e.valid.sound.shape_of_kind hkind
  have hback := shape?_iff_body?.mpr (e.steady s t' hs ht')
  rw [ht] at hback
  cases hback
  exact shape?_iff_body?.mpr ht'

/-- What others do is not seen on the shape of a builder. -/
theorem Passes.hasBuilt (e : Passes x y h h') (hxy : ∀ r, x r ≤ y r) (ev : Evolves 11 h h')
    (hs : 0 < x b.shape) (hb : b.HasBuilt h) : b.HasBuilt h' := by
  obtain ⟨t, ht, hlook⟩ := hb
  exact ⟨t, e.shape? hxy ev hs ht, hlook⟩

/-- The heap is valid for `x` and the builders, and what they have built is there. -/
structure Hosts (x : Ledger) (bs : List Builder) (h : Heap) : Prop where
  valid : ∃ lost, h.Valid ((x.plus (shapes bs)).plus lost)
  built : ∀ b ∈ bs, b.HasBuilt h

/-- Another client does something. -/
theorem Hosts.operation {reply : Reply} (hh : Hosts x bs h) (op : Operation) (hp : op.Permitted x h)
    (e : op.perform h = .ok (reply, h')) : Hosts (op.settle x reply) bs h' := by
  obtain ⟨lost, hv⟩ := hh.valid
  have hv : h.Valid ((((x.minus op.consumed).plus (shapes bs)).plus lost).plus op.consumed) := by
    refine hv.of_eq fun r => ?_
    have := hp.owned r
    simp only [Ledger.plus_apply, Ledger.minus]
    omega
  have hpass := Valid.of_operation op hv hp.named e
  refine ⟨⟨lost ++ op.overwritten h reply, hpass.valid.of_eq fun r => ?_⟩, fun b hb => ?_⟩
  · simp only [Ledger.plus_apply, Ledger.minus, Operation.settle, List.count_append]
    omega
  · refine hpass.hasBuilt (fun r => ?_) (op.evolves e) (Builder.owned_of_mem hb) (hh.built b hb)
    rw [← Ledger.plus_append _ (op.gained reply)]
    exact Nat.le_add_right _ _

/-- A builder starts from an empty shape. -/
theorem Hosts.enter {proto : Option Handle} (hh : Hosts x bs h) (hn : h.Names (proto.toList.map (·, .object)))
    (e : (Call.shapeForNewObject proto).perform h = .ok (.handle s, h')) :
    Hosts x (⟨s, proto, []⟩ :: bs) h' := by
  obtain ⟨lost, hv⟩ := hh.valid
  rcases Call.attempt_eq_ok e with ⟨_, hrun, hreply⟩ | ⟨_, _, hreply⟩
  · cases hreply
    rcases hv.of_shapeForNewObject hn hrun with ⟨_, t, hres, hhands, hproto, hempty, hreg⟩ | ⟨⟨_, hres⟩, _⟩
    · cases hres
      have hshapes : (x.plus (Builder.shapes ([] ++ ⟨s, proto, []⟩ :: bs))).plus lost =
          ((x.plus (Builder.shapes ([] ++ bs))).plus lost).plus [s] := Builder.plus_shapes
      refine ⟨⟨lost, hshapes.symm ▸ hhands.valid⟩, fun b hb => ?_⟩
      rcases List.mem_cons.mp hb with rfl | hb
      · exact ⟨t, shape?_iff_body?.mpr hhands.shape, hreg, hproto, by rw [hempty]⟩
      · exact hhands.passes.hasBuilt (fun _ => Nat.le_add_right _ _) (Call.evolves _ e)
          (Builder.owned_of_mem hb) (hh.built b hb)
    · cases hres
  · cases hreply

/-- A builder adds a property. -/
theorem Hosts.extend {i : Nat} (hh : Hosts x (bs ++ b :: cs) h)
    (e : (Call.addProperty b.shape atom flags).perform h = .ok (.extended s i, h')) :
    Hosts x (bs ++ b.extend s atom flags :: cs) h' := by
  obtain ⟨lost, hv⟩ := hh.valid
  rw [Builder.plus_shapes] at hv
  rcases Call.attempt_eq_ok e with ⟨⟨s', i'⟩, hrun, hreply⟩ | ⟨_, _, hreply⟩
  · cases hreply
    rcases hv.of_addProperty hrun with ⟨_, _, t, t', hres, hhands, ht, hext⟩ | ⟨⟨_, hres⟩, _⟩
    · cases hres
      refine ⟨⟨lost, Builder.plus_shapes.symm ▸ hhands.valid⟩, ?_⟩
      have hothers : ∀ c ∈ bs ++ cs, c.HasBuilt h' := by
        intro c hc
        refine hhands.passes.hasBuilt (fun _ => Nat.le_add_right _ _) (Call.evolves _ e)
          (Builder.owned_of_mem hc) (hh.built c ?_)
        rw [List.mem_append] at hc ⊢
        exact hc.imp_right (List.mem_cons_of_mem b)
      obtain ⟨t₀, ht₀, hreg, hproto, hentries⟩ := hh.built b (by simp)
      cases (shape?_iff_body?.mp ht₀).symm.trans ht
      have hnew : (b.extend s' atom flags).HasBuilt h' := by
        refine ⟨t', shape?_iff_body?.mpr hhands.shape, hext.isHashed.trans hreg, hext.proto.trans hproto, ?_⟩
        rw [hext.entries, Array.toList_push, hentries]
        rfl
      simpa [or_imp, forall_and, hnew] using hothers
    · cases hres
  · cases hreply

/-- A builder that is refused memory has the shape it had. -/
theorem Hosts.refuse {err : OutOfMemory} (hh : Hosts x (bs ++ b :: cs) h)
    (e : (Call.addProperty b.shape atom flags).perform h = .ok (.exhausted err, h')) :
    Hosts x (bs ++ b :: cs) h' := by
  obtain ⟨lost, hv⟩ := hh.valid
  rw [Builder.plus_shapes] at hv
  rcases Call.attempt_eq_ok e with ⟨_, _, hreply⟩ | ⟨_, hrun, _⟩
  · cases hreply
  · rcases hv.of_addProperty hrun with ⟨_, _, _, _, hres, _⟩ | ⟨_, hgave⟩
    · cases hres
    · rw [← Builder.plus_shapes] at hgave
      refine ⟨⟨lost, hgave.valid⟩, fun c hc => ?_⟩
      exact hgave.passes.hasBuilt (fun _ => Nat.le_refl _) (Call.evolves _ e) (Builder.owned_of_mem hc)
        (hh.built c hc)

end Heap

/-! ## Runs -/

namespace Client

open Heap

variable {config : Config} {h : Heap} {x : Ledger} {bs : List Builder}

/-- The heaps that builders come to, taking turns with each other and with clients that keep their books.
The clients own `x`; each builder owns its shape and takes a step by an operation that succeeds, or is
refused memory and stays where it is. -/
inductive Building (config : Config) : Heap → Ledger → List Builder → Prop where
  | start : Building config (.new config) .empty []
  | operation {h h' : Heap} {x : Ledger} {bs : List Builder} {reply : Reply} (hr : Building config h x bs)
      (op : Operation) (hp : op.Permitted x h) (e : op.perform h = .ok (reply, h')) :
      Building config h' (op.settle x reply) bs
  | enter {h h' : Heap} {x : Ledger} {bs : List Builder} {s : Handle} (hr : Building config h x bs)
      (proto : Option Handle) (hp : (Operation.call (.shapeForNewObject proto)).Permitted x h)
      (e : (Call.shapeForNewObject proto).perform h = .ok (.handle s, h')) :
      Building config h' x (⟨s, proto, []⟩ :: bs)
  | extend {h h' : Heap} {x : Ledger} (bs : List Builder) {cs : List Builder} {b : Builder} {s : Handle}
      {i : Nat} (hr : Building config h x (bs ++ b :: cs)) (atom : Atom) (flags : Flags)
      (e : (Call.addProperty b.shape atom flags).perform h = .ok (.extended s i, h')) :
      Building config h' x (bs ++ b.extend s atom flags :: cs)
  | refuse {h h' : Heap} {x : Ledger} (bs : List Builder) {cs : List Builder} {b : Builder}
      {err : OutOfMemory} (hr : Building config h x (bs ++ b :: cs)) (atom : Atom) (flags : Flags)
      (e : (Call.addProperty b.shape atom flags).perform h = .ok (.exhausted err, h')) :
      Building config h' x (bs ++ b :: cs)

theorem Building.hosts (hr : Building config h x bs) : Hosts x bs h := by
  induction hr with
  | start => exact ⟨⟨[], by simpa [shapes] using Heap.valid_new config⟩, by simp⟩
  | operation _ op hp e ih => exact ih.operation op hp e
  | enter _ proto hp e ih => exact ih.enter hp.named e
  | extend _ _ atom flags e ih => exact ih.extend e
  | refuse _ _ atom flags e ih => exact ih.refuse e

/-- Two builders have the same shape exactly if they asked for the same prototype and added the same
properties in the same order.  The shape they have is shared and laid out by their history. -/
theorem shape_eq_iff_history (hr : Building config h x bs) {b c : Builder} (hb : b ∈ bs) (hc : c ∈ bs) :
    (b.shape = c.shape ↔ b.proto = c.proto ∧ b.history = c.history) ∧
      ∃ t, h.shape? b.shape = some t ∧ t.isHashed = true ∧ t.proto = b.proto ∧
        t.entries.toList = b.history := by
  obtain ⟨⟨lost, hv⟩, hbuilt⟩ := hr.hosts
  obtain ⟨t, ht, hreg, hproto, hentries⟩ := hbuilt b hb
  obtain ⟨t', ht', hreg', hproto', hentries'⟩ := hbuilt c hc
  refine ⟨⟨fun hsame => ?_, fun ⟨hp, hh⟩ => ?_⟩, t, ht, hreg, hproto, hentries⟩
  · rw [hsame, ht'] at ht
    cases ht
    exact ⟨hproto.symm.trans hproto', hentries.symm.trans hentries'⟩
  · -- the table compares layouts, so that it does not matter under which hash they are
    refine hv.laid.eq_of_shared ht ht' hreg hreg' ?_ (Array.toList_inj.mp ?_)
    · rw [hproto, hproto', hp]
    · rw [hentries, hentries', hh]

/-- Two builders take turns with each other and with the owner of an object.  The first is given a copy of
the empty shape, which the object has too, and then extends it in place.  The second extends the empty
shape in place, once the object has another, and is given the shape of the first then. -/
theorem shape_eq_of_turns : ∃ h x s₁ s₂, Building .default h x
    [⟨s₂, none, [⟨⟨300⟩, .writable⟩, ⟨⟨301⟩, .writable⟩]⟩,
      ⟨s₁, none, [⟨⟨300⟩, .writable⟩, ⟨⟨301⟩, .writable⟩]⟩] ∧ s₁ = s₂ ∧
    ∃ t, h.shape? s₁ = some t ∧ t.isHashed = true ∧ t.entries.size = 2 := by
  obtain ⟨h₁, e₁, hrest⟩ := ok_of_answers (x := (Call.newObject none).perform (.new .default))
    (a := .handle ⟨1, 0⟩) (t := fun h =>
      answers ((Call.shapeForNewObject none).perform h) (.handle ⟨0, 0⟩) fun h =>
      answers ((Call.addProperty ⟨0, 0⟩ ⟨300⟩ .writable).perform h) (.extended ⟨2, 0⟩ 0) fun h =>
      answers ((Call.shapeForNewObject none).perform h) (.handle ⟨0, 0⟩) fun h =>
      answers ((Call.setProperty ⟨1, 0⟩ ⟨301⟩ .undefined).perform h) (.flag true) fun h =>
      answers ((Call.addProperty ⟨2, 0⟩ ⟨301⟩ .writable).perform h) (.extended ⟨2, 0⟩ 1) fun h =>
      answers ((Call.addProperty ⟨0, 0⟩ ⟨300⟩ .writable).perform h) (.extended ⟨0, 0⟩ 0) fun h =>
      answers ((Call.addProperty ⟨0, 0⟩ ⟨301⟩ .writable).perform h) (.extended ⟨2, 0⟩ 1) fun _ => true)
    (by decide +kernel)
  obtain ⟨h₂, e₂, hrest⟩ := ok_of_answers hrest
  obtain ⟨h₃, e₃, hrest⟩ := ok_of_answers hrest
  obtain ⟨h₄, e₄, hrest⟩ := ok_of_answers hrest
  obtain ⟨h₅, e₅, hrest⟩ := ok_of_answers hrest
  obtain ⟨h₆, e₆, hrest⟩ := ok_of_answers hrest
  obtain ⟨h₇, e₇, hrest⟩ := ok_of_answers hrest
  obtain ⟨h₈, e₈, _⟩ := ok_of_answers hrest
  have hstart : Building .default (.new .default) .empty [] := .start
  have hr₁ := hstart.operation (.call (.newObject none)) (.of_nothing rfl rfl) e₁
  have hr₂ := hr₁.enter none (.of_nothing rfl rfl) e₂
  have hr₃ := hr₂.extend [] ⟨300⟩ .writable e₃
  have hr₄ := hr₃.enter none (.of_nothing rfl rfl) e₄
  have hr₅ := hr₄.operation (.call (.setProperty ⟨1, 0⟩ ⟨301⟩ .undefined)) (.of_nothing rfl rfl) e₅
  have hr₆ := hr₅.extend [_] ⟨301⟩ .writable e₆
  have hr₇ := hr₆.extend [] ⟨300⟩ .writable e₇
  have hr₈ := hr₇.extend [] ⟨301⟩ .writable e₈
  obtain ⟨hiff, t, ht, hreg, _, hentries⟩ := shape_eq_iff_history hr₈
    (List.mem_cons_of_mem _ (List.mem_singleton_self _)) (List.mem_cons_self ..)
  refine ⟨h₈, _, _, _, hr₈, hiff.mpr ⟨rfl, rfl⟩, t, ht, hreg, ?_⟩
  rw [← Array.length_toList, hentries]
  rfl

end Client

end ObjectMemory
