import ObjectMemory.Proofs.Reshaping
set_option autoImplicit false

/-!
# Replacing shapes

Adding a property to a shape that others share, or taking a shared shape over for changes, makes a new
shape and then gives up the old one.  Until the caller stores the new shape where it had the old one,
the heap does not keep its books if the caller is an object: it still names the old shape.

`Heap.Concludes` says of what is done after the new shape is ready that it does not look at the object.
Its steps do the same in the heap where the object has the new shape already, and there the books are
kept.  This holds because the new shape has the prototype of the old one: giving up the old shape
frees that shape at most.
-/

namespace ObjectMemory

namespace Heap

variable {x y : Ledger} {n : Nat} {h h₁ h₂ h' : Heap} {r s old new : Handle} {c c' : Cell}
  {t t₀ t₁ t' : Shape} {u : Unit} {i j k : Nat} {g : Body → Body}

/-! ## Steps that do not look at a body -/

theorem modifyBody_setRefCount (h : Heap) (i j k : Nat) (g : Body → Body) :
    (h.modifyBody i g).setRefCount j k = (h.setRefCount j k).modifyBody i g := by
  unfold setRefCount modifyBody
  by_cases hij : i = j
  · subst hij
    rw [modifyCell_modifyCell, modifyCell_modifyCell]
    rfl
  · exact modifyCell_comm h _ _ hij

theorem cell?_modifyBody (h : Heap) (i : Nat) (g : Body → Body) (r : Handle) :
    (h.modifyBody i g).cell? r =
      if i = r.index then (h.cell? r).map fun c => { c with body := g c.body } else h.cell? r :=
  cell?_modifyCell h i _ r

theorem cell?_modifyBody_other (hi : i ≠ r.index) : (h.modifyBody i g).cell? r = h.cell? r := by
  rw [cell?_modifyBody, if_neg hi]

theorem body?_modifyBody_other (hi : i ≠ r.index) : (h.modifyBody i g).body? r = h.body? r := by
  unfold Heap.body?
  rw [cell?_modifyBody_other hi]

theorem free_modifyBody (hij : i ≠ j) (e : h.free j = .ok h') :
    (h.modifyBody i g).free j = .ok (h'.modifyBody i g) := by
  obtain ⟨c, hc, hsize, hlive, rfl⟩ := free_eq_ok_iff.mp e
  refine free_eq_ok_iff.mpr ⟨c, ?_, hsize, hlive, ?_⟩
  · unfold modifyBody
    rw [tenant?_modifyCell, if_neg hij, hc]
  · unfold modifyBody modifyCell
    simp only [Heap.mk.injEq, true_and, and_true]
    apply Array.ext_getElem?
    intro k
    simp only [Array.getElem?_modify]
    by_cases hi : i = k
    · have hj : j ≠ k := fun hj => hij (hi.trans hj.symm)
      simp [hi, hj]
    · simp [hi]

theorem forgetShape_modifyBody (e : h.forgetShape s t = .ok h') :
    (h.modifyBody i g).forgetShape s t = .ok (h'.modifyBody i g) := by
  unfold forgetShape at e ⊢
  split at e
  · rename_i hreg
    rw [if_pos hreg]
    split at e
    · rename_i table herase
      cases e
      have herase' : (h.modifyBody i g).table.erase? t.hash s = some table := herase
      rw [herase']
      rfl
    · cases e
  · rename_i hreg
    cases e
    rw [if_neg hreg]

theorem forgetShape_slots (e : h.forgetShape s t = .ok h') : h'.slots = h.slots := by
  obtain ⟨table, rfl⟩ := forgetShape_cases e
  rfl

/-- A release that leaves the cell its other references only lowers the count. -/
theorem run_release_shared (hc : h.cell? r = some c) (htwo : 2 ≤ c.refCount) :
    h.run [.release r] = .ok (h.setRefCount r.index (c.refCount - 1)) := by
  have hstep : h.step (.release r) [] = .ok (h.setRefCount r.index (c.refCount - 1), []) := by
    change h.stepRelease r [] = _
    unfold stepRelease
    rw [hc]
    dsimp only
    rw [if_neg (by omega), if_pos (by omega)]
  rw [run_cons hstep, run]

/-- Giving up the last reference to a shape frees it and goes on with its prototype. -/
theorem run_release_shape (hc : h.cell? s = some c) (hone : c.refCount = 1) (hb : c.body = .shape t) :
    h.run [.release s] =
      match (h.setRefCount s.index 0).freeNow s (.shape t) with
      | .ok h₁ => h₁.run (t.proto.toList.map .release)
      | .error e => .error e := by
  have hkind : c.kind.isQueued = false := by
    unfold Cell.kind
    rw [hb]
    rfl
  cases hfree : (h.setRefCount s.index 0).freeNow s (.shape t) with
  | ok h₁ =>
    have hstep : h.step (.release s) [] = .ok (h₁, t.proto.toList.map .release) := by
      change h.stepRelease s [] = _
      unfold stepRelease
      rw [hc]
      dsimp only
      rw [hone, hkind, hb, if_neg (by simp), if_neg (by simp), if_neg (by simp), hfree]
      simp [Body.refs]
    rw [run_cons hstep]
  | error e =>
    have hstep : h.step (.release s) [] = .error e := by
      change h.stepRelease s [] = _
      unfold stepRelease
      rw [hc]
      dsimp only
      rw [hone, hkind, hb, if_neg (by simp), if_neg (by simp), if_neg (by simp), hfree]
    rw [run]
    split
    · rename_i e' he
      rw [hstep] at he
      cases he
      rfl
    · rename_i he
      rw [hstep] at he
      cases he

theorem cell?_modifyBody_count (hc : h.cell? r = some c) (i : Nat) (g : Body → Body) :
    ∃ c', (h.modifyBody i g).cell? r = some c' ∧ c'.refCount = c.refCount := by
  rw [cell?_modifyBody, hc]
  split <;> exact ⟨_, rfl, rfl⟩

/-- Giving up a prototype that someone else has too. -/
theorem run_release_proto {proto : Option Handle}
    (hproto : ∀ p ∈ proto, p ≠ new ∧ ∃ d, h.cell? p = some d ∧ 2 ≤ d.refCount)
    (e : h.run (proto.toList.map .release) = .ok h') :
    (∀ i g, (h.modifyBody i g).run (proto.toList.map .release) = .ok (h'.modifyBody i g)) ∧ Keeps h h' ∧
      h'.cell? new = h.cell? new := by
  cases proto with
  | none =>
    simp only [Option.toList_none, List.map_nil, run] at e ⊢
    cases e
    exact ⟨fun _ _ => rfl, .refl _, rfl⟩
  | some p =>
    obtain ⟨hne, d, hd, htwo⟩ := hproto p rfl
    have hlist : (some p).toList.map Task.release = [.release p] := rfl
    rw [hlist] at e ⊢
    rw [run_release_shared hd htwo] at e
    cases e
    have hu := Updates.setRefCount hd (d.refCount - 1)
    refine ⟨fun i g => ?_, .of_updates hu hd rfl, hu.cell_other (Ne.symm hne)⟩
    obtain ⟨d', hd', hcount⟩ := cell?_modifyBody_count hd i g
    rw [run_release_shared hd' (by omega), hcount, modifyBody_setRefCount]

theorem Keeps.of_vacated (hu : Updates s none h h') : Keeps h h' := by
  intro r d hd
  rw [hu.cell] at hd
  split at hd
  · cases hd
  · exact ⟨d, hd, rfl⟩

/-- Freeing a shape leaves its prototype to whoever else has it. -/
theorem updates_of_free_shape {h₂ : Heap} (hc : h.cell? old = some c) (hone : c.refCount = 1)
    (hproto : ∀ p ∈ t.proto, p ≠ new ∧ ∃ d, h.cell? p = some d ∧ 2 ≤ d.refCount)
    (hforget : (h.setRefCount old.index 0).forgetShape old t = .ok h₁) (hfree : h₁.free old.index = .ok h₂) :
    Updates old none h h₂ ∧ ∀ p ∈ t.proto, p ≠ new ∧ ∃ d, h₂.cell? p = some d ∧ 2 ≤ d.refCount := by
  have hu₀ := Updates.setRefCount hc 0
  have hu₁ := hu₀.then_slots (forgetShape_slots hforget)
  have hu := hu₁.trans (.free hu₁.cell_self hfree)
  refine ⟨hu, fun p hp => ?_⟩
  obtain ⟨hpn, d, hd, htwo⟩ := hproto p hp
  have hpo : p ≠ old := by
    rintro rfl
    rw [hc] at hd
    cases hd
    omega
  exact ⟨hpn, d, (hu.cell_other hpo).trans hd, htwo⟩

/-- Giving up a shape whose prototype someone else has too does not look at any other body. -/
theorem release_shape (hc : h.cell? old = some c) (hb : c.body = .shape t) (hpos : c.refCount ≠ 0)
    (hne : new ≠ old) (hproto : ∀ p ∈ t.proto, p ≠ new ∧ ∃ d, h.cell? p = some d ∧ 2 ≤ d.refCount)
    (e : HeapM.release old h = .ok (u, h')) :
    (∀ i g, i ≠ old.index → HeapM.release old (h.modifyBody i g) = .ok ((), h'.modifyBody i g)) ∧
      Keeps h h' ∧ h'.cell? new = h.cell? new := by
  have e := HeapM.change_eq_ok e
  by_cases hone : c.refCount = 1
  · rw [run_release_shape hc hone hb] at e
    cases hforget : (h.setRefCount old.index 0).forgetShape old t with
    | error err =>
      simp only [freeNow, hforget] at e
      cases e
    | ok h₁ =>
      cases hfree : h₁.free old.index with
      | error err =>
        simp only [freeNow, hforget, hfree] at e
        cases e
      | ok h₂ =>
        simp only [freeNow, hforget, hfree] at e
        obtain ⟨hu, hproto₂⟩ := updates_of_free_shape hc hone hproto hforget hfree
        obtain ⟨hghost, hk, hcell⟩ := run_release_proto hproto₂ e
        refine ⟨fun i g hi => HeapM.change_apply ?_, .trans (.of_vacated hu) hk,
          hcell.trans (hu.cell_other hne)⟩
        have hc' : (h.modifyBody i g).cell? old = some c := (cell?_modifyBody_other hi).trans hc
        rw [run_release_shape hc' hone hb, modifyBody_setRefCount]
        simp only [freeNow, forgetShape_modifyBody hforget, free_modifyBody hi hfree]
        exact hghost i g
  · have htwo : 2 ≤ c.refCount := by omega
    rw [run_release_shared hc htwo] at e
    cases e
    have hu := Updates.setRefCount hc (c.refCount - 1)
    refine ⟨fun i g hi => HeapM.change_apply ?_, .of_updates hu hc rfl, hu.cell_other hne⟩
    have hc' : (h.modifyBody i g).cell? old = some c := (cell?_modifyBody_other hi).trans hc
    rw [run_release_shared hc' htwo, modifyBody_setRefCount]

/-! ## What is done when the new shape is ready -/

/-- The steps from `h` to `h'` give up the reference to `old` and leave `new` its layout.  They do the
same whatever the body in another slot is. -/
structure Concludes (old new : Handle) (n : Nat) (t t' : Shape) (h h' : Heap) : Prop where
  before : h.body? new = some (.shape t)
  after : h'.body? new = some (.shape t')
  entries : t'.entries = t.entries
  count : h'.refCount? new = h.refCount? new
  bodies : ∀ r b, r ≠ new → h'.body? r = some b → h.body? r = some b
  sound : ∀ y, h.Sound (y.plus [old]) n → h'.Sound y n
  ghost : ∀ y i g, i ≠ old.index → i ≠ new.index → (h.modifyBody i g).Sound (y.plus [old]) n →
    (h'.modifyBody i g).Sound y n

/-- A prototype that two shapes have is referred to twice. -/
theorem Sound.proto_shared (hs : h.Sound x n) (hold : h.body? old = some (.shape t₀))
    (hnew : h.body? new = some (.shape t)) (hne : new ≠ old) (hproto : t.proto = t₀.proto) :
    ∀ p ∈ t₀.proto, p ≠ new ∧ ∃ q, h.cell? p = some q ∧ 2 ≤ q.refCount := by
  intro p hp
  obtain ⟨c, hc, hb⟩ := body?_eq_some_iff.mp hold
  obtain ⟨d, hd, hdb⟩ := body?_eq_some_iff.mp hnew
  have hnames := hs.coherent.counted.bodies old c hc
  rw [hb] at hnames
  have hkind := hnames (p, .object) (List.mem_map.mpr ⟨p, Option.mem_toList.mpr hp, rfl⟩)
  obtain ⟨q, hq, hqk⟩ := kind?_eq_some_iff.mp hkind
  refine ⟨?_, q, hq, ?_⟩
  · rintro rfl
    rw [hd] at hq
    cases hq
    unfold Cell.kind at hqk
    rw [hdb] at hqk
    cases hqk
  · have := hs.coherent.counted.two_le hq hc hd (Ne.symm hne)
      (by rw [hb]; exact Option.mem_toList.mpr hp)
      (by rw [hdb]; exact Option.mem_toList.mpr (hproto ▸ hp))
    omega

/-- The old shape can be given up: the new one has its prototype. -/
theorem Concludes.release (hs : h.Sound x n) (hold : h.body? old = some (.shape t₀))
    (hnew : h.body? new = some (.shape t)) (hne : new ≠ old) (hproto : t.proto = t₀.proto)
    (e : HeapM.release old h = .ok (u, h')) : Concludes old new n t t h h' := by
  obtain ⟨c, hc, hb⟩ := body?_eq_some_iff.mp hold
  have hset := hs.settled _ c (tenant?_of_cell? hc)
  have hp := hs.proto_shared hold hnew hne hproto
  obtain ⟨hghost, hk, hcell⟩ := release_shape hc hb hset.counted hne hp e
  have hafter : h'.body? new = some (.shape t) := by
    unfold Heap.body? at hnew ⊢
    rw [hcell, hnew]
  refine ⟨hnew, hafter, rfl, by unfold Heap.refCount?; rw [hcell], fun r b _ hr => hk.body? hr,
    fun y hy => (hy.of_release e).1, fun y i g hi _ hy => (hy.of_release (hghost i g hi)).1⟩

/-- Edits of the new shape do not look at other bodies either. -/
theorem modifyShape_modifyBody {f : Shape → Shape} (hi : i ≠ s.index)
    (e : HeapM.modifyShape s f h = .ok (u, h')) :
    HeapM.modifyShape s f (h.modifyBody i g) = .ok ((), h'.modifyBody i g) := by
  obtain ⟨t, c, hc, hb, rfl⟩ := modifyShape_eq_ok e
  have hc' : (h.modifyBody i g).shape? s = some t := by
    rw [shape?_iff_body?, body?_modifyBody_other hi]
    exact body?_eq_some_iff.mpr ⟨c, hc, hb⟩
  unfold HeapM.modifyShape
  rw [hc']
  simp only [modifyShapeAt, modifyBody]
  rw [modifyCell_comm h _ _ hi]

theorem register_modifyBody (hi : i ≠ s.index) (e : HeapM.register s h = .ok (u, h')) :
    HeapM.register s (h.modifyBody i g) = .ok ((), h'.modifyBody i g) := by
  unfold HeapM.register at e ⊢
  have hshape : (h.modifyBody i g).shape? s = h.shape? s := by
    unfold Heap.shape?
    rw [body?_modifyBody_other hi]
  rw [hshape]
  cases ht : h.shape? s with
  | none =>
    rw [ht] at e
    cases e
  | some t =>
    rw [ht] at e
    dsimp only at e ⊢
    split at e
    · cases e
    · rename_i hreg
      cases e
      rw [if_neg hreg]
      simp only [modifyShapeAt, modifyBody]
      rw [modifyCell_comm h _ _ hi]
      rfl

theorem Concludes.modifyShape {f : Shape → Shape} (hcon : Concludes old new n t t' h h₁)
    (e : HeapM.modifyShape new f h₁ = .ok (u, h')) (hentries : (f t').entries = t'.entries)
    (hproto : (f t').proto = t'.proto) (hhash : (Body.shape (f t')).hash? = (Body.shape t').hash?) :
    Concludes old new n t (f t') h h' := by
  have hf : ∀ t'', h₁.body? new = some (.shape t'') →
      (f t'').proto = t''.proto ∧ (Body.shape (f t'')).hash? = (Body.shape t'').hash? := by
    intro t'' ht''
    rw [hcon.after] at ht''
    cases ht''
    exact ⟨hproto, hhash⟩
  obtain ⟨t'', hre⟩ := Rewrites.of_modifyShape e
  obtain rfl : t'' = t' := by
    have := hre.before
    rw [hcon.after] at this
    cases this
    rfl
  refine ⟨hcon.before, hre.after, hentries.trans hcon.entries, (hre.count new).trans hcon.count,
    fun r b hr hb => ?_, fun y hy => ((hcon.sound y hy).of_modifyShape hf e).1, fun y i g hio hin hy => ?_⟩
  · rw [hre.others r hr] at hb
    exact hcon.bodies r b hr hb
  · have hsound := hcon.ghost y i g hio hin hy
    refine (hsound.of_modifyShape (fun t'' ht'' => ?_) (modifyShape_modifyBody hin e)).1
    rw [body?_modifyBody_other hin] at ht''
    exact hf t'' ht''

theorem Concludes.register (hcon : Concludes old new n t t' h h₁)
    (e : HeapM.register new h₁ = .ok (u, h')) :
    Concludes old new n t { t' with isHashed := true } h h' := by
  obtain ⟨t₂, _, hre⟩ := Rewrites.of_register e
  cases hre.before.symm.trans hcon.after
  refine ⟨hcon.before, hre.after, hcon.entries, (hre.count new).trans hcon.count, fun r b hr hb => ?_,
    fun y hy => ((hcon.sound y hy).of_register e).1, fun y i g hio hin hy => ?_⟩
  · rw [hre.others r hr] at hb
    exact hcon.bodies r b hr hb
  · exact ((hcon.ghost y i g hio hin hy).of_register (register_modifyBody hin e)).1

/-! ## Making the new shape -/

/-- A copy of a shape is made, which is still there then. -/
theorem Sound.of_cloneShape {res : Except OutOfMemory Handle} (hs : h.Sound x n)
    (e : (AllocM.cloneShape old).run h = .ok (res, h')) :
    (∃ new t, res = .ok new ∧ Creates x n new t.copy h h' ∧ h'.body? old = some (.shape t) ∧ new ≠ old) ∨
      (∃ err, res = .error err) ∧ h'.Sound x n ∧ Keeps h h' := by
  obtain ⟨t₀, _, e₀, e⟩ := AllocM.lift_bind_eq_ok e
  obtain ⟨_, rfl⟩ := shape_eq_ok e₀
  rcases AllocM.bind_eq_ok e with ⟨p, h₁, e₁, e⟩ | ⟨err, e₁, rfl⟩
  · obtain ⟨hk₁, ⟨q, he, hsize, hs₁⟩ | ⟨⟨err, he⟩, _⟩⟩ := hs.of_reserve e₁
    · cases he
      obtain ⟨t, _, e₂, e⟩ := AllocM.lift_bind_eq_ok e
      obtain ⟨ht, rfl⟩ := shape_eq_ok e₂
      obtain ⟨_, h₂, e₃, e⟩ := AllocM.lift_bind_eq_ok e
      obtain ⟨new, e₄, rfl⟩ := AllocM.lift_eq_ok e
      obtain ⟨c, hc, hb⟩ := body?_eq_some_iff.mp ht
      have hproto := hs₁.coherent.counted.bodies old c hc
      rw [hb] at hproto
      rw [← hsize] at hs₁
      obtain ⟨hnew, holds⟩ := hs₁.installShape (t := t.copy) rfl hproto e₃ e₄
      obtain ⟨hne, hold⟩ := holds old _ ht
      refine .inl ⟨new, t, rfl, ⟨hnew.sound, hnew.shape, ?_, hnew.count⟩, hold, Ne.symm hne⟩
      exact (Spares.of_keeps hk₁ hs₁ (fun _ hr => hr) [new]).trans hnew.spares
    · cases he
  · obtain ⟨hk₁, ⟨q, he, _⟩ | ⟨_, hs₁⟩⟩ := hs.of_reserve e₁
    · cases he
    · exact .inr ⟨⟨err, rfl⟩, hs₁, hk₁⟩

/-- A new shape that is given up again is gone. -/
theorem Creates.undo (hnew : Creates x n s t h h₁) (e : HeapM.release s h₁ = .ok (u, h')) :
    h'.Sound x n ∧ Keeps h h' := by
  obtain ⟨h₂, hok, hs', hd⟩ := hnew.sound.release
  rw [hok] at e
  cases e
  have hk := hd.keeps hs'
  refine ⟨hs', fun r c' hc' => ?_⟩
  have hrs : r ≠ s := by
    rintro rfl
    -- nobody is left who could hold a reference
    obtain ⟨c, hc, hone⟩ := refCount?_eq_some_iff.mp hnew.count
    have hcount := hnew.sound.coherent.counted.counts r c hc
    have hcount' := hs'.coherent.counted.counts r c' hc'
    have hpos := (hs'.settled _ c' (tenant?_of_cell? hc')).counted
    have hlocals := hd.calm.locals r
    have hdropped := hd.calm.dropped
    have hcells : h'.heldByCells r = 0 := by
      by_contra hne
      obtain ⟨i, d, hd', hmem⟩ := exists_of_total_pos (Nat.pos_of_ne_zero hne)
      rw [← cell?_handle] at hd'
      have hbody : h'.body? (h'.handle i) = some d.body := body?_eq_some_iff.mpr ⟨d, hd', rfl⟩
      exact hnew.sound.coherent.counted.unheld hnew.count (hk.body? hbody) (List.count_pos_iff.mp hmem)
    simp only [Ledger.plus_apply, List.count_singleton_self, held] at hcount hcount'
    rw [hdropped] at hcount'
    omega
  obtain ⟨c₁, hc₁, hb₁⟩ := hk r c' hc'
  have hbody := hnew.spares.bodies r c₁.body (by simpa using hrs) (body?_eq_some_iff.mpr ⟨c₁, hc₁, rfl⟩)
  obtain ⟨c, hc, hb⟩ := body?_eq_some_iff.mp hbody
  exact ⟨c, hc, hb₁.trans hb.symm⟩

/-- The new shape is made, and then what is left to do is done.  The new shape may stand where it stands
in the end. -/
def Replaces (x : Ledger) (n : Nat) (old new : Handle) (t₀ t' : Shape) (h h' : Heap) : Prop :=
  ∃ h₁ t, h₁.body? old = some (.shape t₀) ∧ new ≠ old ∧ Provides x n new t h h₁ ∧
    Concludes old new n t t' h₁ h' ∧ (h.Laid → h.Admits new t')

/-- A shape with one more property, found in the table, is another one with the same prototype.  Both are
as they were once the caller has a reference to it. -/
theorem Sound.retain_sharedTransition {atom : Atom} {flags : Flags} (hs : h.Sound x n)
    (ht₀ : h.body? old = some (.shape t₀)) (hreg : t₀.isHashed = true)
    (hfound : h.sharedTransition? t₀ atom flags = some new) (e : HeapM.retain new h = .ok (u, h₁)) :
    ∃ t, Extended atom flags t₀ t ∧ h.body? new = some (.shape t) ∧ new ≠ old ∧ h₁.Sound (x.plus [new]) n ∧
      Keeps h h₁ ∧ h₁.body? old = some (.shape t₀) ∧ h₁.body? new = some (.shape t) := by
  have htest := List.find?_some hfound
  cases ht : h.shape? new with
  | none => simp [ht] at htest
  | some t =>
    simp only [ht, Shape.isExtendedBy, Bool.and_eq_true, beq_iff_eq] at htest
    obtain ⟨hproto, hentries⟩ := htest
    have ht := shape?_iff_body?.mp ht
    obtain ⟨hs₁, hk₁, _⟩ := hs.retain e
    have hlive : ∀ {q b}, h.body? q = some b → h₁.body? q = some b := by
      intro q b hb
      refine hk₁.body_of_contains ?_ hb
      rw [contains_retainOption (o := some new) e, contains_eq_isSome, hb]
      rfl
    have hne : new ≠ old := by
      rintro rfl
      rw [ht] at ht₀
      cases ht₀
      simpa using congrArg Array.size hentries
    have hreg' := hs.coherent.tabled.isHashed_of_candidate ht (List.mem_of_find?_eq_some hfound)
    exact ⟨t, ⟨hproto, hentries, hreg'.trans hreg.symm⟩, ht, hne, hs₁, hk₁, hlive ht₀, hlive ht⟩

/-- A shape with one more property is found in the table. -/
theorem Sound.of_sharedTransition {atom : Atom} {flags : Flags} (hs : h.Sound x n)
    (ht₀ : h.body? old = some (.shape t₀)) (hreg : t₀.isHashed = true)
    (hfound : h.sharedTransition? t₀ atom flags = some new) (e₁ : HeapM.retain new h = .ok (u, h₁))
    (e₂ : HeapM.release old h₁ = .ok (u, h')) :
    ∃ t, Extended atom flags t₀ t ∧ h.body? new = some (.shape t) ∧ Replaces x n old new t₀ t h h' := by
  obtain ⟨t, hext, ht, hne, hs₁, hk₁, hold₁, hnew₁⟩ := hs.retain_sharedTransition ht₀ hreg hfound e₁
  refine ⟨t, hext, ht, h₁, t, hold₁, hne, ⟨hs₁, hnew₁, ?_, fun hl => hl.of_keeps hk₁, .inl ht⟩,
    .release hs₁ hold₁ hnew₁ hne hext.proto e₂, fun hl => hl.shapes new t ht⟩
  exact .of_keeps hk₁ hs₁ (fun _ hr => by simp; omega) _

/-- A body that ends as it began was not edited. -/
theorem Keeps.of_rewrites {b : Body} (hre : Rewrites s b b h h') : Keeps h h' := by
  intro r c' hc'
  have hbody : h'.body? r = some c'.body := body?_eq_some_iff.mpr ⟨c', hc', rfl⟩
  have hsame : h.body? r = h'.body? r := by
    by_cases hr : r = s
    · rw [hr, hre.before, hre.after]
    · exact (hre.others r hr).symm
  rw [← hsame] at hbody
  obtain ⟨c, hc, hb⟩ := body?_eq_some_iff.mp hbody
  exact ⟨c, hc, hb.symm⟩

/-- The copy that got the entry takes the place of the shape, and is shared in its stead. -/
theorem Creates.replaces {atom : Atom} {flags : Flags} {index : Nat} {res : Except OutOfMemory (Handle × Nat)}
    (hs : h.Sound x n) (ht₀ : h.body? old = some (.shape t₀))
    (hnone : t₀.isHashed = true → h.sharedTransition? t₀ atom flags = none) (hnew : Creates x n new t h h₁)
    (hold : h₁.body? old = some (.shape t₀)) (hne : new ≠ old) (hext : Stretched atom flags t₀.copy t)
    (e : (do
      HeapM.release old
      if t₀.isHashed then
        HeapM.modifyShape new fun s => { s with hash := Shape.transitionHash s.hash atom flags }
        HeapM.register new
      return (new, index) : AllocM (Handle × Nat)).run h₁ = .ok (res, h')) :
    res = .ok (new, index) ∧
      ∃ t', Extended atom flags t₀ t' ∧ h'.refCount? new = some 1 ∧ Replaces x n old new t₀ t' h h' := by
  obtain ⟨_, h₂, e₁, e⟩ := AllocM.lift_bind_eq_ok e
  have hcon := Concludes.release hnew.sound hold hnew.shape hne hext.proto e₁
  have hreg : t.isHashed = false := hext.isHashed
  have hwired : h.Laid → t.Wired := fun hl => hext.wired ((hl.shapes old t₀ ht₀).wired.of_eq rfl rfl)
  have hprov := hnew.provides fun hl => admits_of_unshared (hwired hl) hreg
  split at e
  · rename_i hshared
    obtain ⟨_, h₃, e₂, e⟩ := AllocM.lift_bind_eq_ok e
    obtain ⟨_, h₄, e₃, e⟩ := AllocM.lift_bind_eq_ok e
    obtain ⟨rfl, rfl⟩ := AllocM.pure_eq_ok e
    have hcon' := (hcon.modifyShape e₂ rfl rfl (by simp [Body.hash?, hreg])).register e₃
    refine ⟨rfl, _, ?_, hcon'.count.trans hnew.count, h₁, t, hold, hne, hprov, hcon', fun hl => ?_⟩
    · exact ⟨hext.proto, hext.entries, hshared.symm⟩
    · -- the copy, shared under its new hash, is the shape itself extended
      refine Stretched.admits (t := t₀) ⟨⟨?_, ?_, ?_⟩, ?_, fun _ => ?_, ?_⟩ hl hs.coherent.tabled ht₀ hnone
      · exact hext.proto
      · exact hext.entries
      · exact hshared.symm
      · exact hext.holes
      · exact (hwired hl).of_eq rfl rfl
      · rw [if_pos hshared]
        exact congrArg (Shape.transitionHash · atom flags) hext.hash
  · rename_i hshared
    obtain ⟨rfl, rfl⟩ := AllocM.pure_eq_ok e
    have hsame : t.isHashed = t₀.isHashed := hreg.trans (Bool.eq_false_of_not_eq_true hshared).symm
    exact ⟨rfl, t, ⟨hext.proto, hext.entries, hsame⟩, hcon.count.trans hnew.count, h₁, t, hold, hne, hprov,
      hcon, fun hl => admits_of_unshared (hwired hl) hreg⟩

/-- A shape others share is copied, the copy gets the entry, and takes the place of the shape. -/
theorem Sound.of_extendedCopy {atom : Atom} {flags : Flags} {res : Except OutOfMemory (Handle × Nat)}
    (hs : h.Sound x n) (ht₀ : h.body? old = some (.shape t₀))
    (hnone : t₀.isHashed = true → h.sharedTransition? t₀ atom flags = none)
    (e : (do
      let clone ← AllocM.cloneShape old
      let index ←
        try AllocM.extendShape clone atom flags
        catch e =>
          HeapM.release clone
          throw e
      HeapM.release old
      if t₀.isHashed then
        HeapM.modifyShape clone fun s => { s with hash := Shape.transitionHash s.hash atom flags }
        HeapM.register clone
      return (clone, index) : AllocM (Handle × Nat)).run h = .ok (res, h')) :
    (∃ new t', res = .ok (new, t₀.entries.size) ∧ Extended atom flags t₀ t' ∧ h'.refCount? new = some 1 ∧
        Replaces x n old new t₀ t' h h') ∨ (∃ err, res = .error err) ∧ h'.Sound x n ∧ Keeps h h' := by
  rcases AllocM.bind_eq_ok e with ⟨new, h₁, e₁, e⟩ | ⟨err, e₁, rfl⟩
  · rcases hs.of_cloneShape e₁ with ⟨new', t, he, hnew, hold, hne⟩ | ⟨⟨err, he⟩, _⟩
    · cases he
      have hback := hnew.spares.bodies old _ (by simpa using Ne.symm hne) hold
      rw [ht₀] at hback
      cases hback
      rcases AllocM.bind_eq_ok e with ⟨index, h₂, e₂, e⟩ | ⟨err, e₂, rfl⟩
      · rcases AllocM.tryCatch_eq_ok e₂ with ⟨_, e₃, hres⟩ | ⟨err, h₃, _, e₃⟩
        · cases hres
          obtain ⟨hs₂, t₁, ⟨t₂, hres, hre, hext⟩ | ⟨⟨err, he⟩, _⟩⟩ := hnew.sound.of_extendShape e₃
          · cases hres
            obtain rfl := (Rewrites.refl hnew.shape).before_eq hre
            have hold₂ : h₂.body? old = some (.shape t₀) := (hre.others old (Ne.symm hne)).trans hold
            obtain ⟨hres, t', hext', hone, hrep⟩ :=
              (hnew.reshape hre hs₂).replaces hs ht₀ hnone hold₂ hne hext e
            exact .inl ⟨new, t', hres, hext', hone, hrep⟩
          · cases he
        · obtain ⟨_, _, _, e₃⟩ := AllocM.lift_bind_eq_ok e₃
          cases e₃
      · rcases AllocM.tryCatch_eq_ok e₂ with ⟨_, _, hres⟩ | ⟨err', h₃, e₃, e₄⟩
        · cases hres
        · obtain ⟨_, h₄, e₅, e₆⟩ := AllocM.lift_bind_eq_ok e₄
          obtain ⟨_, rfl⟩ := AllocM.throw_eq_ok e₆
          obtain ⟨hs₂, t₁, ⟨t₂, hres, _⟩ | ⟨_, hre⟩⟩ := hnew.sound.of_extendShape e₃
          · cases hres
          · obtain rfl := (Rewrites.refl hnew.shape).before_eq hre
            exact .inr ⟨⟨err, rfl⟩, (hnew.reshape hre hs₂).undo e₅⟩
    · cases he
  · rcases hs.of_cloneShape e₁ with ⟨new', t, he, _⟩ | ⟨_, hs', hk⟩
    · cases he
    · exact .inr ⟨⟨err, rfl⟩, hs', hk⟩

/-- Adding a property replaces a shared shape, edits one that has no other owner, or changes no shape
if memory runs out. -/
theorem Sound.of_addProperty {atom : Atom} {flags : Flags} {res : Except OutOfMemory (Handle × Nat)}
    (hs : h.Sound x n) (e : (AllocM.addProperty old atom flags).run h = .ok (res, h')) :
    (∃ new t₀ t', res = .ok (new, t₀.entries.size) ∧ Extended atom flags t₀ t' ∧
        (h.body? new = some (.shape t') ∨ h'.refCount? new = some 1) ∧ Replaces x n old new t₀ t' h h') ∨
      (∃ t₀ t', res = .ok (old, t₀.entries.size) ∧ Extended atom flags t₀ t' ∧
        h.refCount? old = some 1 ∧ h'.Sound x n ∧ Reshapes old t₀ t' h h' ∧ (h.Laid → h.Admits old t')) ∨
      (∃ err, res = .error err) ∧ h'.Sound x n ∧ Keeps h h' := by
  unfold AllocM.addProperty at e
  obtain ⟨t₀, _, e₀, e⟩ := AllocM.lift_bind_eq_ok e
  obtain ⟨ht₀, rfl⟩ := shape_eq_ok e₀
  dsimp only at e
  rw [AllocM.get_bind] at e
  generalize hfound : (if t₀.isHashed = true then h.sharedTransition? t₀ atom flags else none) = found at e
  cases found with
  | some new =>
    dsimp only at e
    obtain ⟨_, h₁, e₁, e⟩ := AllocM.lift_bind_eq_ok e
    obtain ⟨_, h₂, e₂, e⟩ := AllocM.lift_bind_eq_ok e
    obtain ⟨t, _, e₃, e⟩ := AllocM.lift_bind_eq_ok e
    obtain ⟨rfl, rfl⟩ := AllocM.pure_eq_ok e
    obtain ⟨ht, rfl⟩ := shape_eq_ok e₃
    split at hfound
    · rename_i hreg
      obtain ⟨t', hext, hthere, hrep⟩ := hs.of_sharedTransition ht₀ hreg hfound e₁ e₂
      refine .inl ⟨new, t₀, t', ?_, hext, .inl hthere, hrep⟩
      obtain ⟨h₁, t₁, _, _, _, hcon, _⟩ := hrep
      rw [hcon.after] at ht
      cases ht
      rw [hext.entries, Array.size_push]
      rfl
    · cases hfound
  | none =>
    have hnone : t₀.isHashed = true → h.sharedTransition? t₀ atom flags = none := fun hreg => by
      rwa [if_pos hreg] at hfound
    dsimp only at e
    rw [AllocM.get_bind] at e
    split at e
    · rcases hs.of_extendedCopy ht₀ hnone e with ⟨new, t', hres, hext, hone, hrep⟩ | hfail
      · exact .inl ⟨new, t₀, t', hres, hext, .inr hone, hrep⟩
      · exact .inr (.inr hfail)
    · rename_i hone
      have hone : h.refCount? old = some 1 := by simpa using hone
      rcases AllocM.bind_eq_ok e with ⟨index, h₁, e₁, e⟩ | ⟨err, e₁, rfl⟩
      · obtain ⟨rfl, rfl⟩ := AllocM.pure_eq_ok e
        obtain ⟨hs', t, ⟨t', hres, hre, hext⟩ | ⟨⟨err, he⟩, _⟩⟩ := hs.of_extendShape e₁
        · cases hres
          obtain rfl := (Rewrites.refl ht₀).before_eq hre
          exact .inr (.inl ⟨t, t', rfl, hext.toExtended, hone, hs', hre, fun hl =>
            hext.admits hl hs.coherent.tabled ht₀ hnone⟩)
        · cases he
      · obtain ⟨hs', t, ⟨t', hres, _⟩ | ⟨_, hre⟩⟩ := hs.of_extendShape e₁
        · cases hres
        · exact .inr (.inr ⟨⟨err, rfl⟩, hs', .of_rewrites hre⟩)

/-- `t'` is the layout `t` outside the table. -/
structure Unshared (t t' : Shape) : Prop where
  proto : t'.proto = t.proto
  entries : t'.entries = t.entries
  chains : t'.toChains = t.toChains
  isHashed : t'.isHashed = false

theorem Unshared.admits (hun : Unshared t t') (hl : h.Laid) (ht : h.body? s = some (.shape t)) {q : Handle} :
    h.Admits q t' :=
  admits_of_unshared ((hl.shapes s t ht).wired.of_eq hun.entries hun.chains) hun.isHashed

/-- Taking a shape over for changes replaces a shared shape, takes one that has no other owner out of the
table, or changes no shape if memory runs out.  The shape has one reference then. -/
theorem Sound.of_prepareUpdate {res : Except OutOfMemory Handle} (hs : h.Sound x n)
    (e : (AllocM.prepareUpdate old).run h = .ok (res, h')) :
    (∃ new t₀ t', res = .ok new ∧ Unshared t₀ t' ∧ h'.refCount? new = some 1 ∧
        Replaces x n old new t₀ t' h h') ∨
      (∃ t₀ t', res = .ok old ∧ Unshared t₀ t' ∧ h'.refCount? old = some 1 ∧ h'.Sound x n ∧
        Reshapes old t₀ t' h h') ∨
      (∃ err, res = .error err) ∧ h'.Sound x n ∧ Keeps h h' := by
  unfold AllocM.prepareUpdate at e
  rw [AllocM.get_bind] at e
  split at e
  · rcases AllocM.bind_eq_ok e with ⟨new, h₁, e₁, e⟩ | ⟨err, e₁, rfl⟩
    · rcases hs.of_cloneShape e₁ with ⟨new', t, he, hnew, hold, hne⟩ | ⟨⟨err, he⟩, _⟩
      · cases he
        obtain ⟨_, h₂, e₂, e⟩ := AllocM.lift_bind_eq_ok e
        obtain ⟨_, h₃, e₃, e⟩ := AllocM.lift_bind_eq_ok e
        obtain ⟨rfl, rfl⟩ := AllocM.pure_eq_ok e
        have hcon := (Concludes.release hnew.sound hold hnew.shape hne rfl e₂).modifyShape e₃ rfl rfl rfl
        have hback := hnew.spares.bodies old _ (by simpa using Ne.symm hne) hold
        have hun : Unshared t t.copy.bump := ⟨rfl, rfl, rfl, rfl⟩
        refine .inl ⟨new, t, _, rfl, hun, hcon.count.trans hnew.count, h₁, _, hold, hne,
          hnew.provides fun hl => ?_, hcon, fun hl => hun.admits hl hback⟩
        have hcopy : Unshared t t.copy := ⟨rfl, rfl, rfl, rfl⟩
        exact hcopy.admits hl hback
      · cases he
    · rcases hs.of_cloneShape e₁ with ⟨new', t, he, _⟩ | ⟨_, hs', hk⟩
      · cases he
      · exact .inr (.inr ⟨⟨err, rfl⟩, hs', hk⟩)
  · rename_i hone
    have hone : h.refCount? old = some 1 := by simpa using hone
    obtain ⟨t, _, e₁, e⟩ := AllocM.lift_bind_eq_ok e
    obtain ⟨ht, rfl⟩ := shape_eq_ok e₁
    -- the last step is the same whether the shape was in the table or not
    have hlast : ∀ {h₁ : Heap} {t₁ : Shape}, h₁.Sound x n → Reshapes old t t₁ h h₁ → Unshared t t₁ →
        ((liftM (HeapM.modifyShape old (·.bump)) : AllocM Unit) >>= fun _ => pure old).run h₁ =
          .ok (res, h') →
        ∃ t₀ t', res = .ok old ∧ Unshared t₀ t' ∧ h'.refCount? old = some 1 ∧ h'.Sound x n ∧
          Reshapes old t₀ t' h h' := by
      intro h₁ t₁ hs₁ hre₁ hun e
      obtain ⟨_, h₂, e₂, e⟩ := AllocM.lift_bind_eq_ok e
      obtain ⟨rfl, rfl⟩ := AllocM.pure_eq_ok e
      obtain ⟨hs₂, t₂, hre₂⟩ := hs₁.of_modifyShape (f := (·.bump)) (fun _ _ => ⟨rfl, rfl⟩) e₂
      obtain rfl := hre₁.before_eq hre₂
      have hre := hre₁.trans hre₂
      exact ⟨t, t₂.bump, rfl, ⟨hun.proto, hun.entries, hun.chains, hun.isHashed⟩,
        (hre.count old).trans hone, hs₂, hre⟩
    cases hreg : t.isHashed with
    | true =>
      simp only [hreg, if_true] at e
      obtain ⟨_, h₁, e₂, e⟩ := AllocM.lift_bind_eq_ok e
      obtain ⟨hs₁, t₁, _, hre₁⟩ := hs.of_unregister e₂
      obtain rfl := (Rewrites.refl ht).before_eq hre₁
      exact .inr (.inl (hlast hs₁ hre₁ ⟨rfl, rfl, rfl, rfl⟩ e))
    | false =>
      simp only [hreg, Bool.false_eq_true, if_false] at e
      exact .inr (.inl (hlast hs (.refl ht) ⟨rfl, rfl, rfl, hreg⟩ e))

/-! ## Replacing a shape that the ledger owns -/

/-- The ledger has the new shape for the old one. -/
theorem Replaces.owned (hrep : Replaces x n old new t₀ t' h h') (hx : 0 < x old)
    (hsole : h.body? new = some (.shape t') ∨ h'.refCount? new = some 1) :
    ∃ y, x = y.plus [old] ∧ Provides y n new t' h h' := by
  obtain ⟨h₁, t, hold, hne, hnew, hcon, hok⟩ := hrep
  have hxy : x = (x.minus [old]).plus [old] := by
    refine (Ledger.minus_plus fun r => ?_).symm
    by_cases hr : old = r
    · subst hr
      simp only [List.count_singleton_self]
      omega
    · simp [hr]
  refine ⟨x.minus [old], hxy, ?_⟩
  have hs' : h'.Sound ((x.minus [old]).plus [new]) n := by
    refine hcon.sound _ (hnew.sound.of_eq fun r => ?_)
    nth_rewrite 1 [hxy]
    rw [Ledger.plus_comm]
  refine ⟨hs', hcon.after, ?_, fun hl => ?_, hsole⟩
  · refine ⟨fun r b hr hb => hnew.spares.bodies r b hr (hcon.bodies r b (by simpa using hr) hb), ?_⟩
    intro r k hr hk
    have hlive := hs'.coherent.counted.owned r (by simp only [Ledger.plus_apply]; omega)
    have hk₁ := hnew.spares.kinds r k (by rw [hxy]; simp only [Ledger.plus_apply]; omega) hk
    rw [contains_eq_isSome] at hlive
    obtain ⟨b, hb⟩ := Option.isSome_iff_exists.mp hlive
    rw [kind?_eq_map] at hk₁ ⊢
    by_cases hrn : r = new
    · subst hrn
      rw [hnew.shape] at hk₁
      rw [hcon.after]
      exact hk₁
    · rw [hcon.bodies r b hrn hb] at hk₁
      rw [hb]
      exact hk₁
  · refine (hnew.laid hl).of_shape (x := Ledger.empty) (s := new) ⟨fun r b hr hb => ?_, ?_⟩ hcon.after
      ((hok hl).mono fun q t' hq => hnew.spares.bodies q _ (by simpa using hq)) ?_
    · exact hcon.bodies r b (by simpa using hr) hb
    · intro r k hr
      simp at hr
    · intro r o ho _ hos
      rw [hcon.entries]
      exact (hnew.laid hl).fits r o t ho (hos ▸ hnew.shape)

end Heap

end ObjectMemory
