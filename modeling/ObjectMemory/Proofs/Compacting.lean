import ObjectMemory.Proofs.Defining
set_option autoImplicit false

/-!
# Compacting layouts and changing prototypes

A deleted property leaves a hole, which refers to nothing.  Compaction leaves the holes out of the shape
and of the object at once, so that the references of the object stay what they were.
-/

namespace ObjectMemory

/-- Holes refer to nothing: what is kept has all references. -/
theorem AllocM.typedRefs_withoutHoles {zs kept : List (Entry × Property)}
    (e : AllocM.withoutHoles zs = some kept) :
    (kept.map (·.2)).flatMap Property.typedRefs = (zs.map (·.2)).flatMap Property.typedRefs := by
  induction zs generalizing kept with
  | nil =>
    cases e
    rfl
  | cons z rest ih =>
    obtain ⟨entry, p⟩ := z
    unfold AllocM.withoutHoles at e
    split at e
    · split at e
      · rename_i hp
        rw [ih e, hp]
        rfl
      · cases e
    · obtain ⟨kept', hkept, rfl⟩ := Option.map_eq_some_iff.mp e
      simp only [List.map_cons, List.flatMap_cons, ih hkept]

/-- What is kept are the entries that are no holes. -/
theorem AllocM.withoutHoles_eq_filter {zs kept : List (Entry × Property)}
    (e : AllocM.withoutHoles zs = some kept) : kept = zs.filter fun c => !c.1.atom.isNull := by
  induction zs generalizing kept with
  | nil =>
    cases e
    rfl
  | cons z rest ih =>
    obtain ⟨entry, p⟩ := z
    unfold AllocM.withoutHoles at e
    split at e
    · rename_i hnull
      split at e
      · rw [ih e, List.filter_cons_of_neg (by simp [hnull])]
      · cases e
    · rename_i hnull
      obtain ⟨kept', hkept, rfl⟩ := Option.map_eq_some_iff.mp e
      rw [List.filter_cons_of_pos (by simpa using hnull), ih hkept]

namespace Object

theorem record_compact {o : Object} {t : Shape} {kept : List (Entry × Property)} {capacity : Nat}
    (hkept : AllocM.withoutHoles (t.entries.toList.zip o.properties.toList) = some kept) :
    ({ o with properties := (kept.map (·.2)).toArray, capacity := capacity } : Object).record
      (t.compact (kept.map (·.1)).toArray) = (o.record t).squeeze := by
  have hzip : (kept.map (·.1)).zip (kept.map (·.2)) = kept := by
    rw [List.zip_map', List.map_id']
  simp only [record, Record.squeeze, Shape.compact, hzip]
  rw [AllocM.withoutHoles_eq_filter hkept]

/-- Objects whose properties refer to the same cells refer to the same cells. -/
theorem typedRefs_congr {o : Object} {ps : Array Property} {capacity : Nat}
    (hps : ps.toList.flatMap Property.typedRefs = o.properties.toList.flatMap Property.typedRefs) :
    ({ o with properties := ps, capacity := capacity } : Object).typedRefs = o.typedRefs := by
  simp only [typedRefs, hps]

end Object

namespace Heap

variable {x y : Ledger} {n : Nat} {h h₁ h₂ h' : Heap} {r s : Handle} {o : Object} {t t' : Shape} {u : Unit}
  {atom : Atom}

/-! ## Compaction -/

/-- Shape and object lose their holes together. -/
theorem Valid.of_compact {kept : List (Entry × Property)} {capacity : Nat} (hv : h.Valid x)
    (ho : h.body? r = some (.object o)) (ht : h.body? o.shape = some (.shape t))
    (hreg : t.isHashed = false) (hone : h.refCount? o.shape = some 1)
    (hkept : AllocM.withoutHoles (t.entries.toList.zip o.properties.toList) = some kept)
    (e₁ : HeapM.modifyShape o.shape (·.compact (kept.map (·.1)).toArray) h = .ok (u, h₁))
    (e₂ : HeapM.modifyObject r (fun o =>
      { o with properties := (kept.map (·.2)).toArray, capacity := capacity }) h₁ = .ok (u, h')) :
    Reseats x r { o with properties := (kept.map (·.2)).toArray, capacity := capacity }
      (t.compact (kept.map (·.1)).toArray) h h' := by
  have hsize := hv.laid.fits r o t ho ht
  have htyped : ({ o with properties := (kept.map (·.2)).toArray, capacity := capacity } : Object).typedRefs =
      o.typedRefs := by
    refine Object.typedRefs_congr ?_
    rw [AllocM.typedRefs_withoutHoles hkept, List.map_snd_zip (by simp [hsize])]
  have hrefs : ({ o with properties := (kept.map (·.2)).toArray, capacity := capacity } : Object).refs =
      o.refs := by
    rw [← Object.map_typedRefs, htyped, Object.map_typedRefs]
  obtain ⟨hs₁, t₁, hre₁⟩ := hv.sound.of_modifyShape (f := (·.compact (kept.map (·.1)).toArray))
    (fun _ _ => ⟨rfl, rfl⟩) e₁
  obtain rfl := (Rewrites.refl ht).before_eq hre₁
  have hrs : r ≠ o.shape := by
    intro hr
    rw [← hr, ho] at ht
    cases ht
  have ho₁ : h₁.body? r = some (.object o) := (hre₁.others r hrs).trans ho
  have hnames : h₁.Names
      ({ o with properties := (kept.map (·.2)).toArray, capacity := capacity } : Object).typedRefs := by
    rw [htyped]
    exact hs₁.names ho₁
  obtain ⟨hs', hre₂⟩ := hs₁.of_modifyObject (y := x)
    (g := fun o => { o with properties := (kept.map (·.2)).toArray, capacity := capacity }) ho₁ hnames
    (fun q => by rw [hrefs]) e₂
  have hshape : h'.body? o.shape = some (.shape (t₁.compact (kept.map (·.1)).toArray)) :=
    (hre₂.others _ (Ne.symm hrs)).trans hre₁.after
  have hback : ∀ q b, q ≠ r → q ≠ o.shape → h'.body? q = some b → h.body? q = some b := by
    intro q b hq hqs hb
    rwa [hre₂.others q hq, hre₁.others q hqs] at hb
  refine ⟨⟨hs', .of_own hv ho hone hre₂.after rfl hshape hback ?_ ?_⟩, hre₂.after, hshape, hback, .inr ?_⟩
  · simp [Shape.compact]
  · exact admits_of_unshared ((hv.laid.shapes _ _ ht).wired.compact _) hreg
  · rw [hre₂.count, hre₁.count]
    exact hone

/-- A compaction runs out of memory when the object is to get a shape of its own, or it has got one and the
allocator refuses the new arrays. -/
theorem compactProperties_eq_error {err : OutOfMemory}
    (e : (AllocM.compactProperties r).run h = .ok (.error err, h')) :
    (AllocM.ownShape r).run h = .ok (.error err, h') ∨
      h'.refused ≠ [] ∧ ∃ s, (AllocM.ownShape r).run h = .ok (.ok s, h') := by
  rcases AllocM.bind_eq_ok e with ⟨s, h₁, e₁, e⟩ | ⟨err, e₁, hres⟩
  · obtain ⟨t, _, e₂, e⟩ := AllocM.lift_bind_eq_ok e
    obtain ⟨_, rfl⟩ := shape_eq_ok e₂
    obtain ⟨o, _, e₃, e⟩ := AllocM.lift_bind_eq_ok e
    obtain ⟨_, rfl⟩ := object_eq_ok e₃
    rw [ask_bind] at e
    split at e
    · split at e
      · exact (AllocM.fault_eq_ok e).elim
      · obtain ⟨_, _, _, e⟩ := AllocM.lift_bind_eq_ok e
        obtain ⟨_, _, _, e⟩ := AllocM.lift_bind_eq_ok e
        obtain ⟨_, _, _, e⟩ := AllocM.lift_bind_eq_ok e
        obtain ⟨_, _, hres⟩ := AllocM.lift_eq_ok e
        cases hres
    · rename_i hasked
      cases e
      refine .inr ⟨fun hnone => hasked ?_, s, e₁⟩
      rw [grants_of_refused_eq_nil hnone]
  · cases hres
    exact .inl e₁

theorem TakesOver.leaves {t₀ : Shape} (htake : TakesOver x r s o t₀ t h h') : Leaves x h h' :=
  ⟨htake.valid, htake.alters.apart⟩

theorem Valid.of_compactProperties {res : Except OutOfMemory Unit} (hv : h.Valid x)
    (e : (AllocM.compactProperties r).run h = .ok (res, h')) :
    (res = .ok () ∧ h'.Valid x ∧ Steady x h h' ∧ (∃ d, h'.record? r = some d) ∧
        Alters r Record.squeeze h h') ∨
      (∃ err, res = .error err) ∧ Leaves x h h' ∧ Steady x h h' := by
  cases res with
  | error err =>
    obtain ⟨res, e₁⟩ : ∃ res, (AllocM.ownShape r).run h = .ok (res, h') :=
      (compactProperties_eq_error e).elim (fun e₁ => ⟨_, e₁⟩) fun he => ⟨_, he.2.choose_spec⟩
    rcases hv.of_ownShape e₁ with ⟨_, _, _, _, _, htake⟩ | ⟨_, hgave⟩
    · exact .inr ⟨⟨err, rfl⟩, htake.leaves, htake.steady⟩
    · exact .inr ⟨⟨err, rfl⟩, hgave.toLeaves, hgave.steady⟩
  | ok u =>
    rcases AllocM.bind_eq_ok e with ⟨s, h₁, e₁, e⟩ | ⟨_, _, he⟩
    · rcases hv.of_ownShape e₁ with ⟨s', o₀, t₀, t', hres, htake⟩ | ⟨⟨_, he⟩, _⟩
      · cases hres
        obtain ⟨t, _, e₂, e⟩ := AllocM.lift_bind_eq_ok e
        obtain ⟨ht, rfl⟩ := shape_eq_ok e₂
        obtain ⟨o, _, e₃, e⟩ := AllocM.lift_bind_eq_ok e
        obtain ⟨ho, rfl⟩ := object_eq_ok e₃
        cases htake.shape.symm.trans ht
        cases htake.object.symm.trans ho
        rw [ask_bind] at e
        split at e
        · cases hkept : AllocM.withoutHoles (t'.entries.toList.zip o₀.properties.toList) with
          | none =>
            rw [hkept] at e
            exact (AllocM.fault_eq_ok e).elim
          | some kept =>
            rw [hkept] at e
            dsimp only at e
            obtain ⟨_, h₂, e₄, e⟩ := AllocM.lift_bind_eq_ok e
            obtain ⟨_, h₃, e₅, e⟩ := AllocM.lift_bind_eq_ok e
            obtain ⟨_, h₄, e₆, e⟩ := AllocM.lift_bind_eq_ok e
            obtain ⟨_, e₇, _⟩ := AllocM.lift_eq_ok e
            have hd := record?_eq_some_iff.mpr (drawing?_of_object ho ht)
            have hseat := htake.valid.of_compact ho ht htake.unshared.isHashed htake.count hkept e₄ e₅
            obtain ⟨hs₄, hsame₄⟩ := hseat.valid.sound.of_unchargeCell e₆ (contains_of_body? hseat.shape)
            have hr₄ : h₄.contains r = true := by
              rw [contains_eq_isSome, hsame₄.body, ← contains_eq_isSome]
              exact contains_of_body? hseat.object
            obtain ⟨hs', hsame'⟩ := hs₄.of_unchargeCell e₇ hr₄
            have hleft := hseat.valid.rests_of_unedited hs₄ (.of_same hsame₄)
            have hl' := hleft.trans (hleft.valid.rests_of_unedited hs' (.of_same hsame'))
            have halt := htake.alters.trans (hseat.alters hd (Object.record_compact hkept))
            have hlast := ((hsame'.body r).trans (hsame₄.body r)).trans hseat.object
            obtain ⟨_, _, hd'⟩ := hl'.valid.sound.exists_record hlast
            have hsteady := (htake.steady.trans hseat.steady).trans hl'.steady
            exact .inl ⟨rfl, hl'.valid, hsteady, ⟨_, hd'⟩, halt.then_apart hl'.apart⟩
        · cases e
      · cases he
    · cases he

/-! ## Deletion -/

/-- What is not there need not be deleted. -/
theorem deleteProperty_of_absent {res : Except OutOfMemory Bool} (hfind : h.findOwn? r atom = none)
    (e : (AllocM.deleteProperty r atom).run h = .ok (res, h')) : res = .ok true ∧ h' = h := by
  unfold AllocM.deleteProperty at e
  rw [AllocM.get_bind, hfind] at e
  exact AllocM.pure_eq_ok e

/-- An entry of a shape of one's own becomes a hole, and what stood there passes to the ledger. -/
theorem TakesOver.of_vacating {t₀ : Shape} {index : Nat} {old : Property}
    (htake : TakesOver x r s o t₀ t h h₁) (e₁ : HeapM.modifyShape s (·.remove index) h₁ = .ok (u, h₂))
    (e₂ : HeapM.replaceProperty r index .undefined h₂ = .ok (old, h')) : h'.Valid (x.plus old.refs) ∧
      Steady x h h' ∧
      Alters r ((·.edit index fun c => (c.1, .undefined)) ∘ (·.edit index fun c => (.hole, c.2))) h h' := by
  obtain ⟨hv₂, hre⟩ := htake.valid.of_modifyShape (f := (·.remove index)) htake.shape rfl rfl
    (by simp [Shape.remove])
    (admits_of_unshared (htake.wired.remove index) htake.unshared.isHashed) e₁
  have hnone : Property.undefined.refs = [] := rfl
  obtain ⟨hv', halt⟩ := Valid.of_replaceProperty (x := x) (p := .undefined)
    (by rw [hnone, Ledger.plus_nil]; exact hv₂) (fun a ha => by cases ha) e₂
  refine ⟨hv', (htake.steady.trans (htake.reseats hv₂ hre).steady).trans (steady_of_replaceProperty e₂), ?_⟩
  exact (htake.reshape (f := (·.edit index fun c => (.hole, c.2))) hv₂ hre Object.record_remove).trans halt

/-- An entry of a shape of one's own becomes a hole, and what stood there is given up. -/
theorem TakesOver.of_removal {t₀ : Shape} {index : Nat} {old : Property} {u' : Unit} {h₃ : Heap}
    (htake : TakesOver x r s o t₀ t h h₁) (e₁ : HeapM.modifyShape s (·.remove index) h₁ = .ok (u, h₂))
    (e₂ : HeapM.replaceProperty r index .undefined h₂ = .ok (old, h₃))
    (e₃ : HeapM.releaseProperty old h₃ = .ok (u', h')) : h'.Valid x ∧ Steady x h h' ∧
      Alters r ((·.edit index fun c => (c.1, .undefined)) ∘ (·.edit index fun c => (.hole, c.2))) h h' := by
  obtain ⟨hv₃, hsteady, halt⟩ := htake.of_vacating e₁ e₂
  obtain ⟨hv', hk⟩ := hv₃.of_releaseProperty e₃
  exact ⟨hv', hsteady.trans (.of_keeps hk), halt.then_apart (.of_keeps hk)⟩

/-- An operation may end with a compaction, which is given up if memory runs out. -/
theorem Performs.of_compaction {op : Record → Bool × Record} {f : Record → Record} {done : Bool}
    {res : Except OutOfMemory Unit} (hv : h₁.Valid x) (hsteady : Steady x h h₁) (halt : Alters r f h h₁)
    (hanswer : ∃ d, h.record? r = some d ∧ (op d).1 = done) (hf : ∀ d, h.record? r = some d → f d = (op d).2)
    (e : (tryCatch (AllocM.compactProperties r) fun _ => pure () : AllocM Unit).run h₁ = .ok (res, h')) :
    res = .ok () ∧ Performs x r op done h h' := by
  rcases AllocM.tryCatch_eq_ok e with ⟨_, e₁, rfl⟩ | ⟨_, h₂, e₁, e₂⟩
  · rcases hv.of_compactProperties e₁ with ⟨_, hv', hsteady', _, halt'⟩ | ⟨⟨_, he⟩, _⟩
    · refine ⟨rfl, hv', hanswer, hsteady.trans hsteady', _, halt.trans halt', fun d hd => .inr ?_⟩
      rw [← hf d hd]
      rfl
    · cases he
  · obtain ⟨rfl, rfl⟩ := AllocM.pure_eq_ok e₂
    rcases hv.of_compactProperties e₁ with ⟨he, _⟩ | ⟨_, hl, hsteady'⟩
    · cases he
    · exact ⟨rfl, hl.valid, hanswer, hsteady.trans hsteady', _, halt.then_apart hl.apart,
        fun d hd => .inl (hf d hd)⟩

theorem Valid.of_deleteProperty {res : Except OutOfMemory Bool} (hv : h.Valid x)
    (ho : h.body? r = some (.object o)) (e : (AllocM.deleteProperty r atom).run h = .ok (res, h')) :
    (∃ done, res = .ok done ∧ Performs x r (·.delete (h.findOwn? r atom)) done h h') ∨
      (∃ err, res = .error err) ∧ GivesUp x h h' := by
  obtain ⟨t, ht, hd⟩ := hv.sound.exists_record ho
  have honly : ∀ d, h.record? r = some d → d = o.record t := by
    intro d hd'
    rw [hd] at hd'
    cases hd'
    rfl
  cases hfind : h.findOwn? r atom with
  | none =>
    obtain ⟨rfl, rfl⟩ := deleteProperty_of_absent hfind e
    exact .inl ⟨true, rfl, hv, ⟨_, hd, rfl⟩, .refl x _, id, .of_apart (.refl [] _) ho, fun _ _ => .inl rfl⟩
  | some found =>
    obtain ⟨index, flags⟩ := found
    obtain ⟨q, hcol⟩ := hv.located hd hfind
    unfold AllocM.deleteProperty at e
    rw [AllocM.get_bind, hfind] at e
    dsimp only at e
    split at e
    · rename_i hfixed
      obtain ⟨rfl, rfl⟩ := AllocM.pure_eq_ok e
      have hdelete : ∀ d : Record, d.delete (some (index, flags)) = (false, d) := fun d =>
        if_neg (by simpa using hfixed)
      exact .inl ⟨false, rfl, hv, ⟨_, hd, by rw [hdelete]⟩, .refl x _, id, .of_apart (.refl [] _) ho,
        fun d _ => .inl (by rw [hdelete]; rfl)⟩
    · rename_i hfree
      have hdelete : ∀ d : Record, d.delete (some (index, flags)) = (true, d.set index .hole .undefined) :=
        fun d => if_pos (by simpa using hfree)
      rcases AllocM.bind_eq_ok e with ⟨s, h₁, e₁, e⟩ | ⟨err, e₁, rfl⟩
      · rcases hv.of_ownShape e₁ with ⟨s', o₀, t₀, t, hres, htake⟩ | ⟨⟨_, he⟩, _⟩
        · cases hres
          obtain ⟨_, _, e₂, e⟩ := AllocM.lift_bind_eq_ok e
          obtain ⟨_, rfl⟩ := shape_eq_ok e₂
          split at e
          · rcases AllocM.bind_eq_ok e with ⟨_, _, hfault, _⟩ | ⟨_, hfault, _⟩
            · cases hfault
            · cases hfault
          · obtain ⟨_, h₂, e₃, e⟩ := AllocM.lift_bind_eq_ok e
            obtain ⟨t', _, e₄, e⟩ := AllocM.lift_bind_eq_ok e
            obtain ⟨_, rfl⟩ := shape_eq_ok e₄
            obtain ⟨old, h₃, e₅, e⟩ := AllocM.lift_bind_eq_ok e
            obtain ⟨_, h₄, e₆, e⟩ := AllocM.lift_bind_eq_ok e
            obtain ⟨hv₄, hsteady, halt⟩ := htake.of_removal e₃ e₅ e₆
            have hset : ∀ d, h.record? r = some d →
                (d.edit index fun c => (.hole, c.2)).edit index (fun c => (c.1, .undefined)) =
                  (d.delete (some (index, flags))).2 := by
              intro d hd'
              rw [Record.edit_edit, hdelete, honly d hd', Record.edit_eq_set hcol]
              rfl
            have hanswer : ∃ d, h.record? r = some d ∧ (d.delete (some (index, flags))).1 = true :=
              ⟨_, hd, by rw [hdelete]⟩
            split at e
            · rcases AllocM.bind_eq_ok e with ⟨_, h₅, e₇, e⟩ | ⟨err, e₇, rfl⟩
              · obtain ⟨rfl, rfl⟩ := AllocM.pure_eq_ok e
                exact .inl ⟨true, rfl, (Performs.of_compaction hv₄ hsteady halt hanswer hset e₇).2⟩
              · cases (Performs.of_compaction hv₄ hsteady halt hanswer hset e₇).1
            · obtain ⟨rfl, rfl⟩ := AllocM.pure_eq_ok e
              exact .inl ⟨true, rfl, hv₄, hanswer, hsteady, _, halt, fun d hd' => .inl (hset d hd')⟩
        · cases he
      · rcases hv.of_ownShape e₁ with ⟨_, _, _, _, hres, _⟩ | ⟨_, hgave⟩
        · cases hres
        · exact .inr ⟨⟨err, rfl⟩, hgave⟩

/-! ## Prototypes -/

/-- A shape outside the table may get another prototype, which comes from the ledger. -/
theorem Valid.of_setProto {proto : Option Handle} (hv : h.Valid (x.plus proto.toList))
    (ht : h.body? s = some (.shape t)) (hreg : t.isHashed = false)
    (hnames : h.Names (proto.toList.map (·, .object)))
    (e : HeapM.modifyShape s (fun t => { t with proto := proto }) h = .ok (u, h')) :
    h'.Valid (x.plus t.proto.toList) ∧ Reshapes s t { t with proto := proto } h h' := by
  obtain ⟨t', c, hc, hb, rfl⟩ := modifyShape_eq_ok e
  obtain rfl : t' = t := by
    have := body?_eq_some_iff.mpr ⟨c, hc, hb⟩
    rw [ht] at this
    cases this
    rfl
  have hre := Rewrites.of_updates (Updates.modifyShapeAt hc hb fun t => { t with proto := proto }) hc hb
    (.modifyCell _ _ _)
  refine ⟨⟨?_, hv.laid.of_shape (.of_rewrites hre rfl x) hre.after ?_ fun q o ho _ hos => ?_⟩, hre⟩
  · refine hv.sound.rebody hc (by simp [hb, Body.kind]) (by simp [hb, Body.isZombie])
      (by simp [hb, Body.frame?]) (by simp [hb, Body.hash?]) ?_ ?_ fun q => ?_
    · simp only [hb]
      exact hnames
    · simp only [hb]
      exact Body.rested_of_kind (by simp [Body.kind])
    · simp only [hb, Body.refs, Ledger.plus_apply]
      omega
  · exact admits_of_unshared ((hv.laid.shapes s t' ht).wired.of_eq rfl rfl) hreg
  · exact hv.laid.fits q o t' ho (hos ▸ ht)

/-- Taking a reference to one cell leaves the others. -/
theorem cell?_retainOption {o : Option Handle} (e : HeapM.retainOption o h = .ok (u, h'))
    (hs : ∀ p ∈ o, p ≠ s) : h'.cell? s = h.cell? s := by
  cases o with
  | none =>
    obtain ⟨_, rfl⟩ := HeapM.pure_eq_ok e
    rfl
  | some p =>
    have e : HeapM.retain p h = .ok (u, h') := e
    unfold HeapM.retain at e
    split at e
    · rename_i c hc
      cases e
      exact (Updates.modifyCell hc _).cell_other (Ne.symm (hs p rfl))
    · cases e

theorem Sound.kind?_of_proto? {p : Handle} (hs : h.Sound x n) (hp : h.proto? r = some p) :
    h.kind? p = some .object := by
  obtain ⟨t, ht, hproto⟩ := Option.bind_eq_some_iff.mp hp
  obtain ⟨o, _, ht⟩ := Option.bind_eq_some_iff.mp ht
  refine hs.names (shape?_iff_body?.mp ht) (p, .object) ?_
  simp [Body.typedRefs, hproto]

/-- The prototypes of objects are objects. -/
theorem Sound.kind?_of_mem_protoChain (hs : h.Sound x n) {proto : Option Handle}
    (hnames : h.Names (proto.toList.map (·, .object))) {k : Nat} (hr : r ∈ h.protoChainFrom k proto) :
    h.kind? r = some .object := by
  induction k generalizing proto with
  | zero => simp [protoChainFrom] at hr
  | succ k ih =>
    cases proto with
    | none => simp [protoChainFrom] at hr
    | some p =>
      rcases List.mem_cons.mp hr with rfl | hr
      · exact hnames (r, .object) (by simp)
      · refine ih (fun a ha => ?_) hr
        obtain ⟨q, hq, rfl⟩ := List.mem_map.mp ha
        exact hs.kind?_of_proto? (Option.mem_toList.mp hq)

theorem Valid.of_setPrototype {proto : Option Handle} {res : Except OutOfMemory Bool} (hv : h.Valid x)
    (hnames : h.Names (proto.toList.map (·, .object)))
    (e : (AllocM.setPrototype r proto).run h = .ok (res, h')) :
    (∃ done, res = .ok done ∧
        Performs x r (·.reparent (decide (r ∈ h.protoChain proto)) proto) done h h') ∨
      (∃ err, res = .error err) ∧ GivesUp x h h' := by
  unfold AllocM.setPrototype at e
  rw [AllocM.get_bind] at e
  split at e
  · rename_i hcycle
    obtain ⟨rfl, rfl⟩ := AllocM.pure_eq_ok e
    obtain ⟨o, ho⟩ := hv.sound.object_of_kind (hv.sound.kind?_of_mem_protoChain hnames hcycle)
    obtain ⟨t, _, hd⟩ := hv.sound.exists_record ho
    rw [decide_eq_true hcycle]
    exact .inl ⟨false, rfl, hv, ⟨_, hd, rfl⟩, .refl x _, id, .of_apart (.refl [] _) ho, fun _ _ => .inl rfl⟩
  · rename_i hfree
    rw [decide_eq_false hfree]
    obtain ⟨old, _, e₁, e⟩ := AllocM.lift_bind_eq_ok e
    obtain ⟨o, ho, rfl, rfl⟩ := objectShape_eq_ok e₁
    obtain ⟨t, _, e₂, e⟩ := AllocM.lift_bind_eq_ok e
    obtain ⟨ht, rfl⟩ := shape_eq_ok e₂
    have hd := record?_eq_some_iff.mpr (drawing?_of_object ho ht)
    split at e
    · rename_i hsame
      obtain ⟨rfl, rfl⟩ := AllocM.pure_eq_ok e
      refine .inl ⟨true, rfl, hv, ⟨_, hd, rfl⟩, .refl x _, id, .of_apart (.refl [] _) ho, fun d hd' => .inl ?_⟩
      rw [hd] at hd'
      cases hd'
      simp only [Record.reparent, Object.record, ← hsame]
      rfl
    · rcases AllocM.bind_eq_ok e with ⟨s, h₁, e₃, e⟩ | ⟨err, e₃, rfl⟩
      · rcases hv.of_ownShape e₃ with ⟨s', o₀, t₀, t₁, hres, htake⟩ | ⟨⟨_, he⟩, _⟩
        · cases hres
          obtain ⟨_, h₂, e₄, e⟩ := AllocM.lift_bind_eq_ok e
          obtain ⟨t', _, e₅, e⟩ := AllocM.lift_bind_eq_ok e
          obtain ⟨ht', rfl⟩ := shape_eq_ok e₅
          dsimp only at e
          obtain ⟨_, h₃, e₆, e⟩ := AllocM.lift_bind_eq_ok e
          obtain ⟨_, h₄, e₇, e⟩ := AllocM.lift_bind_eq_ok e
          obtain ⟨rfl, rfl⟩ := AllocM.pure_eq_ok e
          obtain ⟨hs₂, hk₂, _⟩ := htake.valid.sound.retainOption e₄
          have hev := (AllocM.tracks_ownShape r _ _ _ e₃).trans
            (HeapM.Shifting.retainOption proto _ _ _ e₄).evolves
          have hnames₂ := hev.names (by omega) hs₂ hnames (by simp [Function.comp_def])
          cases htake.shape.symm.trans (hk₂.body? ht')
          obtain ⟨hv₃, hre⟩ := (htake.valid.of_keeps ⟨hs₂, hk₂⟩).of_setProto ht' htake.unshared.isHashed
            hnames₂ e₆
          have hl' := hv₃.rests (hv₃.sound.of_releaseAll e₇)
          have hother : ∀ p ∈ proto, p ≠ s := by
            rintro p hp rfl
            have hkind := hnames₂ (p, .object) (List.mem_map_of_mem (Option.mem_toList.mpr hp))
            rw [kind?_eq_map, ht'] at hkind
            cases hkind
          have ho₂ : h₂.body? r = some (.object { o₀ with shape := s }) := by
            refine hk₂.body_of_contains ?_ htake.object
            rw [contains_retainOption e₄, contains_eq_isSome, htake.object]
            rfl
          have hone : h₂.refCount? s = some 1 := by
            rw [refCount?, cell?_retainOption e₄ hother]
            exact htake.count
          have hd₂ := record?_eq_some_iff.mpr (drawing?_of_object ho₂ ht')
          have halt := htake.alters.then_apart (.of_keeps hk₂)
          have hseat := Reseats.of_reshapes hv₃ ho₂ hone hre
          have hset := hseat.alters (f := fun d => { d with proto := proto }) hd₂ rfl
          have hsteady := (htake.steady.trans (.of_keeps hk₂)).trans
            (hseat.steady.of_plus.trans hl'.steady)
          exact .inl ⟨true, rfl, hl'.valid, ⟨_, hd, rfl⟩, hsteady, _, (halt.trans hset).then_apart hl'.apart,
            fun _ _ => .inl rfl⟩
        · cases he
      · rcases hv.of_ownShape e₃ with ⟨_, _, _, _, hres, _⟩ | ⟨_, hgave⟩
        · cases hres
        · exact .inr ⟨⟨err, rfl⟩, hgave⟩

end Heap

end ObjectMemory
