import ObjectMemory.Proofs.Clients
set_option autoImplicit false

/-!
# Running out of memory

An operation that runs out of memory undoes what it did and gives up the references it was handed.  The
heap it leaves is the one that giving up those references leaves: the same handles are live, with the
same counts and bodies, the frames are the same, and so are the shapes in the table (`Heap.Alike`).

For each operation the heap it leaves and the one it began with agree on what holds up without those
references (`Heap.Abandons`).  So do the heaps before and after giving them up.  Both end in a heap whose
counts are right, where what is there is what holds up.

One operation has a way out that undoes nothing: a compaction asks the allocator for the new arrays when
the object has a shape of its own already (`compaction_exhausted`).
-/

namespace ObjectMemory

/-- The references that an operation consumed and did not hand back with its answer. -/
def Operation.forfeited (op : Operation) (reply : Reply) : List Handle :=
  op.consumed.diff (op.gained reply)

namespace Heap

variable {x : Ledger} {n m : Nat} {h h' : Heap} {r : Handle} {err : OutOfMemory}

/-! ## Heaps that cannot be told apart -/

/-- The frames have the same locals and open variables.  The open list of a frame has no order: a variable
that is taken off makes room for the last one. -/
structure FrameAlike (f f' : Frame) : Prop where
  locals : f'.locals = f.locals
  size : f'.size = f.size
  openVariables : f'.openVariables.toList.Perm f.openVariables.toList

/-- The heaps differ at most in vacant slots, in the order of lists that have none, and in bytes set apart
for more properties. -/
structure Alike (h h' : Heap) : Prop where
  config : h'.config = h.config
  live : ∀ r, h'.contains r = h.contains r
  counts : ∀ r, h'.refCount? r = h.refCount? r
  bodies : ∀ r, h'.seen? r = h.seen? r
  liveCells : h'.liveCells = h.liveCells
  frames : ∀ id, Option.Rel FrameAlike (h.frames.get? id) (h'.frames.get? id)
  table : h'.table.toList.Perm h.table.toList
  sharedShapes : h'.sharedShapes = h.sharedShapes
  dropped : h'.dropped = h.dropped
  collections : h'.collections = h.collections
  collected : h'.collected = h.collected

theorem contains_eq_isSome_seen? (h : Heap) (r : Handle) : h.contains r = (h.seen? r).isSome := by
  unfold seen?
  rw [contains_eq_isSome, Option.isSome_map]

section SameSeen

variable (hseen : ∀ r, h'.seen? r = h.seen? r)
include hseen

theorem contains_of_seen (r : Handle) : h'.contains r = h.contains r := by
  rw [contains_eq_isSome_seen?, hseen, ← contains_eq_isSome_seen?]

theorem body?_of_seen {b : Body} (hb : h.body? r = some b) :
    ∃ b', h'.body? r = some b' ∧ b'.seen = b.seen := by
  have hr := hseen r
  unfold seen? at hr
  rw [hb] at hr
  exact Option.map_eq_some_iff.mp hr

/-- What is read off the bodies as they are seen is the same. -/
theorem bind_of_seen {α : Type} {f : Body → Option α} (hf : ∀ b, f b.seen = f b) (r : Handle) :
    (h'.body? r).bind f = (h.body? r).bind f := by
  have hmap : ∀ o : Option Body, (o.map Body.seen).bind f = o.bind f := fun o => by
    rw [Option.bind_map]
    exact congrArg o.bind (funext hf)
  exact (hmap _).symm.trans ((congrArg (·.bind f) (hseen r)).trans (hmap _))

/-- A cell is in the same slot of both heaps. -/
theorem tenant?_of_seen {i : Nat} {c : Cell} (hc : h.tenant? i = some c) :
    ∃ c', h'.tenant? i = some c' ∧ c'.body.seen = c.body.seen := by
  have hb : h.body? (h.handle i) = some c.body :=
    body?_eq_some_iff.mpr ⟨c, by rw [cell?_handle, hc], rfl⟩
  obtain ⟨b', hb', hsame⟩ := body?_of_seen hseen hb
  obtain ⟨c', hc', rfl⟩ := body?_eq_some_iff.mp hb'
  exact ⟨c', tenant?_of_cell? hc', hsame⟩

/-- A sum over all cells of what their bodies tell. -/
theorem total_of_seen {f : Body → Nat} (hf : ∀ b, f b.seen = f b) :
    (h'.total fun c => f c.body) = h.total fun c => f c.body := by
  refine total_congr fun i => ?_
  cases hc : h.tenant? i with
  | some c =>
    obtain ⟨c', hc', hsame⟩ := tenant?_of_seen hseen hc
    rw [hc', Option.elim_some, Option.elim_some, ← hf, hsame, hf]
  | none =>
    cases hc' : h'.tenant? i with
    | none => rfl
    | some c' =>
      obtain ⟨c, hsome, _⟩ := tenant?_of_seen (fun r => (hseen r).symm) hc'
      cases hc.symm.trans hsome

end SameSeen

/-- All that a sound heap has is in what holds up. -/
theorem Agree.seen? (e : Agree x h h') (hs : h.Sound x n) (hs' : h'.Sound x m) (r : Handle) :
    h'.seen? r = h.seen? r := by
  cases hlive : h.contains r with
  | true => exact e.bodies _ (.inl hs.supported) r hlive
  | false =>
    cases hlive' : h'.contains r with
    | true => exact e.bodies _ (.inr hs'.supported) r hlive'
    | false =>
      rw [contains_eq_isSome_seen?, Option.isSome_eq_false_iff, Option.isNone_iff_eq_none] at hlive hlive'
      rw [hlive, hlive']

/-- Open variables are those whose bodies say so. -/
theorem Bound.mem_openVariables (hb : h.Bound) {id : FrameId} {f : Frame} (hf : h.frames.get? id = some f) :
    r ∈ f.openVariables.toList ↔ h.frameOf? r = some id := by
  refine ⟨hb.attached id f hf r, fun hr => ?_⟩
  obtain ⟨f', hf', hmem⟩ := hb.listed r id hr
  cases hf.symm.trans hf'
  exact hmem

/-- With the same references from outside and from the same bodies, the counts are the same. -/
theorem Agree.refCount? (e : Agree x h h') (hs : h.Sound x n) (hs' : h'.Sound x m) (r : Handle) :
    h'.refCount? r = h.refCount? r := by
  have hseen := e.seen? hs hs'
  have hlive := contains_of_seen hseen r
  unfold Heap.contains at hlive
  cases hc : h.cell? r with
  | none =>
    rw [hc, Option.isSome_none, Option.isSome_eq_false_iff, Option.isNone_iff_eq_none] at hlive
    rw [Heap.refCount?, Heap.refCount?, hc, hlive]
  | some c =>
    rw [hc, Option.isSome_some] at hlive
    obtain ⟨c', hc'⟩ := Option.isSome_iff_exists.mp hlive
    have hheld : h'.heldByCells r = h.heldByCells r :=
      total_of_seen hseen (f := fun b => b.refs.count r) fun b => by rw [Body.refs_seen]
    have hcount : c'.refCount = c.refCount := by
      rw [hs'.coherent.counted.refCount_eq hc', e.calm.outside, hheld,
        ← hs.coherent.counted.refCount_eq hc]
    rw [refCount?_eq_some_iff.mpr ⟨c', hc', hcount⟩, refCount?_eq_some_iff.mpr ⟨c, hc, rfl⟩]

theorem Agree.frames (e : Agree x h h') (hs : h.Sound x n) (hs' : h'.Sound x m) (id : FrameId) :
    Option.Rel FrameAlike (h.frames.get? id) (h'.frames.get? id) := by
  have hid := e.calm.frames id
  cases hf : h.frames.get? id with
  | none =>
    rw [hf, Option.map_none, Option.map_eq_none_iff] at hid
    rw [hid]
    exact .none
  | some f =>
    rw [hf] at hid
    obtain ⟨f', hf', hsame⟩ := Option.map_eq_some_iff.mp hid
    obtain ⟨hlocals, hsize⟩ := Prod.mk.inj hsame
    rw [hf']
    refine .some ⟨hlocals, hsize, ?_⟩
    have hb := hs.coherent.bound
    have hb' := hs'.coherent.bound
    have hframe : ∀ r, h'.frameOf? r = h.frameOf? r :=
      bind_of_seen (e.seen? hs hs') fun b => by cases b <;> rfl
    refine (List.perm_ext_iff_of_nodup (hb'.nodup id f' hf') (hb.nodup id f hf)).mpr fun r => ?_
    rw [hb'.mem_openVariables hf', hb.mem_openVariables hf, hframe]

theorem Agree.table (e : Agree x h h') (hs : h.Sound x n) (hs' : h'.Sound x m) :
    h'.table.toList.Perm h.table.toList := by
  have ht := hs.coherent.tabled
  have ht' := hs'.coherent.tabled
  have hhash : ∀ r, h'.hashOf? r = h.hashOf? r :=
    bind_of_seen (e.seen? hs hs') fun b => by cases b <;> rfl
  refine (List.perm_ext_iff_of_nodup ht'.nodup ht.nodup).mpr fun ⟨hash, r⟩ => ?_
  rw [ht'.mem_iff, ht.mem_iff, hhash]

/-- Two heaps whose counts are right for one ledger, and that agree on what holds up, are alike. -/
theorem Agree.alike (e : Agree x h h') (hs : h.Sound x n) (hs' : h'.Sound x m) : Alike h h' := by
  have hseen := e.seen? hs hs'
  refine ⟨e.calm.config, contains_of_seen hseen, e.refCount? hs hs', hseen, ?_, e.frames hs hs',
    e.table hs hs', ?_, e.calm.dropped, e.calm.collections, e.calm.collected⟩
  · rw [hs'.coherent.accounted.cells, hs.coherent.accounted.cells]
    exact total_of_seen hseen (f := fun _ => 1) fun _ => rfl
  · unfold Heap.sharedShapes
    rw [hs'.coherent.tabled.tidy.count, hs.coherent.tabled.tidy.count]
    exact (e.table hs hs').length_eq

/-- Object `r` has come to a shape of its own under `s`: the layout it had, with no other owner and out of the
table.  No object is seen to change. -/
def Owns (h h' : Heap) (r s : Handle) : Prop :=
  Apart [] h h' ∧ ∃ o t t', h.object? r = some o ∧ h.shape? o.shape = some t ∧
    h'.object? r = some { o with shape := s } ∧ h'.shape? s = some t' ∧ Unshared t t' ∧
    h'.refCount? s = some 1

theorem TakesOver.owns {s : Handle} {o : Object} {t t' : Shape} (htake : TakesOver x r s o t t' h h') :
    h.Owns h' r s :=
  ⟨htake.leaves.apart, o, t, t', object?_iff_body?.mpr htake.before, shape?_iff_body?.mpr htake.layout,
    object?_iff_body?.mpr htake.object, shape?_iff_body?.mpr htake.shape, htake.unshared, htake.count⟩

/-! ## Operations that run out of memory -/

theorem GivesUp.abandons (e : GivesUp x h h') : Abandons x h h' :=
  ⟨e.valid, e.apart.grows, e.agree, e.steady, fun ha => ha.of_apart e.apart⟩

/-- A call that was refused memory failed in what it attempted. -/
theorem error_of_attempt {α : Type} {act : AllocM α} {f : α → Reply} (hf : ∀ a, f a ≠ .exhausted err)
    (e : Call.attempt act f h = .ok (.exhausted err, h')) : act.run h = .ok (.error err, h') := by
  rcases Call.attempt_eq_ok e with ⟨a, _, he⟩ | ⟨err', hrun, he⟩
  · exact absurd he.symm (hf a)
  · cases he
    exact hrun

/-- A call that runs out of memory, given how what it attempts ends. -/
theorem Abandons.of_attempt {α : Type} {act : AllocM α} {f : α → Reply} {P : Except OutOfMemory α → Prop}
    (e : Call.attempt act f h = .ok (.exhausted err, h')) (hf : ∀ a, f a ≠ .exhausted err)
    (hact : ∀ res, act.run h = .ok (res, h') → P res ∨ (∃ err, res = .error err) ∧ GivesUp x h h')
    (hP : ¬ P (.error err)) : Abandons x h h' :=
  ((hact _ (error_of_attempt hf e)).resolve_left hP).2.abandons

/-- A call that runs out of memory leaves what holds up without the references it gives up, unless an object
has got a shape of its own by then. -/
theorem Valid.abandons_of_call (call : Call) (hv : h.Valid (x.plus call.consumed)) (hn : h.Names call.named)
    (hkept : ∀ r s, call = .compactProperties r → (AllocM.ownShape r).run h ≠ .ok (.ok s, h'))
    (e : call.perform h = .ok (.exhausted err, h')) :
    (call.gained (.exhausted err)).Subperm call.consumed ∧
      Abandons (x.plus (call.gained (.exhausted err))) h h' := by
  cases call with
  | shapeForNewObject proto =>
    exact ⟨List.nil_subperm, .of_attempt e (by simp) (fun _ => Valid.of_shapeForNewObject hv hn) (by simp)⟩
  | addProperty shape atom flags =>
    exact ⟨.refl _, .of_attempt e (by simp) (fun _ => Valid.of_addProperty hv) (by simp)⟩
  | prepareUpdate shape =>
    exact ⟨.refl _, .of_attempt e (by simp) (fun _ => Valid.of_prepareUpdate hv) (by simp)⟩
  | newObject proto =>
    exact ⟨List.nil_subperm, .of_attempt e (by simp) (fun _ => Valid.of_newObject hv hn) (by simp)⟩
  | newObjectFromShape shape payload =>
    exact ⟨List.nil_subperm,
      .of_attempt e (by simp) (fun _ => Valid.of_newObjectFromShape payload hv hn) (by simp)⟩
  | defineProperty r atom flags v =>
    exact ⟨List.nil_subperm,
      .of_attempt e (by simp) (fun _ => Valid.of_defineOwn (p := .value v) hv hn) (by simp)⟩
  | defineAccessor r atom flags getter setter =>
    exact ⟨List.nil_subperm, .of_attempt e (by simp) (fun _ => Valid.of_defineAccessor hv hn) (by simp)⟩
  | defineCaptured r atom flags a =>
    exact ⟨List.nil_subperm,
      .of_attempt e (by simp) (fun _ => Valid.of_defineOwn (p := .captured a) hv hn) (by simp)⟩
  | setProperty r atom v =>
    exact ⟨List.nil_subperm, .of_attempt e (by simp) (fun _ => Valid.of_assign hv hn) (by simp)⟩
  | deleteProperty r atom =>
    refine ⟨List.nil_subperm, ?_⟩
    cases ho : h.object? r with
    | none =>
      have hrun := error_of_attempt (by simp) e
      cases (deleteProperty_of_absent (by simp [findOwn?, ho]) hrun).1
    | some o =>
      have ho := object?_iff_body?.mp ho
      exact .of_attempt e (by simp) (fun _ => Valid.of_deleteProperty hv ho) (by simp)
  | compactProperties r =>
    rcases compactProperties_eq_error (error_of_attempt (by simp) e) with e₁ | ⟨_, s, e₁⟩
    · rcases Valid.of_ownShape hv e₁ with ⟨_, _, _, _, hres, _⟩ | ⟨_, hgave⟩
      · cases hres
      · exact ⟨List.nil_subperm, hgave.abandons⟩
    · exact absurd e₁ (hkept r s rfl)
  | setPrototype r proto =>
    exact ⟨List.nil_subperm, .of_attempt e (by simp) (fun _ => Valid.of_setPrototype hv hn) (by simp)⟩
  | newArray ctx =>
    exact ⟨List.nil_subperm, .of_attempt e (by simp) (fun _ => Valid.of_newArray hv) (by simp)⟩
  | arrayPush r v =>
    exact ⟨List.nil_subperm, .of_attempt e (by simp) (fun _ => Valid.of_arrayPush hv hn) (by simp)⟩
  | newBytecode name realm pool =>
    obtain ⟨hpool, hrealm⟩ := Names.append_iff.mp hn
    exact ⟨List.nil_subperm, .of_attempt e (by simp) (fun _ => Valid.of_newBytecode hv hpool hrealm) (by simp)⟩
  | newClosure proto bytecode captured home =>
    obtain ⟨hproto, hnames⟩ := Names.append_iff.mp hn
    exact ⟨List.nil_subperm, .of_attempt e (by simp) (fun _ => Valid.of_newClosure hv hproto hnames) (by simp)⟩
  | newSuspension receiver values resolve reject =>
    exact ⟨List.nil_subperm, .of_attempt e (by simp) (fun _ => Valid.of_newSuspension hv hn) (by simp)⟩
  | newRealm =>
    have hrun := error_of_attempt (by simp) e
    exact ⟨List.nil_subperm, ((Valid.of_newRealm hv hrun).resolve_left (by simp)).2⟩
  | pushFrame locals =>
    exact ⟨List.nil_subperm, .of_attempt e (by simp) (fun _ => Valid.of_pushFrame hv hn) (by simp)⟩
  | captureVariable id slot =>
    exact ⟨List.nil_subperm, .of_attempt e (by simp) (fun _ => Valid.of_captureVariable hv) (by simp)⟩
  | newVariable v =>
    exact ⟨List.nil_subperm, .of_attempt e (by simp) (fun _ => Valid.of_newVariable hv hn) (by simp)⟩
  | _ =>
    obtain ⟨_, _, he⟩ := Call.answer_eq_ok e
    cases he

theorem Valid.abandons_of_operation (op : Operation) (hv : h.Valid (x.plus op.consumed))
    (hn : h.Names op.named)
    (hkept : ∀ r s, op = .call (.compactProperties r) → (AllocM.ownShape r).run h ≠ .ok (.ok s, h'))
    (e : op.perform h = .ok (.exhausted err, h')) :
    (op.gained (.exhausted err)).Subperm op.consumed ∧
      Abandons (x.plus (op.gained (.exhausted err))) h h' := by
  cases op with
  | call c => exact Valid.abandons_of_call c hv hn (fun r s hc => hkept r s (congrArg _ hc)) e
  | get cache r atom =>
    obtain ⟨_, _, _, he⟩ := Operation.get_eq_ok e
    cases he
  | set cache r atom v =>
    obtain ⟨res, cache', e₁, ⟨_, _, he⟩ | ⟨err', rfl, _⟩⟩ := Operation.set_eq_ok e
    · cases he
    · exact ⟨List.nil_subperm, ((Valid.of_setCached hv hn e₁).2 err' rfl).abandons⟩

end Heap

namespace Client

variable {config : Config} {h h' : Heap} {x : Ledger} {err : OutOfMemory}

/-- Running out of memory leaves the heap that giving up the references leaves which the operation
consumed and did not hand back.  No cell is there that was not there before, and a shape that was to be
changed or replaced is still the caller's, as it was.

The one exception is a compaction that the allocator refuses room when the object has a shape of its own
already.  The heap then stays as `AllocM.ownShape` leaves it. -/
theorem exhaustion_restores (hr : Reached (fun _ => True) config h x) (hmanual : h.config.autoCollect = false)
    (hflushed : h.dropped.toList = []) (op : Operation) (hp : op.Permitted x h)
    (e : op.perform h = .ok (.exhausted err, h')) :
    (∃ h₁, HeapM.releaseAll (op.forfeited (.exhausted err)) h = .ok ((), h₁) ∧ h₁.Alike h' ∧
      (∀ r, h'.contains r = true → h.contains r = true) ∧
      ∀ s ∈ op.gained (.exhausted err), h'.contains s = true ∧ h'.seen? s = h.seen? s) ∨
    ∃ r s, op = .call (.compactProperties r) ∧ h'.refused ≠ [] ∧
      (AllocM.ownShape r).run h = .ok (.ok s, h') ∧ h.Owns h' r s := by
  obtain ⟨lost, _, hv⟩ := hr.valid
  rw [← Ledger.minus_plus hp.owned, Ledger.plus_comm] at hv
  by_cases hown : ∃ r s, op = .call (.compactProperties r) ∧ (AllocM.ownShape r).run h = .ok (.ok s, h')
  · right
    obtain ⟨r, s, rfl, e₁⟩ := hown
    obtain ⟨_, _, _, _, hs, htake⟩ | ⟨⟨_, hres⟩, _⟩ := hv.of_ownShape e₁
    · cases hs
      rcases Heap.compactProperties_eq_error (Heap.error_of_attempt (by simp) e) with e₂ | ⟨hrefused, _⟩
      · cases e₁.symm.trans e₂
      · exact ⟨r, s, rfl, hrefused, e₁, htake.owns⟩
    · cases hres
  · left
    obtain ⟨hsub, hgave⟩ := Heap.Valid.abandons_of_operation op hv hp.named
      (fun r s hop e₁ => hown ⟨r, s, hop, e₁⟩) e
    have hagree := hgave.agree ⟨hmanual, hflushed⟩
    -- what was consumed is what is handed back and what is given up
    have hperm : (op.gained (.exhausted err) ++ op.forfeited (.exhausted err)).Perm op.consumed :=
      List.subperm_append_diff_self_of_count_le fun r _ => hsub.count_le r
    have hs := hv.sound
    rw [← Ledger.plus_perm _ hperm, Ledger.plus_append] at hs
    obtain ⟨h₁, hrelease, hs₁, _⟩ := hs.releaseAll
    have halike := ((hs.agree_of_releaseAll hrelease).symm.trans hagree).alike hs₁ hgave.valid.sound
    have hback : ∀ r, h'.contains r = true → h'.seen? r = h.seen? r := fun r hlive =>
      hagree.bodies _ (.inr hgave.valid.sound.supported) r hlive
    refine ⟨h₁, hrelease, halike, fun r hlive => ?_, fun s hmem => ?_⟩
    · rw [Heap.contains_eq_isSome_seen?, ← hback r hlive, ← Heap.contains_eq_isSome_seen?]
      exact hlive
    · have hpos := List.count_pos_iff.mpr hmem
      have hlive := hgave.valid.sound.coherent.counted.owned s (by simp only [Ledger.plus_apply]; omega)
      exact ⟨hlive, hback s hlive⟩

/-- Two objects share a shape, and no memory is left for another one: the assignment that would take it
gives up the object it was to store, and the shape has one owner less. -/
theorem exhaustion_restores_assignment : ∃ h h₁ h' x, Reached (fun _ => True) ⟨0, none, false⟩ h x ∧
    (Call.setProperty ⟨1, 0⟩ ⟨300⟩ (.object ⟨2, 0⟩)).perform h = .ok (.exhausted ⟨168⟩, h') ∧
    HeapM.releaseAll [⟨2, 0⟩] h = .ok ((), h₁) ∧ h₁.Alike h' ∧
    h.contains ⟨2, 0⟩ = true ∧ h.refCount? ⟨0, 0⟩ = some 2 ∧
    h₁.contains ⟨2, 0⟩ = false ∧ h₁.refCount? ⟨0, 0⟩ = some 1 := by
  obtain ⟨⟨reply₁, h₁⟩, e₁, hrest⟩ := ok_of_test
    (x := (Call.newObject none).perform (.new ⟨0, none, false⟩))
    (t := fun p => passes ((Call.newObject none).perform p.2) fun p => decide (p.1 = .handle ⟨2, 0⟩) &&
      passes ((Call.setMemoryLimit (some 0)).perform p.2) fun p =>
        decide (p.2.config.autoCollect = false ∧ p.2.dropped.toList = [] ∧
          p.2.kind? ⟨2, 0⟩ = some .object ∧ p.2.refCount? ⟨0, 0⟩ = some 2) &&
      passes ((Call.setProperty ⟨1, 0⟩ ⟨300⟩ (.object ⟨2, 0⟩)).perform p.2) fun p =>
        decide (p.1 = .exhausted ⟨168⟩ ∧ p.2.contains ⟨2, 0⟩ = false ∧ p.2.refCount? ⟨0, 0⟩ = some 1))
    (by decide +kernel)
  obtain ⟨⟨reply₂, h₂⟩, e₂, hrest⟩ := ok_of_test hrest
  obtain ⟨hmade, hrest⟩ := Bool.and_eq_true_iff.mp hrest
  cases of_decide_eq_true hmade
  obtain ⟨⟨reply₃, h₃⟩, e₃, hrest⟩ := ok_of_test hrest
  obtain ⟨hbefore, hrest⟩ := Bool.and_eq_true_iff.mp hrest
  obtain ⟨hmanual, hflushed, hkind, hshared⟩ := of_decide_eq_true hbefore
  obtain ⟨⟨reply₄, h₄⟩, e₄, hafter⟩ := ok_of_test hrest
  obtain ⟨rfl, hgone, hsole⟩ := of_decide_eq_true hafter
  have hstart : Reached (fun _ => True) ⟨0, none, false⟩ (.new ⟨0, none, false⟩) .empty := .start
  have hr₁ := hstart.next (.call (.newObject none)) trivial (.of_nothing rfl rfl) e₁
  have hr₂ := hr₁.next (.call (.newObject none)) trivial (.of_nothing rfl rfl) e₂
  have hr₃ := hr₂.next (.call (.setMemoryLimit (some 0))) trivial (.of_nothing rfl rfl) e₃
  have hnames : h₃.Names [(⟨2, 0⟩, .object)] := fun a ha => by
    cases List.mem_singleton.mp ha
    exact hkind
  obtain ⟨h, hrelease, halike, _⟩ := (exhaustion_restores hr₃ hmanual hflushed
    (.call (.setProperty ⟨1, 0⟩ ⟨300⟩ (.object ⟨2, 0⟩))) ⟨fun r => by
      simp only [Operation.settle_apply, Operation.gained, Call.gained, Reply.refs, Operation.consumed,
        Call.consumed, Value.ref?, Option.toList_some, List.count_nil, Nat.sub_zero]
      omega, hnames⟩ e₄).resolve_right fun ⟨_, _, hop, _⟩ => by cases hop
  refine ⟨h₃, h, h₄, _, hr₃, e₄, hrelease, halike, hnames.contains (List.mem_singleton_self _), hshared,
    ?_, ?_⟩
  · rw [← halike.live]
    exact hgone
  · rw [← halike.counts]
    exact hsole

/-- There is no memory limit, and the allocator refuses a compaction room for the properties: the call fails,
but the shape of the object has left the table and shows another version.  So the heap is not the one before
the call, which consumed nothing. -/
theorem compaction_exhausted : ∃ h h' x, Reached (fun _ => True) ⟨0, none, false⟩ h x ∧
    h.dropped.toList = [] ∧ h.refused = [.properties 1 2] ∧
    (Call.compactProperties ⟨1, 0⟩).perform h = .ok (.exhausted ⟨64⟩, h') ∧
    h.objectStamp? ⟨1, 0⟩ = some ⟨⟨0, 0⟩, 1⟩ ∧ h.sharedShapes = 1 ∧
    h'.objectStamp? ⟨1, 0⟩ = some ⟨⟨0, 0⟩, 2⟩ ∧ h'.sharedShapes = 0 ∧
    ¬ ∃ h₁, HeapM.releaseAll ((Operation.call (.compactProperties ⟨1, 0⟩)).forfeited (.exhausted ⟨64⟩)) h =
      .ok ((), h₁) ∧ h₁.Alike h' := by
  obtain ⟨h₁, e₁, hrest⟩ := ok_of_answers (x := (Call.newObject none).perform (.new ⟨0, none, false⟩))
    (a := .handle ⟨1, 0⟩) (t := fun h =>
      answers ((Call.defineProperty ⟨1, 0⟩ ⟨300⟩ .ordinary (.smi 1)).perform h) (.flag true) fun h =>
      answers ((Call.setRefused [.properties 1 2]).perform h) .done fun h =>
      decide (h.dropped.toList = [] ∧ h.refused = [.properties 1 2] ∧
        h.objectStamp? ⟨1, 0⟩ = some ⟨⟨0, 0⟩, 1⟩ ∧ h.sharedShapes = 1) &&
      answers ((Call.compactProperties ⟨1, 0⟩).perform h) (.exhausted ⟨64⟩) fun h =>
      decide (h.objectStamp? ⟨1, 0⟩ = some ⟨⟨0, 0⟩, 2⟩ ∧ h.sharedShapes = 0))
    (by decide +kernel)
  obtain ⟨h₂, e₂, hrest⟩ := ok_of_answers hrest
  obtain ⟨h₃, e₃, hrest⟩ := ok_of_answers hrest
  obtain ⟨hbefore, hrest⟩ := Bool.and_eq_true_iff.mp hrest
  obtain ⟨hflushed, hrefused, hstamp, hshared⟩ := of_decide_eq_true hbefore
  obtain ⟨h₄, e₄, hafter⟩ := ok_of_answers hrest
  obtain ⟨hstamp', hshared'⟩ := of_decide_eq_true hafter
  have hstart : Reached (fun _ => True) ⟨0, none, false⟩ (.new ⟨0, none, false⟩) .empty := .start
  have hr₁ := hstart.next (.call (.newObject none)) trivial (.of_nothing rfl rfl) e₁
  have hr₂ := hr₁.next (.call (.defineProperty ⟨1, 0⟩ ⟨300⟩ .ordinary (.smi 1))) trivial
    (.of_nothing rfl rfl) e₂
  have hr₃ := hr₂.next (.call (.setRefused [.properties 1 2])) trivial (.of_nothing rfl rfl) e₃
  refine ⟨h₃, h₄, _, hr₃, hflushed, hrefused, e₄, hstamp, hshared, hstamp', hshared', ?_⟩
  rintro ⟨h, hrelease, halike⟩
  -- nothing is to be released
  cases hrelease
  have hsame := halike.sharedShapes
  rw [hshared, hshared'] at hsame
  cases hsame

end Client

end ObjectMemory
