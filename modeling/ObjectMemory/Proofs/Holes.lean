import ObjectMemory.Proofs.Accounts
import ObjectMemory.Proofs.Columns
set_option autoImplicit false

/-!
# Holes

A deleted property leaves an entry with the null atom, opposite the undefined value, and the layout counts
how many of these holes it has.  Compaction drops them, after a check that nothing is stored there.

Nothing keeps a client from defining a property under the null atom, or from writing into the slot
opposite a hole.  `Operation.SparesHoles` says of an operation that it does neither.  The main statement
is that then the holes are what deletions have left and no more (`Client.holes_empty`), so that the check
passes and compaction loses nothing.

`Upheld` is said of outcomes that are not the broken check.  Every step of a compaction is followed for it,
since a check of the same kind guards the queue of cells to free.
-/

namespace ObjectMemory

/-- The outcome is not that an entry is missing from its bucket, nor, if `strict`, a broken condition without
a wording of its own. -/
def Upheld {α : Type} (strict : Prop) : Except Fault α → Prop
  | .ok _ => True
  | .error err => (strict → err ≠ .assertion) ∧ ∀ atom, err ≠ .entryMissing atom

section

variable {α : Type} {strict : Prop} {x : Except Fault α}

theorem Upheld.ne (hx : Upheld True x) : x ≠ .error .assertion := by
  rintro rfl
  exact hx.1 trivial rfl

theorem Upheld.ne_entryMissing (hx : Upheld strict x) (atom : Atom) : x ≠ .error (.entryMissing atom) := by
  rintro rfl
  exact hx.2 atom rfl

theorem upheld_of_ok {a : α} (e : x = .ok a) : Upheld strict x := by
  rw [e]
  exact trivial

end

namespace HeapM

variable {α β : Type} {strict : Prop} {h : Heap} {r : Handle}

theorem upheld_bind {m : HeapM α} {f : α → HeapM β} (hm : Upheld strict (m h))
    (hf : ∀ a h₁, m h = .ok (a, h₁) → Upheld strict (f a h₁)) : Upheld strict ((m >>= f) h) := by
  rw [bind_apply]
  cases hrun : m h with
  | ok q => exact hf q.1 q.2 hrun
  | error err =>
    rw [hrun] at hm
    exact hm

theorem upheld_read {f : Heap → Except Fault α} (hf : Upheld strict (f h)) : Upheld strict (read f h) := by
  unfold read
  cases hrun : f h with
  | ok a => trivial
  | error err =>
    rw [hrun] at hf
    exact hf

theorem upheld_change {f : Heap → Except Fault Heap} (hf : Upheld strict (f h)) :
    Upheld strict (change f h) := by
  unfold change
  cases hrun : f h with
  | ok h' => trivial
  | error err =>
    rw [hrun] at hf
    exact hf

theorem upheld_object : Upheld strict (object r h) := by
  refine upheld_read ?_
  cases h.object? r with
  | some o => trivial
  | none => exact ⟨nofun, nofun⟩

theorem upheld_objectShape : Upheld strict (objectShape r h) := by
  refine upheld_read ?_
  cases h.object? r with
  | some o => trivial
  | none => exact ⟨nofun, nofun⟩

theorem upheld_modifyObject (f : Object → Object) : Upheld strict (modifyObject r f h) := by
  unfold modifyObject
  cases h.object? r with
  | some o => trivial
  | none => exact ⟨nofun, nofun⟩

theorem upheld_replaceProperty (i : Nat) (p : Property) : Upheld strict (replaceProperty r i p h) := by
  refine upheld_bind upheld_object fun o h₁ _ => ?_
  cases o.properties[i]? with
  | none => exact ⟨nofun, nofun⟩
  | some old => exact upheld_bind (upheld_modifyObject _) fun _ _ _ => trivial

theorem upheld_shape : Upheld strict (shape r h) := by
  refine upheld_read ?_
  cases h.shape? r with
  | some t => trivial
  | none => exact ⟨nofun, nofun⟩

theorem upheld_modifyShape (f : Shape → Shape) : Upheld strict (modifyShape r f h) := by
  unfold modifyShape
  cases h.shape? r with
  | some t => trivial
  | none => exact ⟨nofun, nofun⟩

theorem upheld_unregister : Upheld strict (unregister r h) := by
  unfold unregister
  cases h.shape? r with
  | none => exact ⟨nofun, nofun⟩
  | some t =>
    dsimp only
    split
    · cases h.table.erase? t.hash r with
      | some table => trivial
      | none => exact ⟨nofun, nofun⟩
    · exact ⟨nofun, nofun⟩

theorem upheld_retainOption (o : Option Handle) : Upheld strict (retainOption o h) := by
  cases o with
  | none => trivial
  | some r =>
    change Upheld strict (retain r h)
    unfold retain
    cases h.cell? r with
    | some c => trivial
    | none => exact ⟨nofun, nofun⟩

theorem upheld_install (p : Reservation) (body : Body) (listed : Bool) :
    Upheld strict (install p body listed h) := by
  unfold install Heap.putCell
  cases h.slots[p.index]? with
  | none => exact ⟨nofun, nofun⟩
  | some s =>
    dsimp only
    split
    · exact ⟨nofun, nofun⟩
    · trivial

theorem upheld_cellAt (h : Heap) (i : Nat) : Upheld strict (h.cellAt i) := by
  unfold Heap.cellAt
  cases h.slots[i]? with
  | none => exact ⟨nofun, nofun⟩
  | some s =>
    dsimp only
    cases s.cell with
    | none => exact ⟨nofun, nofun⟩
    | some c => trivial

theorem upheld_unchargeCell (r : Handle) (n : Nat) : Upheld strict (unchargeCell r n h) := by
  refine upheld_bind ?_ fun _ h₁ _ => upheld_bind (upheld_read (upheld_cellAt h₁ r.index)) fun c h₂ _ => ?_
  · unfold uncharge
    split
    · exact ⟨nofun, nofun⟩
    · trivial
  · split
    · exact ⟨nofun, nofun⟩
    · trivial

end HeapM

namespace AllocM

variable {α β : Type} {strict : Prop} {h : Heap} {r : Handle}

theorem upheld_lift {m : HeapM α} (hm : Upheld strict (m h)) : Upheld strict ((liftM m : AllocM α).run h) := by
  rw [lift_apply]
  cases hrun : m h with
  | ok q => trivial
  | error err =>
    rw [hrun] at hm
    exact hm

theorem upheld_bind {m : AllocM α} {f : α → AllocM β} (hm : Upheld strict (m.run h))
    (hf : ∀ a h₁, m.run h = .ok (.ok a, h₁) → Upheld strict ((f a).run h₁)) :
    Upheld strict ((m >>= f).run h) := by
  refine HeapM.upheld_bind (m := m.run) hm fun res h₁ hrun => ?_
  cases res with
  | ok a => exact hf a h₁ hrun
  | error err => trivial

/-- An action that cannot run out of memory, in front of others. -/
theorem upheld_lift_bind {m : HeapM α} {f : α → AllocM β} (hm : Upheld strict (m h))
    (hf : ∀ a h₁, m h = .ok (a, h₁) → Upheld strict ((f a).run h₁)) :
    Upheld strict (((liftM m : AllocM α) >>= f).run h) := by
  refine upheld_bind (upheld_lift hm) fun a h₁ hrun => ?_
  obtain ⟨_, e, hres⟩ := lift_eq_ok hrun
  cases hres
  exact hf _ h₁ e

theorem upheld_tryCatch {m : AllocM α} {f : OutOfMemory → AllocM α} (hm : Upheld strict (m.run h))
    (hf : ∀ err h₁, m.run h = .ok (.error err, h₁) → Upheld strict ((f err).run h₁)) :
    Upheld strict ((tryCatch m f).run h) := by
  simp only [tryCatch, tryCatchThe, MonadExceptOf.tryCatch, ExceptT.tryCatch]
  refine HeapM.upheld_bind (m := m.run) hm fun res h₁ hrun => ?_
  cases res with
  | ok a => trivial
  | error err => exact hf err h₁ hrun

/-- Nothing is stored where compaction drops an entry. -/
theorem exists_withoutHoles {zs : List (Entry × Property)}
    (hzs : ∀ c ∈ zs, c.1.atom.isNull = true → c.2 = .undefined) : ∃ kept, withoutHoles zs = some kept := by
  induction zs with
  | nil => exact ⟨[], rfl⟩
  | cons c rest ih =>
    obtain ⟨e, p⟩ := c
    obtain ⟨kept, hkept⟩ := ih fun c hc => hzs c (List.mem_cons_of_mem _ hc)
    unfold withoutHoles
    rw [hkept]
    split
    · rename_i hnull
      rw [if_pos (hzs (e, p) List.mem_cons_self hnull)]
      exact ⟨kept, rfl⟩
    · exact ⟨(e, p) :: kept, rfl⟩

end AllocM

/-! ## Taking over a shape -/

namespace Heap

variable {strict : Prop} {x : Ledger} {n : Nat} {h h₁ h' : Heap} {r s old new : Handle} {t t₀ : Shape}
  {atom : Atom}

theorem upheld_free (h : Heap) (i : Nat) : Upheld strict (h.free i) := by
  have hcell : Upheld strict (h.cellAt i) := HeapM.upheld_cellAt h i
  unfold free
  cases hat : h.cellAt i with
  | error err =>
    rw [hat] at hcell
    exact hcell
  | ok c =>
    dsimp only
    split
    · exact ⟨nofun, nofun⟩
    · trivial

theorem upheld_forgetShape (h : Heap) (s : Handle) (t : Shape) : Upheld strict (h.forgetShape s t) := by
  unfold forgetShape
  split
  · cases h.table.erase? t.hash s with
    | some table => trivial
    | none => exact ⟨nofun, nofun⟩
  · trivial

theorem Sound.upheld_reserve {size : Nat} {arrays : Nat → List Request} {failure : OutOfMemory}
    (hs : h.Sound x n) : Upheld strict ((AllocM.reserve size arrays failure).run h) := by
  obtain ⟨p, hrun⟩ | hrun := hs.reserve_ends size arrays failure
  · exact upheld_of_ok hrun
  · rw [hrun]
    exact ⟨nofun, nofun⟩

theorem Sound.upheld_cloneShape (hs : h.Sound x n) : Upheld strict ((AllocM.cloneShape old).run h) := by
  refine AllocM.upheld_lift_bind HeapM.upheld_shape fun t h₁ e₁ => ?_
  obtain ⟨_, rfl⟩ := shape_eq_ok e₁
  refine AllocM.upheld_bind hs.upheld_reserve fun p h₂ _ => ?_
  refine AllocM.upheld_lift_bind HeapM.upheld_shape fun t h₃ _ => ?_
  exact AllocM.upheld_lift_bind (HeapM.upheld_retainOption _) fun _ _ _ =>
    AllocM.upheld_lift (HeapM.upheld_install _ _ _)

/-- Giving up a shape whose prototype someone else has too frees that shape at most. -/
theorem Sound.upheld_release (hs : h.Sound x n) (hold : h.body? old = some (.shape t₀))
    (hnew : h.body? new = some (.shape t)) (hne : new ≠ old) (hproto : t.proto = t₀.proto) :
    Upheld strict (HeapM.release old h) := by
  obtain ⟨c, hc, hb⟩ := body?_eq_some_iff.mp hold
  have hpos := (hs.settled _ c (tenant?_of_cell? hc)).counted
  refine HeapM.upheld_change ?_
  by_cases hone : c.refCount = 1
  · rw [run_release_shape hc hone hb]
    cases hforget : (h.setRefCount old.index 0).forgetShape old t₀ with
    | error err =>
      have hno : Upheld strict ((h.setRefCount old.index 0).forgetShape old t₀) := upheld_forgetShape _ _ _
      rw [hforget] at hno
      simp only [freeNow, hforget]
      exact hno
    | ok h₁ =>
      cases hfree : h₁.free old.index with
      | error err =>
        have hno : Upheld strict (h₁.free old.index) := upheld_free _ _
        rw [hfree] at hno
        simp only [freeNow, hforget, hfree]
        exact hno
      | ok h₂ =>
        simp only [freeNow, hforget, hfree]
        obtain ⟨_, hproto₂⟩ :=
          updates_of_free_shape hc hone (hs.proto_shared hold hnew hne hproto) hforget hfree
        cases hp : t₀.proto with
        | none =>
          rw [Option.toList_none, List.map_nil, Heap.run]
          trivial
        | some p =>
          obtain ⟨_, d, hd, htwo⟩ := hproto₂ p hp
          exact upheld_of_ok (run_release_shared hd htwo)
  · exact upheld_of_ok (run_release_shared hc (by omega))

/-- Making a shape ready for changes breaks no condition. -/
theorem Sound.upheld_prepareUpdate (hs : h.Sound x n) : Upheld strict ((AllocM.prepareUpdate old).run h) := by
  unfold AllocM.prepareUpdate
  rw [AllocM.get_bind]
  split
  · refine AllocM.upheld_bind hs.upheld_cloneShape fun new h₁ e₁ => ?_
    obtain ⟨_, t, hres, hnew, hold, hne⟩ | ⟨⟨_, hres⟩, _⟩ := hs.of_cloneShape e₁
    · cases hres
      refine AllocM.upheld_lift_bind (hnew.sound.upheld_release hold hnew.shape hne rfl) fun _ h₂ _ => ?_
      exact AllocM.upheld_lift_bind (HeapM.upheld_modifyShape _) fun _ _ _ => trivial
    · cases hres
  · refine AllocM.upheld_lift_bind HeapM.upheld_shape fun t h₁ _ => ?_
    split
    · refine AllocM.upheld_lift_bind HeapM.upheld_unregister fun _ _ _ => ?_
      exact AllocM.upheld_lift_bind (HeapM.upheld_modifyShape _) fun _ _ _ => trivial
    · exact AllocM.upheld_lift_bind (HeapM.upheld_modifyShape _) fun _ _ _ => trivial

theorem Sound.upheld_ownShape (hs : h.Sound x n) : Upheld strict ((AllocM.ownShape r).run h) := by
  refine AllocM.upheld_lift_bind HeapM.upheld_objectShape fun old h₁ e₁ => ?_
  obtain ⟨_, _, rfl, rfl⟩ := objectShape_eq_ok e₁
  refine AllocM.upheld_bind (AllocM.upheld_tryCatch hs.upheld_prepareUpdate fun err h₂ _ => ?_)
    fun new h₂ _ => ?_
  · exact AllocM.upheld_lift_bind (HeapM.upheld_modifyObject _) fun _ _ _ => trivial
  · exact AllocM.upheld_lift_bind (HeapM.upheld_modifyObject _) fun _ _ _ => trivial

/-! ## Compaction -/

/-- Nothing is stored opposite a hole. -/
def Vacant (h : Heap) : Prop :=
  ∀ r d, h.record? r = some d → ∀ c ∈ d.columns, c.1.atom.isNull = true → c.2 = .undefined

/-- One more hole has nothing opposite either. -/
theorem Vacant.of_removal {i : Nat} (hvac : h.Vacant)
    (e : Alters r ((·.edit i fun c => (c.1, .undefined)) ∘ (·.edit i fun c => (.hole, c.2))) h h') :
    h'.Vacant := by
  intro q d' hd' c hc hnull
  by_cases hq : q = r
  · subst hq
    obtain ⟨d, hd, rfl⟩ := e.record hd'
    rw [Function.comp_apply, Record.edit_edit] at hc
    obtain hc | ⟨_, _, rfl⟩ := Record.mem_edit hc
    · exact hvac q d hd c hc hnull
    · rfl
  · have hd := e.others q _ (by simpa using hq) (record?_eq_some_iff.mp hd')
    exact hvac q d' (record?_eq_some_iff.mpr hd) c hc hnull

/-- Compaction finds nothing in the holes. -/
theorem Valid.upheld_compactProperties (hv : h.Valid x) (hvac : strict → h.Vacant) :
    Upheld strict ((AllocM.compactProperties r).run h) := by
  refine AllocM.upheld_bind hv.sound.upheld_ownShape fun s h₁ e₁ => ?_
  obtain ⟨_, o, t₀, t, hres, htake⟩ | ⟨⟨_, hres⟩, _⟩ := hv.of_ownShape e₁
  · cases hres
    refine AllocM.upheld_lift_bind HeapM.upheld_shape fun t' h₂ e₂ => ?_
    obtain ⟨ht, rfl⟩ := shape_eq_ok e₂
    cases htake.shape.symm.trans ht
    refine AllocM.upheld_lift_bind HeapM.upheld_object fun o' h₂ e₃ => ?_
    obtain ⟨ho, rfl⟩ := object_eq_ok e₃
    cases htake.object.symm.trans ho
    dsimp only
    rw [ask_bind]
    split
    · cases hholes : AllocM.withoutHoles (t.entries.toList.zip o.properties.toList) with
      | none =>
        refine AllocM.upheld_lift (m := HeapM.fault .assertion) ⟨fun hstrict => ?_, nofun⟩
        have hempty : ∀ c ∈ t.entries.toList.zip o.properties.toList,
            c.1.atom.isNull = true → c.2 = .undefined := by
          rw [htake.unshared.entries]
          exact hvac hstrict r _ htake.record
        obtain ⟨kept, hkept⟩ := AllocM.exists_withoutHoles hempty
        cases hholes.symm.trans hkept
      | some kept =>
        refine AllocM.upheld_lift_bind (HeapM.upheld_modifyShape _) fun _ _ _ => ?_
        refine AllocM.upheld_lift_bind (HeapM.upheld_modifyObject _) fun _ _ _ => ?_
        refine AllocM.upheld_lift_bind (HeapM.upheld_unchargeCell _ _) fun _ _ _ => ?_
        exact AllocM.upheld_lift (HeapM.upheld_unchargeCell _ _)
    · trivial
  · cases hres

/-- The properties of an object and what they refer to can be read off its columns. -/
theorem Valid.refs_of_columns {o : Object} (hv : h.Valid x) (ho : h.object? r = some o)
    (ht : h.shape? o.shape = some t) : o.properties.toList.flatMap Property.refs =
      ((t.entries.toList.zip o.properties.toList).map (·.2)).flatMap Property.refs := by
  have hfits := hv.laid.fits r o t (object?_iff_body?.mp ho) (shape?_iff_body?.mp ht)
  rw [List.map_snd_zip (by simp [hfits])]

/-- Compaction keeps the columns that are no holes, and all references. -/
theorem Valid.compacted (hv : h.Valid x) (hvac : h.Vacant)
    (e : (AllocM.compactProperties r).run h = .ok (.ok (), h')) : ∃ o t o' t',
      h.object? r = some o ∧ h.shape? o.shape = some t ∧
      h'.object? r = some o' ∧ h'.shape? o'.shape = some t' ∧
      t'.entries.toList.zip o'.properties.toList =
        (t.entries.toList.zip o.properties.toList).filter (fun c => !c.1.atom.isNull) ∧
      o'.properties.toList.flatMap Property.refs = o.properties.toList.flatMap Property.refs := by
  obtain ⟨_, hv', _, ⟨d', hd'⟩, halters⟩ | ⟨⟨_, hres⟩, _⟩ := hv.of_compactProperties e
  · obtain ⟨d, hd, rfl⟩ := halters.record hd'
    have hempty := hvac r d hd
    obtain ⟨o, ho, hd⟩ := Option.bind_eq_some_iff.mp hd
    obtain ⟨t, ht, rfl⟩ := Option.map_eq_some_iff.mp hd
    obtain ⟨o', ho', hd'⟩ := Option.bind_eq_some_iff.mp hd'
    obtain ⟨t', ht', hrecord⟩ := Option.map_eq_some_iff.mp hd'
    have hcolumns : t'.entries.toList.zip o'.properties.toList =
        (t.entries.toList.zip o.properties.toList).filter (fun c => !c.1.atom.isNull) :=
      congrArg Record.columns hrecord
    refine ⟨o, t, o', t', ho, ht, ho', ht', hcolumns, ?_⟩
    obtain ⟨kept, hkept⟩ := AllocM.exists_withoutHoles hempty
    have hrefs := congrArg (List.map (·.1)) (AllocM.typedRefs_withoutHoles hkept)
    rw [AllocM.withoutHoles_eq_filter hkept, List.map_flatMap, List.map_flatMap] at hrefs
    simp only [Property.map_typedRefs] at hrefs
    rw [hv'.refs_of_columns ho' ht', hcolumns, hv.refs_of_columns ho ht]
    exact hrefs
  · cases hres

/-- A property that the object had is linked in the layout it takes over. -/
theorem TakesOver.isLinked {o : Object} {i : Nat} {flags : Flags} (htake : TakesOver x r s o t₀ t h h')
    (hfind : h.findOwn? r atom = some (i, flags)) : t.isLinked i = true := by
  rw [findOwn?_of_object htake.before, findProperty?, shape?_iff_body?.mpr htake.layout] at hfind
  have hfind : t₀.find? atom = some (i, flags) := hfind
  have hentry := Shape.getElem?_of_find? hfind
  rw [← htake.unshared.entries] at hentry
  exact htake.wired.isLinked hentry (Shape.isNull_of_find? hfind)

/-- A deletion finds the entry in its bucket, and if it compacts the layout it leaves one more hole to
drop. -/
theorem Valid.upheld_deleteProperty (hv : h.Valid x) (hvac : strict → h.Vacant) :
    Upheld strict ((AllocM.deleteProperty r atom).run h) := by
  unfold AllocM.deleteProperty
  rw [AllocM.get_bind]
  cases hfind : h.findOwn? r atom with
  | none => trivial
  | some place =>
    obtain ⟨index, flags⟩ := place
    dsimp only
    split
    · trivial
    refine AllocM.upheld_bind hv.sound.upheld_ownShape fun s h₁ e₁ => ?_
    obtain ⟨_, o, t₀, t, hres, htake⟩ | ⟨⟨_, hres⟩, _⟩ := hv.of_ownShape e₁
    · cases hres
      refine AllocM.upheld_lift_bind HeapM.upheld_shape fun t' h₂ e₂ => ?_
      obtain ⟨ht', rfl⟩ := shape_eq_ok e₂
      cases htake.shape.symm.trans ht'
      rw [if_neg (by simp [htake.isLinked hfind])]
      refine AllocM.upheld_lift_bind (HeapM.upheld_modifyShape _) fun _ h₂ e₃ => ?_
      refine AllocM.upheld_lift_bind HeapM.upheld_shape fun t' h₃ e₄ => ?_
      obtain ⟨_, rfl⟩ := shape_eq_ok e₄
      refine AllocM.upheld_lift_bind (HeapM.upheld_replaceProperty _ _) fun old h₃ e₅ => ?_
      obtain ⟨hv₃, _, halt⟩ := htake.of_vacating e₃ e₅
      obtain ⟨h₄, hrelease, _⟩ := hv₃.sound.releaseAll
      refine AllocM.upheld_lift_bind (upheld_of_ok hrelease) fun _ _ e₆ => ?_
      cases hrelease.symm.trans e₆
      obtain ⟨hv₄, hk₄⟩ := hv₃.of_releaseProperty e₆
      split
      · refine AllocM.upheld_bind (AllocM.upheld_tryCatch (hv₄.upheld_compactProperties ?_)
          fun _ _ _ => trivial) fun _ _ _ => trivial
        exact fun hstrict => (hvac hstrict).of_removal (halt.then_apart (.of_keeps hk₄))
      · trivial
    · cases hres

end Heap

/-! ## Runs -/

/-- An operation in heap `h` puts a value into slot `i` of object `r`, whatever property is there. -/
def Operation.WritesAt (h : Heap) (r : Handle) (i : Nat) : Operation → Prop
  | call (.writeSlot q j _) => q = r ∧ j = i
  | set cache q atom _ => q = r ∧ ∃ flags, (cache.lookup h atom q).1 = some ⟨i, none, flags⟩
  | _ => False

/-- An operation in heap `h` leaves the holes to deletions: it adds no property under the null atom and
puts no value into a slot opposite a hole. -/
structure Operation.SparesHoles (h : Heap) (op : Operation) : Prop where
  named : ∀ atom ∈ op.adds?, atom.isNull = false
  placed : ∀ r i, op.WritesAt h r i → ∀ o t e, h.object? r = some o → h.shape? o.shape = some t →
    t.entries[i]? = some e → e.atom.isNull = false

namespace Client

variable {config : Config} {h : Heap} {x : Ledger}

/-- Runs of a client that keeps its books and spares the holes. -/
abbrev Sparing (config : Config) (h : Heap) (x : Ledger) : Prop :=
  Noted (fun h op => op.SparesHoles h) (fun _ _ _ _ g => g) () config h x ()

theorem vacant_of_call {call : Call} {reply : Reply} {r : Handle} {k : Nat} {c : Entry × Property}
    (hnamed : ∀ atom ∈ call.adds?, atom.isNull = false)
    (hplaced : ∀ i v, call = .writeSlot r i v → ∀ o t e, h.object? r = some o →
      h.shape? o.shape = some t → t.entries[i]? = some e → e.atom.isNull = false)
    (hstored : call.Stores h reply r k c) (hnull : c.1.atom.isNull = true) : c.2 = .undefined := by
  have hadded : ∀ {atom : Atom}, call.adds? = some atom → atom.isNull = true → c.2 = .undefined := by
    intro atom hadds hatom
    rw [hnamed atom hadds] at hatom
    cases hatom
  cases hstored with
  | plain => exact hadded rfl hnull
  | accessor => exact hadded rfl hnull
  | captured => exact hadded rfl hnull
  | added => exact hadded rfl hnull
  | assigned => exact hadded rfl hnull
  | written v hd hi =>
    obtain ⟨o, ho, hd⟩ := Option.bind_eq_some_iff.mp hd
    obtain ⟨t, ht, rfl⟩ := Option.map_eq_some_iff.mp hd
    rw [Object.record, List.getElem?_zip_eq_some, Array.getElem?_toList] at hi
    rw [hplaced _ v rfl o t _ ho ht hi.1] at hnull
    cases hnull
  | deleted => rfl
  | laid => rfl
  | length => cases hnull
  | pushed => cases hnull

theorem Sparing.vacant (hr : Sparing config h x) : h.Vacant := by
  intro r d hd c hc
  obtain ⟨k, hk⟩ := Record.exists_shows hc
  refine Noted.columns (P := fun _ _ _ c => c.1.atom.isNull = true → c.2 = .undefined)
    (fun _ hc => hc.elim fun _ hc => hc.1) ?_ hr r d hd k c hk
  intro h h' g op reply r k c ha _ hstored
  cases op with
  | call call =>
    refine vacant_of_call ha.named (fun i v hcall => ?_) hstored
    subst hcall
    exact ha.placed r i ⟨rfl, rfl⟩
  | get => cases hstored
  | set cache q atom v =>
    rcases hstored with hstored | ⟨i, flags, hhit, hstored⟩
    · have hnamed : ∀ a ∈ (Call.setProperty q atom v).adds?, a.isNull = false := ha.named
      exact vacant_of_call hnamed nofun hstored
    · have hnamed : ∀ a ∈ (Call.writeSlot q i v).adds?, a.isNull = false := nofun
      refine vacant_of_call hnamed (fun j w hcall => ?_) hstored
      cases hcall
      exact ha.placed r i ⟨rfl, flags, hhit⟩

/-- Holes are what deletions have left.  A layout counts as many as it has, and nothing is stored opposite
one; so compaction does not find anything there, it keeps the other columns as they are, and the object
keeps all its references. -/
theorem holes_empty (hr : Sparing config h x) :
    (∀ s t, h.shape? s = some t → t.holes = t.entries.toList.countP (·.atom.isNull)) ∧
    (∀ r (o : Object) (t : Shape) (i : Nat) (e : Entry), h.object? r = some o →
      h.shape? o.shape = some t → t.entries[i]? = some e → e.atom.isNull = true →
      o.properties[i]? = some (.value .undefined)) ∧
    ∀ r, (AllocM.compactProperties r).run h ≠ .error .assertion ∧
      (∀ atom, (AllocM.deleteProperty r atom).run h ≠ .error .assertion) ∧
      ∀ h', (AllocM.compactProperties r).run h = .ok (.ok (), h') → ∃ o t o' t',
        h.object? r = some o ∧ h.shape? o.shape = some t ∧
        h'.object? r = some o' ∧ h'.shape? o'.shape = some t' ∧
        t'.entries.toList.zip o'.properties.toList =
          (t.entries.toList.zip o.properties.toList).filter (fun c => !c.1.atom.isNull) ∧
        o'.properties.toList.flatMap Property.refs = o.properties.toList.flatMap Property.refs := by
  obtain ⟨lost, _, hv⟩ := hr.reached.valid
  have hpays : h.Pays (.plain False h True) 0 := hr.pays fun _ _ _ ha => ha.named
  have hvac := hr.vacant
  refine ⟨fun s t ht => ?_, fun r o t i e ho ht he hnull => ?_, fun r => ⟨?_, fun atom => ?_, ?_⟩⟩
  · obtain ⟨c, hc, hb⟩ := Heap.shape?_eq_some_iff.mp ht
    have hsized : t.Sized True c.size := (hpays.cells _ c (Heap.tenant?_of_cell? hc)).shape t hb
    exact hsized.all trivial
  · have hfits := hv.laid.fits r o t (Heap.object?_iff_body?.mp ho) (Heap.shape?_iff_body?.mp ht)
    have hlt : i < o.properties.size := by
      rw [← hfits]
      exact (Array.getElem?_eq_some_iff.mp he).1
    have hslot : o.properties[i]? = some o.properties[i] := Array.getElem?_eq_getElem hlt
    obtain ⟨hd, hi⟩ := Heap.column_of_slot ho ht he hslot
    rw [hslot]
    exact congrArg some (hvac r _ hd _ (List.mem_of_getElem? hi) hnull)
  · exact (hv.upheld_compactProperties fun _ => hvac).ne
  · exact (hv.upheld_deleteProperty fun _ => hvac).ne
  · exact fun h' e => hv.compacted hvac e

/-- The client deletes the one property of an object: its layout has a hole and counts one, the undefined
value stands opposite, and compaction is content. -/
theorem holes_empty_deleted : ∃ h x, Sparing .default h x ∧ ∃ o t, h.object? ⟨1, 0⟩ = some o ∧
    h.shape? o.shape = some t ∧ t.holes = 1 ∧ t.entries.toList.countP (·.atom.isNull) = 1 ∧
    o.properties[0]? = some (.value .undefined) ∧
    (AllocM.compactProperties ⟨1, 0⟩).run h ≠ .error .assertion := by
  obtain ⟨h₁, e₁, hrest⟩ := ok_of_answers (x := (Call.newObject none).perform (.new .default))
    (a := .handle ⟨1, 0⟩) (t := fun h =>
      answers ((Call.defineProperty ⟨1, 0⟩ ⟨300⟩ .ordinary (.smi 5)).perform h) (.flag true) fun h =>
      answers ((Call.deleteProperty ⟨1, 0⟩ ⟨300⟩).perform h) (.flag true) fun h =>
      decide ((h.shapeOf? ⟨1, 0⟩).bind (fun t => t.entries[0]?.map fun e => (t.holes, e)) =
        some (1, Entry.hole)))
    (by decide +kernel)
  obtain ⟨h₂, e₂, hrest⟩ := ok_of_answers hrest
  obtain ⟨h₃, e₃, hhole⟩ := ok_of_answers hrest
  obtain ⟨t, hshape, hhole⟩ := Option.bind_eq_some_iff.mp (of_decide_eq_true hhole)
  obtain ⟨o, ho, ht⟩ := Option.bind_eq_some_iff.mp hshape
  obtain ⟨e, hentry, hhole⟩ := Option.map_eq_some_iff.mp hhole
  obtain ⟨hone, rfl⟩ := Prod.mk.inj hhole
  have hstart : Sparing .default (.new .default) .empty := .start
  have hr₁ := hstart.next (.call (.newObject none)) ⟨fun _ h => (by cases h), fun _ _ h => by cases h⟩
    (.of_nothing rfl rfl) e₁
  have hr₂ := hr₁.next (.call (.defineProperty ⟨1, 0⟩ ⟨300⟩ .ordinary (.smi 5)))
    ⟨fun atom hatom => (by cases hatom; rfl), fun _ _ h => by cases h⟩ (.of_nothing rfl rfl) e₂
  have hr₃ := hr₂.next (.call (.deleteProperty ⟨1, 0⟩ ⟨300⟩))
    ⟨fun _ h => (by cases h), fun _ _ h => by cases h⟩ (.of_nothing rfl rfl) e₃
  obtain ⟨hcounts, hslots, hcompacts⟩ := holes_empty hr₃
  exact ⟨h₃, _, hr₃, o, t, ho, ht, hone, (hcounts _ t ht).symm.trans hone,
    hslots _ o t 0 _ ho ht hentry rfl, (hcompacts ⟨1, 0⟩).1⟩

/-- A property under the null atom counts as no hole and stores a value, and so does the slot of a deleted
property once it is written: compaction breaks off at either. -/
theorem holes_filled :
    (∃ h x, Reached (fun _ => True) .default h x ∧ ∃ o t, h.object? ⟨1, 0⟩ = some o ∧
      h.shape? o.shape = some t ∧ t.holes = 0 ∧ t.entries.toList.countP (·.atom.isNull) = 1 ∧
      o.properties[0]? = some (.value (.smi 5)) ∧
      (AllocM.compactProperties ⟨1, 0⟩).run h = .error .assertion) ∧
    ∃ h x, Reached (fun _ => True) .default h x ∧ ∃ o t, h.object? ⟨1, 0⟩ = some o ∧
      h.shape? o.shape = some t ∧ t.entries[0]? = some .hole ∧
      o.properties[0]? = some (.value (.smi 7)) ∧
      (AllocM.compactProperties ⟨1, 0⟩).run h = .error .assertion := by
  have hstart : Reached (fun _ => True) .default (.new .default) .empty := .start
  constructor
  · obtain ⟨h₁, e₁, hrest⟩ := ok_of_answers (x := (Call.newObject none).perform (.new .default))
      (a := .handle ⟨1, 0⟩) (t := fun h =>
        answers ((Call.defineProperty ⟨1, 0⟩ ⟨0⟩ .ordinary (.smi 5)).perform h) (.flag true) fun h =>
        decide ((h.shapeOf? ⟨1, 0⟩).map (fun t => (t.holes, t.nulls)) = some (0, 1) ∧
          (h.object? ⟨1, 0⟩).bind (fun o => o.properties[0]?) = some (Property.value (.smi 5))) &&
        fails ((AllocM.compactProperties ⟨1, 0⟩).run h) .assertion)
      (by decide +kernel)
    obtain ⟨h₂, e₂, hrest⟩ := ok_of_answers hrest
    obtain ⟨hfacts, hfails⟩ := Bool.and_eq_true_iff.mp hrest
    obtain ⟨hcounts, hslot⟩ := of_decide_eq_true hfacts
    obtain ⟨t, hshape, hcounts⟩ := Option.map_eq_some_iff.mp hcounts
    obtain ⟨o, ho, ht⟩ := Option.bind_eq_some_iff.mp hshape
    obtain ⟨hzero, hone⟩ := Prod.mk.inj hcounts
    rw [ho, Option.bind_some] at hslot
    have hr₁ := hstart.next (.call (.newObject none)) trivial (.of_nothing rfl rfl) e₁
    have hr₂ := hr₁.next (.call (.defineProperty ⟨1, 0⟩ ⟨0⟩ .ordinary (.smi 5))) trivial
      (.of_nothing rfl rfl) e₂
    exact ⟨h₂, _, hr₂, o, t, ho, ht, hzero, hone, hslot, error_of_fails hfails⟩
  · obtain ⟨h₁, e₁, hrest⟩ := ok_of_answers (x := (Call.newObject none).perform (.new .default))
      (a := .handle ⟨1, 0⟩) (t := fun h =>
        answers ((Call.defineProperty ⟨1, 0⟩ ⟨300⟩ .ordinary (.smi 5)).perform h) (.flag true) fun h =>
        answers ((Call.deleteProperty ⟨1, 0⟩ ⟨300⟩).perform h) (.flag true) fun h =>
        answers ((Call.writeSlot ⟨1, 0⟩ 0 (.smi 7)).perform h) .done fun h =>
        decide ((h.shapeOf? ⟨1, 0⟩).bind (fun t => t.entries[0]?) = some Entry.hole ∧
          (h.object? ⟨1, 0⟩).bind (fun o => o.properties[0]?) = some (Property.value (.smi 7))) &&
        fails ((AllocM.compactProperties ⟨1, 0⟩).run h) .assertion)
      (by decide +kernel)
    obtain ⟨h₂, e₂, hrest⟩ := ok_of_answers hrest
    obtain ⟨h₃, e₃, hrest⟩ := ok_of_answers hrest
    obtain ⟨h₄, e₄, hrest⟩ := ok_of_answers hrest
    obtain ⟨hfacts, hfails⟩ := Bool.and_eq_true_iff.mp hrest
    obtain ⟨hentry, hslot⟩ := of_decide_eq_true hfacts
    obtain ⟨t, hshape, hentry⟩ := Option.bind_eq_some_iff.mp hentry
    obtain ⟨o, ho, ht⟩ := Option.bind_eq_some_iff.mp hshape
    rw [ho, Option.bind_some] at hslot
    have hr₁ := hstart.next (.call (.newObject none)) trivial (.of_nothing rfl rfl) e₁
    have hr₂ := hr₁.next (.call (.defineProperty ⟨1, 0⟩ ⟨300⟩ .ordinary (.smi 5))) trivial
      (.of_nothing rfl rfl) e₂
    have hr₃ := hr₂.next (.call (.deleteProperty ⟨1, 0⟩ ⟨300⟩)) trivial (.of_nothing rfl rfl) e₃
    have hr₄ := hr₃.next (.call (.writeSlot ⟨1, 0⟩ 0 (.smi 7))) trivial (.of_nothing rfl rfl) e₄
    exact ⟨h₄, _, hr₄, o, t, ho, ht, hentry, hslot, error_of_fails hfails⟩

end Client

end ObjectMemory
