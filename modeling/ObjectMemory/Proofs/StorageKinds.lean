import ObjectMemory.Proofs.Accounts
import ObjectMemory.Proofs.Columns
set_option autoImplicit false

/-!
# Flags and storage

The flags of an entry say how the object stores the property: as a plain value, as an accessor, or as a
captured variable.  Whoever defines a property gives it flags and storage of one kind.  Two operations
write the storage only: an object made of a shape that already has properties stores all of them as
plain values, and so does the length that is written when an element is pushed.  `Operation.Unsettles`
says when that leaves a property with flags of another kind.  It is noted until the property is deleted or
defined anew.

The main statement is that all properties without a note are stored as their flags say
(`Client.storage_agrees`), so that an assignment to one of them meets what it expects.
-/

namespace ObjectMemory

/-- The kind flags give to a property that is stored this way. -/
def Property.kind : Property → Flags
  | value _ => .plain
  | accessor _ _ => .accessor
  | captured _ => .captured

namespace Property

variable {p : Property}

theorem kind_eq_plain_iff : p.kind = .plain ↔ ∃ v, p = .value v := by
  cases p <;> simp [kind, Flags.plain, Flags.accessor, Flags.captured]

theorem kind_eq_accessor_iff : p.kind = .accessor ↔ ∃ getter setter, p = .accessor getter setter := by
  cases p <;> simp [kind, Flags.plain, Flags.accessor, Flags.captured]

theorem kind_eq_captured_iff : p.kind = .captured ↔ ∃ y, p = .captured y := by
  cases p <;> simp [kind, Flags.plain, Flags.accessor, Flags.captured]

/-- There are three ways to store a property. -/
theorem kind_cases (p : Property) : p.kind = .plain ∨ p.kind = .accessor ∨ p.kind = .captured := by
  cases p <;> simp [kind]

end Property

/-- Flags that were given a kind have it. -/
theorem Flags.kind_withKind (f : Flags) {k : Flags} (hk : k.kind = k) : (f.withKind k).kind = k := by
  have hbits : k.bits &&& kindMask.bits = k.bits := congrArg Flags.bits hk
  suffices h : (f.bits &&& ~~~kindMask.bits ||| k.bits) &&& kindMask.bits = k.bits from
    congrArg Flags.mk h
  apply UInt8.eq_of_toBitVec_eq
  have hbits := congrArg UInt8.toBitVec hbits
  simp only [UInt8.toBitVec_and, UInt8.toBitVec_or, UInt8.toBitVec_not] at hbits ⊢
  ext i hi
  have hbit := congrArg (fun w => w[i]) hbits
  simp only [BitVec.getElem_and, BitVec.getElem_or, BitVec.getElem_not] at hbit ⊢
  rw [Bool.and_or_distrib_right, hbit]
  simp [Bool.and_assoc]

/-! ## Mismatches -/

namespace HeapM

variable {h : Heap} {r : Handle} {o : Object}

theorem object_apply (ho : h.object? r = some o) : object r h = .ok (o, h) := by
  unfold object read
  simp only [ho]

end HeapM

namespace Heap

variable {h : Heap} {r : Handle} {atom : Atom} {v : Value} {err : Fault}

/-- A property that was found is an entry of the shape. -/
theorem entry_of_findOwn? {o : Object} {i : Nat} {flags : Flags} (ho : h.object? r = some o)
    (hfind : h.findOwn? r atom = some (i, flags)) :
    ∃ t, h.shape? o.shape = some t ∧ t.entries[i]? = some ⟨atom, flags⟩ ∧ atom.isNull = false := by
  unfold findOwn? at hfind
  rw [ho, Option.bind_some] at hfind
  obtain ⟨t, ht, hfind⟩ := Option.bind_eq_some_iff.mp hfind
  exact ⟨t, ht, Shape.getElem?_of_find? hfind, Shape.isNull_of_find? hfind⟩

/-- Writing a slot fails for its kind only if it is no plain value. -/
theorem mismatch_of_writeSlot {i : Nat} {o : Object} (hp : h.Pays (.plain True h False) 0)
    (ho : h.object? r = some o) (e : HeapM.writeSlot r i v h = .error err) (hm : err.isMismatch = true) :
    ∃ p, o.properties[i]? = some p ∧ err = .notPlain i r ∧ p.kind ≠ .plain := by
  unfold HeapM.writeSlot at e
  rw [HeapM.bind_apply, HeapM.object_apply ho] at e
  dsimp only at e
  cases hslot : o.properties[i]? with
  | none =>
    rw [hslot] at e
    cases e
    cases hm
  | some p =>
    refine ⟨p, rfl, ?_⟩
    rw [hslot] at e
    cases p with
    | value old =>
      have hwrite := HeapM.Stays.bind
        (HeapM.Stays.modifyObject (f := fun o =>
          { o with properties := o.properties.setIfInBounds i (.value v) }) r
          fun _ => ⟨rfl, Array.size_setIfInBounds, rfl⟩) (fun _ => HeapM.Stays.freeValue old) 0 h hp
      rw [hwrite.not_mismatch e] at hm
      cases hm
    | accessor getter setter =>
      cases e
      exact ⟨rfl, nofun⟩
    | captured y =>
      cases e
      exact ⟨rfl, nofun⟩

/-- An assignment fails for the kind of a property only if it is not stored as its flags say. -/
theorem mismatch_of_setProperty (hp : h.Pays (.plain True h False) 0)
    (e : (AllocM.setProperty r atom v).run h = .error err) (hm : err.isMismatch = true) :
    ∃ o i flags p, h.object? r = some o ∧ h.findOwn? r atom = some (i, flags) ∧
      o.properties[i]? = some p ∧ flags.kind ≠ .accessor ∧
      (flags.kind = .captured ∧ err = .notCaptured p ∧ p.kind ≠ .captured ∨
        flags.kind ≠ .captured ∧ err = .notPlain i r ∧ p.kind ≠ .plain) := by
  unfold AllocM.setProperty at e
  rw [AllocM.get_bind] at e
  cases hfind : h.findOwn? r atom with
  | none =>
    rw [hfind] at e
    have hstays : AllocM.Stays (.plain True h False) (AllocM.defineOwn r atom .ordinary (.value v)) :=
      .defineOwn r .ordinary (.value v) False.elim
    rw [(hstays 0 h hp).not_mismatch e] at hm
    cases hm
  | some place =>
    obtain ⟨i, flags⟩ := place
    rw [hfind] at e
    obtain ⟨o, ho, _⟩ := Option.bind_eq_some_iff.mp hfind
    dsimp only at e
    split at e
    · have hfree := AllocM.Stays.bind (.lift (.freeValue v)) (fun _ => .pure false) 0 h hp
      rw [hfree.not_mismatch e] at hm
      cases hm
    · rename_i hopen
      simp only [Bool.or_eq_true, beq_iff_eq, not_or] at hopen
      split at e
      · rename_i hkind
        simp only [beq_iff_eq] at hkind
        rw [AllocM.lift_bind_apply, HeapM.object_apply ho] at e
        dsimp only at e
        cases hslot : o.properties[i]? with
        | none =>
          rw [hslot] at e
          cases e
          cases hm
        | some p =>
          refine ⟨o, i, flags, p, ho, rfl, hslot, hopen.2, .inl ⟨hkind, ?_⟩⟩
          rw [hslot] at e
          cases p with
          | value w =>
            cases e
            exact ⟨rfl, nofun⟩
          | accessor getter setter =>
            cases e
            exact ⟨rfl, nofun⟩
          | captured y =>
            have hset := AllocM.Stays.bind (.lift (.setVariable y v)) (fun _ => .pure true) 0 h hp
            rw [hset.not_mismatch e] at hm
            cases hm
      · rename_i hkind
        simp only [beq_iff_eq] at hkind
        rw [AllocM.lift_bind_apply] at e
        cases hwrite : HeapM.writeSlot r i v h with
        | ok q =>
          rw [hwrite] at e
          cases e
        | error err' =>
          rw [hwrite] at e
          cases e
          obtain ⟨p, hslot, herr, hplain⟩ := mismatch_of_writeSlot hp ho hwrite hm
          exact ⟨o, i, flags, p, ho, rfl, hslot, hopen.2, .inr ⟨hkind, herr, hplain⟩⟩

end Heap

/-! ## Runs -/

/-- An operation in heap `h` stores property `atom` of object `r`, behind `k` older entries for the atom, as
a plain value, and its flags have another kind. -/
inductive Operation.Unsettles (h : Heap) : Operation → Reply → Handle → Atom → Nat → Prop where
  /-- the shape the object is made of has the property -/
  | laid {s : Handle} {t : Shape} {i : Nat} {e : Entry} (payload : Payload) (r : Handle)
      (ht : h.shape? s = some t) (he : t.entries[i]? = some e) (hkind : e.flags.kind ≠ .plain) :
      Unsettles h (.call (.newObjectFromShape s payload)) (.handle r) r e.atom (t.older i e.atom)
  /-- the property is the length of an array that an element is pushed to -/
  | pushed {r : Handle} {i k : Nat} {flags : Flags} (v : Value)
      (hfind : h.findOwn? r .length = some (i, flags)) (hk : h.rank? r .length = some k)
      (hkind : flags.kind ≠ .plain) : Unsettles h (.call (.arrayPush r v)) .done r .length k

namespace Client

variable {config : Config} {h : Heap} {x : Ledger} {odd : Handle → Atom → Nat → Prop}

/-- Runs of a client that keeps its books, with the properties of each object that are stored as plain
values under flags of another kind.  The note is on the entry for the atom that has so many older ones; it
is dropped when that property is deleted or defined anew. -/
abbrev Watched (config : Config) : Heap → Ledger → (Handle → Atom → Nat → Prop) → Prop :=
  Noted (fun _ _ => True)
    (fun h op reply _ odd r atom k =>
      h.contains r = true ∧ odd r atom k ∧ ¬ op.Renews h reply r atom k ∨ op.Unsettles h reply r atom k)
    (fun _ _ _ => False) config

/-- A property is plain or stored as its flags say, and that also if it is plain, unless it is among
`odd`. -/
def Settled (odd : Handle → Atom → Nat → Prop) (r : Handle) (k : Nat) (c : Entry × Property) : Prop :=
  c.1.atom.isNull = false →
    (c.2.kind = .plain ∨ c.1.flags.kind = c.2.kind) ∧ (¬ odd r c.1.atom k → c.1.flags.kind = c.2.kind)

theorem Settled.of_agree {r : Handle} {k : Nat} {c : Entry × Property} (hc : c.1.flags.kind = c.2.kind) :
    Settled odd r k c := fun _ => ⟨.inr hc, fun _ => hc⟩

/-- Another plain value may stand for a plain value. -/
theorem Settled.write {r : Handle} {k : Nat} {e : Entry} {old : Value}
    (hc : Settled odd r k (e, .value old)) (v : Value) : Settled odd r k (e, .value v) := hc

theorem Settled.mono {odd' : Handle → Atom → Nat → Prop} {r : Handle} {k : Nat} {c : Entry × Property}
    (hc : Settled odd r k c) (hodd : c.1.atom.isNull = false → odd r c.1.atom k → odd' r c.1.atom k) :
    Settled odd' r k c :=
  fun hnull => ⟨(hc hnull).1, fun hnot => (hc hnull).2 fun h => hnot (hodd hnull h)⟩

/-- A plain value may stand for whatever an assignment passes over. -/
theorem Settled.assign {r : Handle} {k : Nat} {e : Entry} {p : Property} (hc : Settled odd r k (e, p))
    (haccessor : e.flags.kind ≠ .accessor) (hcaptured : e.flags.kind ≠ .captured) (v : Value) :
    Settled odd r k (e, .value v) := by
  refine fun hnull => ⟨.inl rfl, fun hnot => ?_⟩
  have hagree : e.flags.kind = p.kind := (hc hnull).2 hnot
  rcases p.kind_cases with hp | hp | hp
  · exact hagree.trans hp
  · exact absurd (hagree.trans hp) haccessor
  · exact absurd (hagree.trans hp) hcaptured

/-- A plain value is stored under flags of another kind only where that is noted. -/
theorem settled_of_plain {r : Handle} {k : Nat} {e : Entry} {v : Value}
    (hodd : e.flags.kind ≠ .plain → odd r e.atom k) : Settled odd r k (e, .value v) := by
  refine fun _ => ⟨.inl rfl, fun hnot => ?_⟩
  by_contra hkind
  exact hnot (hodd hkind)

/-- What is settled of a named entry and the property stored for it. -/
theorem Settled.storage {r : Handle} {k : Nat} {e : Entry} {p : Property} (hc : Settled odd r k (e, p))
    (hnull : e.atom.isNull = false) :
    ((∃ getter setter, p = .accessor getter setter) → e.flags.kind = .accessor) ∧
    ((∃ y, p = .captured y) → e.flags.kind = .captured) ∧
    (e.flags.kind = .plain → ∃ v, p = .value v) ∧
    (¬ odd r e.atom k →
      ((∃ getter setter, p = .accessor getter setter) ↔ e.flags.kind = .accessor) ∧
      ((∃ y, p = .captured y) ↔ e.flags.kind = .captured) ∧
      ((∃ v, p = .value v) ↔ e.flags.kind = .plain)) := by
  obtain ⟨hplain, hagree⟩ := hc hnull
  simp only [← Property.kind_eq_accessor_iff, ← Property.kind_eq_captured_iff,
    ← Property.kind_eq_plain_iff]
  refine ⟨fun hp => ?_, fun hp => ?_, fun hk => ?_, fun hodd => ?_⟩
  · rcases hplain with hk | hk
    · exact absurd (hp.symm.trans hk) (by decide)
    · exact hk.trans hp
  · rcases hplain with hk | hk
    · exact absurd (hp.symm.trans hk) (by decide)
    · exact hk.trans hp
  · rcases hplain with hp | hp
    · exact hp
    · exact hp.symm.trans hk
  · have hsame : e.flags.kind = p.kind := hagree hodd
    rw [hsame]
    exact ⟨.rfl, .rfl, .rfl⟩

theorem settled_of_call {call : Call} {reply : Reply} {r : Handle} {k : Nat} {c : Entry × Property}
    {odd' : Handle → Atom → Nat → Prop} (hcolumns : h.AllColumns (Settled odd))
    (hkeep : ∀ atom, h.contains r = true → odd r atom k → ¬ call.Renews h reply r atom k → odd' r atom k)
    (hunsettles : ∀ atom, (Operation.call call).Unsettles h reply r atom k → odd' r atom k)
    (hstored : call.Stores h reply r k c) : Settled odd' r k c := by
  cases hstored with
  | plain => exact .of_agree (Flags.kind_withKind _ (by decide))
  | accessor => exact .of_agree (Flags.kind_withKind _ (by decide))
  | captured => exact .of_agree (Flags.kind_withKind _ (by decide))
  | added => exact .of_agree (show Flags.ordinary.kind = .plain by decide)
  | assigned v _ hd hi haccessor hcaptured =>
    have hold := hcolumns r _ hd _ _ (Record.shows_of_index hi)
    exact (hold.assign haccessor hcaptured v).mono fun _ hodd =>
      hkeep _ (Heap.contains_of_record? hd) hodd (Call.not_renews rfl _ _ _ _ _)
  | written v hd hi =>
    have hold := hcolumns r _ hd _ _ (Record.shows_of_index hi)
    exact (hold.write v).mono fun _ hodd =>
      hkeep _ (Heap.contains_of_record? hd) hodd (Call.not_renews rfl _ _ _ _ _)
  | deleted => exact .of_agree (by decide)
  | laid payload _ ht he => exact settled_of_plain fun hkind => hunsettles _ (.laid payload r ht he hkind)
  | length => exact .of_agree (by decide)
  | pushed v n hfind hk => exact settled_of_plain fun hkind => hunsettles _ (.pushed v hfind hk hkind)

theorem Watched.settled (hr : Watched config h x odd) : h.AllColumns (Settled odd) := by
  refine Noted.columns (P := Settled) ?_ ?_ hr
  · rintro h h' odd op reply r k c hlive ⟨j, hc, hplace⟩ hnull
    obtain ⟨rfl, hstays⟩ := hplace hnull
    exact ⟨(hc hnull).1, fun hnot => (hc hnull).2 fun hodd => hnot (.inl ⟨hlive, hodd, hstays⟩)⟩
  · intro h h' odd op reply r k c _ hcolumns hstored
    cases op with
    | call call =>
      exact settled_of_call hcolumns (fun _ hlive hodd hstays => .inl ⟨hlive, hodd, hstays⟩)
        (fun _ => .inr) hstored
    | get => cases hstored
    | set cache q atom v =>
      rcases hstored with hstored | ⟨_, _, _, hstored⟩
      · exact settled_of_call hcolumns (fun _ hlive hodd _ => .inl ⟨hlive, hodd, id⟩)
          (fun _ hu => by cases hu) hstored
      · exact settled_of_call hcolumns (fun _ hlive hodd _ => .inl ⟨hlive, hodd, id⟩)
          (fun _ hu => by cases hu) hstored

/-- Properties are stored as their flags say.  An accessor stands only under flags for accessors, a
captured variable only under flags for variables, and under plain flags there is a plain value; the
converse holds of every property but those with a note.  So no assignment finds an accessor or a variable
where it writes a plain value, and none but to a property with a note finds something else where it looks
for a variable. -/
theorem storage_agrees (hr : Watched config h x odd) :
    (∀ r (o : Object) (t : Shape) (i : Nat) (e : Entry), h.object? r = some o →
      h.shape? o.shape = some t → t.entries[i]? = some e → e.atom.isNull = false →
      ∃ p : Property, o.properties[i]? = some p ∧
        ((∃ getter setter, p = .accessor getter setter) → e.flags.kind = .accessor) ∧
        ((∃ y, p = .captured y) → e.flags.kind = .captured) ∧
        (e.flags.kind = .plain → ∃ v, p = .value v) ∧
        (¬ odd r e.atom (t.older i e.atom) →
          ((∃ getter setter, p = .accessor getter setter) ↔ e.flags.kind = .accessor) ∧
          ((∃ y, p = .captured y) ↔ e.flags.kind = .captured) ∧
          ((∃ v, p = .value v) ↔ e.flags.kind = .plain))) ∧
    ∀ r atom v, (∀ i q, (AllocM.setProperty r atom v).run h ≠ .error (.notPlain i q)) ∧
      ((∀ k, h.rank? r atom = some k → ¬ odd r atom k) →
        ∀ p, (AllocM.setProperty r atom v).run h ≠ .error (.notCaptured p)) := by
  obtain ⟨lost, _, hv⟩ := hr.reached.valid
  have hsettled := hr.settled
  have hpays : h.Pays (.plain True h False) 0 :=
    (hr.pays False.elim).narrow rfl (fun _ _ _ _ _ hs => hs) fun _ _ _ _ _ ho => ho
  have hfits : ∀ r o t, h.object? r = some o → h.shape? o.shape = some t →
      t.entries.size = o.properties.size :=
    fun r o t ho ht => hv.laid.fits r o t (Heap.object?_iff_body?.mp ho) (Heap.shape?_iff_body?.mp ht)
  refine ⟨fun r o t i e ho ht he hnull => ?_, fun r atom v => ⟨fun i q hrun => ?_, fun hodd p hrun => ?_⟩⟩
  · have hlt : i < o.properties.size := by
      rw [← hfits r o t ho ht]
      exact (Array.getElem?_eq_some_iff.mp he).1
    have hslot : o.properties[i]? = some o.properties[i] := Array.getElem?_eq_getElem hlt
    exact ⟨_, hslot, (hsettled.of_slot ho ht (hfits r o t ho ht) he hslot).storage hnull⟩
  · obtain ⟨o, j, flags, p, ho, hfind, hslot, haccessor, ⟨_, herr, _⟩ | ⟨hcaptured, _, hplain⟩⟩ :=
      Heap.mismatch_of_setProperty hpays hrun rfl
    · cases herr
    · obtain ⟨t, ht, hentry, hnull⟩ := Heap.entry_of_findOwn? ho hfind
      obtain ⟨hkind, _⟩ := hsettled.of_slot ho ht (hfits r o t ho ht) hentry hslot hnull
      rcases hkind with hkind | hkind
      · exact hplain hkind
      · rcases p.kind_cases with hp | hp | hp
        · exact hplain hp
        · exact haccessor (hkind.trans hp)
        · exact hcaptured (hkind.trans hp)
  · obtain ⟨o, j, flags, p', ho, hfind, hslot, _, ⟨hkind, _, hstored⟩ | ⟨_, herr, _⟩⟩ :=
      Heap.mismatch_of_setProperty hpays hrun rfl
    · obtain ⟨t, ht, hentry, hnull⟩ := Heap.entry_of_findOwn? ho hfind
      have hrank := (hv.rank?_of_findOwn? (Heap.column_of_slot ho ht hentry hslot).1 hfind).1
      rw [Object.older_record (hfits r o t ho ht)] at hrank
      have hsame : flags.kind = p'.kind :=
        (hsettled.of_slot ho ht (hfits r o t ho ht) hentry hslot hnull).2 (hodd _ hrank)
      exact hstored (hsame.symm.trans hkind)
    · cases herr

/-- The client makes an object of a shape that has a property with flags for a captured variable, and then
defines the property for a variable: there is no note on it any more, it is stored as a variable, and an
assignment to it finds the variable. -/
theorem storage_agrees_captured : ∃ h x odd, Watched .default h x odd ∧ ¬ odd ⟨1, 0⟩ ⟨300⟩ 0 ∧
    ∃ o t, h.object? ⟨1, 0⟩ = some o ∧ h.shape? o.shape = some t ∧
      t.entries[0]? = some ⟨⟨300⟩, ⟨0x27⟩⟩ ∧ (∃ y, o.properties[0]? = some (.captured y)) ∧
      ∀ p, (AllocM.setProperty ⟨1, 0⟩ ⟨300⟩ (.smi 5)).run h ≠ .error (.notCaptured p) := by
  obtain ⟨h₁, e₁, hrest⟩ := ok_of_answers (x := (Call.shapeForNewObject none).perform (.new .default))
    (a := .handle ⟨0, 0⟩) (t := fun h =>
      answers ((Call.addProperty ⟨0, 0⟩ ⟨300⟩ ⟨0x27⟩).perform h) (.extended ⟨0, 0⟩ 0) fun h =>
      answers ((Call.newObjectFromShape ⟨0, 0⟩ .ordinary).perform h) (.handle ⟨1, 0⟩) fun h =>
      answers ((Call.newVariable (.smi 7)).perform h) (.handle ⟨2, 0⟩) fun h =>
      decide (h.kind? ⟨2, 0⟩ = some .captured ∧ h.rank? ⟨1, 0⟩ ⟨300⟩ = some 0) &&
      answers ((Call.defineCaptured ⟨1, 0⟩ ⟨300⟩ .ordinary ⟨2, 0⟩).perform h) (.flag true) fun h =>
      decide (h.rank? ⟨1, 0⟩ ⟨300⟩ = some 0 ∧
        (h.shapeOf? ⟨1, 0⟩).bind (fun t => t.entries[0]?) = some (⟨⟨300⟩, ⟨0x27⟩⟩ : Entry)))
    (by decide +kernel)
  obtain ⟨h₂, e₂, hrest⟩ := ok_of_answers hrest
  obtain ⟨h₃, e₃, hrest⟩ := ok_of_answers hrest
  obtain ⟨h₄, e₄, hrest⟩ := ok_of_answers hrest
  obtain ⟨hfacts, hrest⟩ := Bool.and_eq_true_iff.mp hrest
  obtain ⟨hkind, hbefore⟩ := of_decide_eq_true hfacts
  obtain ⟨h₅, e₅, hafter⟩ := ok_of_answers hrest
  obtain ⟨hrank, hentry⟩ := of_decide_eq_true hafter
  obtain ⟨t, hshape, hentry⟩ := Option.bind_eq_some_iff.mp hentry
  obtain ⟨o, ho, ht⟩ := Option.bind_eq_some_iff.mp hshape
  have hnone : Payload.ordinary.refs = [] := rfl
  have hstart : Watched .default (.new .default) .empty fun _ _ _ => False := .start
  have hr₁ := hstart.next (.call (.shapeForNewObject none)) trivial (.of_nothing rfl rfl) e₁
  have hr₂ := hr₁.next (.call (.addProperty ⟨0, 0⟩ ⟨300⟩ ⟨0x27⟩)) trivial
    (.of_owned (Operation.settle_pos _ (List.mem_singleton_self _)) rfl rfl) e₂
  have hr₃ := hr₂.next (.call (.newObjectFromShape ⟨0, 0⟩ .ordinary)) trivial
    (.of_owned (Operation.settle_pos _ (List.mem_singleton_self _)) rfl rfl) e₃
  have hr₄ := hr₃.next (.call (.newVariable (.smi 7))) trivial (.of_nothing rfl rfl) e₄
  have hr₅ := hr₄.next (.call (.defineCaptured ⟨1, 0⟩ ⟨300⟩ .ordinary ⟨2, 0⟩)) trivial ⟨?_, ?_⟩ e₅
  · obtain ⟨x, odd, hr, hodd⟩ : ∃ x odd, Watched .default h₅ x odd ∧ ¬ odd ⟨1, 0⟩ ⟨300⟩ 0 := by
      refine ⟨_, _, hr₅, ?_⟩
      rintro (⟨_, _, hstays⟩ | hodd)
      · exact hstays (.captured .ordinary ⟨2, 0⟩ hbefore)
      · cases hodd
    obtain ⟨hagrees, hassigns⟩ := storage_agrees hr
    obtain ⟨p, hp, _, _, _, hiff⟩ := hagrees ⟨1, 0⟩ o t 0 _ ho ht hentry rfl
    obtain ⟨y, rfl⟩ := (hiff hodd).2.1.mpr (by decide)
    refine ⟨h₅, x, odd, hr, hodd, o, t, ho, ht, hentry, ⟨y, hp⟩, (hassigns ⟨1, 0⟩ ⟨300⟩ (.smi 5)).2 ?_⟩
    intro k hk
    cases hrank.symm.trans hk
    exact hodd
  · intro r
    simp [Operation.settle, Operation.consumed, Operation.gained, Call.consumed, Call.gained, Reply.refs,
      Value.ref?, Ledger.minus]
  · intro a ha
    cases List.mem_singleton.mp ha
    exact hkind

/-- The client adds a property to a shape, with flags for a captured variable, and makes an object of the
shape: the object stores a plain value, and an assignment to the property does not find a variable. -/
theorem storage_differs_laid : ∃ h x, Reached (fun _ => True) .default h x ∧
    ∃ o t, h.object? ⟨1, 0⟩ = some o ∧ h.shape? o.shape = some t ∧
      t.entries[0]? = some ⟨⟨300⟩, ⟨0x27⟩⟩ ∧ (⟨0x27⟩ : Flags).kind = .captured ∧
      o.properties[0]? = some (.value .undefined) ∧
      (AllocM.setProperty ⟨1, 0⟩ ⟨300⟩ (.smi 5)).run h = .error (.notCaptured (.value .undefined)) := by
  obtain ⟨h₁, e₁, hrest⟩ := ok_of_answers (x := (Call.shapeForNewObject none).perform (.new .default))
    (a := .handle ⟨0, 0⟩) (t := fun h =>
      answers ((Call.addProperty ⟨0, 0⟩ ⟨300⟩ ⟨0x27⟩).perform h) (.extended ⟨0, 0⟩ 0) fun h =>
      answers ((Call.newObjectFromShape ⟨0, 0⟩ .ordinary).perform h) (.handle ⟨1, 0⟩) fun h =>
      decide ((h.shapeOf? ⟨1, 0⟩).bind (fun t => t.entries[0]?) = some (⟨⟨300⟩, ⟨0x27⟩⟩ : Entry) ∧
        (h.object? ⟨1, 0⟩).bind (fun o => o.properties[0]?) = some (Property.value .undefined)) &&
      fails ((AllocM.setProperty ⟨1, 0⟩ ⟨300⟩ (.smi 5)).run h) (.notCaptured (.value .undefined)))
    (by decide +kernel)
  obtain ⟨h₂, e₂, hrest⟩ := ok_of_answers hrest
  obtain ⟨h₃, e₃, hrest⟩ := ok_of_answers hrest
  obtain ⟨hfacts, hfails⟩ := Bool.and_eq_true_iff.mp hrest
  obtain ⟨hentry, hslot⟩ := of_decide_eq_true hfacts
  obtain ⟨t, hshape, hentry⟩ := Option.bind_eq_some_iff.mp hentry
  obtain ⟨o, ho, ht⟩ := Option.bind_eq_some_iff.mp hshape
  rw [ho, Option.bind_some] at hslot
  have hstart : Reached (fun _ => True) .default (.new .default) .empty := .start
  have hr₁ := hstart.next (.call (.shapeForNewObject none)) trivial (.of_nothing rfl rfl) e₁
  have hr₂ := hr₁.next (.call (.addProperty ⟨0, 0⟩ ⟨300⟩ ⟨0x27⟩)) trivial ⟨?_, List.forall_mem_nil _⟩ e₂
  · have hr₃ := hr₂.next (.call (.newObjectFromShape ⟨0, 0⟩ .ordinary)) trivial ⟨?_, List.forall_mem_nil _⟩ e₃
    · exact ⟨h₃, _, hr₃, o, t, ho, ht, hentry, by decide, hslot, error_of_fails hfails⟩
    · intro r
      have hnone : Payload.ordinary.refs = [] := rfl
      simp [Operation.settle, Operation.consumed, Operation.gained, Call.consumed, Call.gained, Reply.refs,
        hnone, Ledger.minus]
  · intro r
    simp [Operation.settle, Operation.consumed, Operation.gained, Call.consumed, Call.gained, Reply.refs,
      Ledger.minus]

end Client

end ObjectMemory
