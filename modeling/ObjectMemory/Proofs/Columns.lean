import ObjectMemory.Proofs.Clients
set_option autoImplicit false

/-!
# What operations store

An object is a row of columns: the entries of its layout, each with the property stored for it.  An
operation leaves the columns there are, drops some, or stores new ones; `Operation.Stores` says which
columns it may store and in which object.  `Heap.Fills` is the same for two heaps: a column seen after was
seen before or is one of those.

A layout can have several entries for one atom, and its indexes shift when it is compacted.  What stays is
the order of the entries for an atom, so a column is told by how many older ones its atom has
(`Record.Shows`).  A search finds the newest, and that is the one a definition replaces and a deletion takes
away (`Operation.Renews`).

So whatever holds of all columns that are stored holds of all columns there are (`Client.Noted.columns`).
The columns of a new array come from the layout its realm has for arrays, which is the same in every realm
(`Heap.Uniform`).
-/

namespace ObjectMemory

/-- How many entries before an index are for an atom. -/
def Shape.older (t : Shape) (i : Nat) (atom : Atom) : Nat := (t.entries.toList.take i).countP (·.atom = atom)

namespace Record

variable {d : Record} {i k : Nat} {e : Entry} {p : Property} {a c : Entry × Property} {atom : Atom}
  {f : Entry × Property → Entry × Property} {gone : Atom → Nat → Prop}

/-- The columns for an atom, the oldest first. -/
def named (d : Record) (atom : Atom) : List (Entry × Property) := d.columns.filter fun c => c.1.atom = atom

/-- The column stands behind `k` older ones for its atom. -/
def Shows (d : Record) (k : Nat) (c : Entry × Property) : Prop := (d.named c.1.atom)[k]? = some c

/-- How many columns before an index are for an atom. -/
def older (d : Record) (i : Nat) (atom : Atom) : Nat := (d.columns.take i).countP (·.1.atom = atom)

/-- The column is one that was there, and if it has a name it is where it was and has not gone. -/
def Leaves (d : Record) (gone : Atom → Nat → Prop) (k : Nat) (c : Entry × Property) : Prop :=
  c ∈ d.columns ∧ (c.1.atom.isNull = false → d.Shows k c ∧ ¬ gone c.1.atom k)

theorem Shows.mem (hc : d.Shows k c) : c ∈ d.columns := List.mem_of_mem_filter (List.mem_of_getElem? hc)

theorem exists_shows (hc : c ∈ d.columns) : ∃ k, d.Shows k c :=
  List.mem_iff_getElem?.mp (List.mem_filter.mpr ⟨hc, by simp⟩)

theorem Shows.leaves (hc : d.Shows k c) (hgone : ∀ k, ¬ gone c.1.atom k) : d.Leaves gone k c :=
  ⟨hc.mem, fun _ => ⟨hc, hgone k⟩⟩

/-- A column in the middle of a record, with another in its place. -/
theorem exists_halves (hi : d.columns[i]? = some a) (e : Entry) (p : Property) : ∃ front back,
    d.columns = front ++ a :: back ∧ (d.set i e p).columns = front ++ (e, p) :: back ∧
      (∀ atom, d.older i atom = (front.filter fun c => c.1.atom = atom).length) ∧
      ∀ c ∈ back, ∃ j, i < j ∧ d.columns[j]? = some c := by
  obtain ⟨hlt, hget⟩ := List.getElem?_eq_some_iff.mp hi
  obtain ⟨front, back, hsplit, hlen, hset⟩ := @List.exists_of_set _ _ (e, p) _ hlt
  rw [hget] at hsplit
  refine ⟨front, back, hsplit, hset, fun atom => ?_, fun c hc => ?_⟩
  · rw [older, hsplit, ← hlen, List.take_left, List.countP_eq_length_filter]
  · obtain ⟨j, hj⟩ := List.mem_iff_getElem?.mp hc
    refine ⟨i + 1 + j, by omega, ?_⟩
    rw [hsplit, List.getElem?_append_right (by omega), show i + 1 + j - front.length = j + 1 by omega]
    exact hj

/-- The column at an index stands behind the older ones. -/
theorem shows_of_index (hi : d.columns[i]? = some c) : d.Shows (d.older i c.1.atom) c := by
  obtain ⟨front, back, hsplit, -, holder, -⟩ := exists_halves hi .hole .undefined
  rw [Shows, named, hsplit, List.filter_append, List.filter_cons_of_pos (by simp), holder,
    List.getElem?_append_right Nat.le.refl, Nat.sub_self]
  rfl

/-- A column that is shown has an index with as many older ones before it. -/
theorem Shows.exists_index (hc : d.Shows k c) : ∃ i, d.columns[i]? = some c ∧ d.older i c.1.atom = k := by
  unfold Shows named at hc
  unfold older
  generalize d.columns = columns at hc ⊢
  induction columns generalizing k with
  | nil => cases hc
  | cons b rest ih =>
    by_cases hname : b.1.atom = c.1.atom
    · rw [List.filter_cons_of_pos (by simpa using hname)] at hc
      cases k with
      | zero => exact ⟨0, hc, rfl⟩
      | succ k =>
        obtain ⟨i, hi, hk⟩ := ih hc
        exact ⟨i + 1, hi, by simp [hname, hk]⟩
    · rw [List.filter_cons_of_neg (by simpa using hname)] at hc
      obtain ⟨i, hi, hk⟩ := ih hc
      exact ⟨i + 1, hi, by simp [hname, hk]⟩

theorem shows_append (hc : (d.append e p).Shows k c) : d.Shows k c ∨ c = (e, p) := by
  rw [Shows, named, append, List.filter_append, List.getElem?_append] at hc
  split at hc
  · exact .inl hc
  · exact .inr (by simpa using List.mem_of_mem_filter (List.mem_of_getElem? hc))

/-- A column with the same name takes the place of another. -/
theorem shows_set (hi : d.columns[i]? = some a) (hatom : e.atom = a.1.atom) (hc : (d.set i e p).Shows k c) :
    d.Shows k c ∧ (c.1.atom = e.atom → k ≠ d.older i e.atom) ∨ c = (e, p) ∧ k = d.older i e.atom := by
  obtain ⟨front, back, hsplit, hset, holder, -⟩ := exists_halves hi e p
  rw [Shows, named, hset, List.filter_append, List.filter_cons] at hc
  rw [Shows, named, hsplit, List.filter_append, List.filter_cons, ← hatom, holder]
  by_cases hname : e.atom = c.1.atom
  · rw [← hname] at hc ⊢
    rw [if_pos (by simp), List.getElem?_append] at hc ⊢
    rcases Nat.lt_trichotomy k (front.filter fun c => c.1.atom = e.atom).length with hlt | rfl | hgt
    · rw [if_pos hlt] at hc ⊢
      exact .inl ⟨hc, fun _ => Nat.ne_of_lt hlt⟩
    · rw [if_neg (Nat.lt_irrefl _), Nat.sub_self] at hc
      exact .inr ⟨(Option.some.inj hc).symm, rfl⟩
    · rw [if_neg (by omega)] at hc ⊢
      obtain ⟨j, hj⟩ := Nat.exists_eq_add_of_lt hgt
      rw [show k - _ = j + 1 by omega, List.getElem?_cons_succ] at hc ⊢
      exact .inl ⟨hc, fun _ => Nat.ne_of_gt hgt⟩
  · rw [if_neg (by simpa using hname)] at hc ⊢
    exact .inl ⟨hc, fun hsame => absurd hsame.symm hname⟩

/-- A hole takes the place of the newest column for an atom. -/
theorem shows_set_hole (hi : d.columns[i]? = some a)
    (hlast : ∀ (j : Nat) b, i < j → d.columns[j]? = some b → b.1.atom ≠ a.1.atom)
    (hnull : c.1.atom.isNull = false) (hc : (d.set i .hole p).Shows k c) :
    d.Shows k c ∧ (c.1.atom = a.1.atom → k ≠ d.older i a.1.atom) := by
  obtain ⟨front, back, hsplit, hset, holder, hback⟩ := exists_halves hi .hole p
  have hhole : ¬ Entry.hole.atom = c.1.atom := by
    intro hatom
    rw [← hatom] at hnull
    cases hnull
  rw [Shows, named, hset, List.filter_append, List.filter_cons_of_neg (by simpa using hhole)] at hc
  rw [Shows, named, hsplit, List.filter_append, List.filter_cons, holder]
  by_cases hname : a.1.atom = c.1.atom
  · have hnone : back.filter (fun b => b.1.atom = c.1.atom) = [] := by
      refine List.filter_eq_nil_iff.mpr fun b hb => ?_
      obtain ⟨j, hj, hget⟩ := hback b hb
      simpa [← hname] using hlast j b hj hget
    rw [hnone, List.append_nil] at hc
    have hlt := (List.getElem?_eq_some_iff.mp hc).1
    rw [List.getElem?_append_left hlt, hname]
    exact ⟨hc, fun _ => Nat.ne_of_lt hlt⟩
  · rw [if_neg (by simpa using hname)]
    exact ⟨hc, fun hsame => absurd hsame.symm hname⟩

/-- Without its holes a record has the same columns for every atom, and none for the null atom. -/
theorem shows_squeeze (hc : d.squeeze.Shows k c) : d.Shows k c ∧ c.1.atom.isNull = false := by
  have hnull : c.1.atom.isNull = false := by
    simpa [squeeze] using List.of_mem_filter hc.mem
  rw [Shows, named, squeeze, List.filter_filter] at hc
  refine ⟨?_, hnull⟩
  rw [Shows, named, ← hc]
  congr 1
  refine List.filter_congr fun b _ => ?_
  by_cases hname : b.1.atom = c.1.atom
  · simp [hname, hnull]
  · simp [hname]

theorem shows_edit (hc : (d.edit i f).Shows k c) (hf : ∀ a, (f a).1.atom = a.1.atom) :
    d.Shows k c ∨ ∃ a, d.columns[i]? = some a ∧ c = f a ∧ k = d.older i a.1.atom := by
  cases ha : d.columns[i]? with
  | none =>
    have hlen := List.getElem?_eq_none_iff.mp ha
    rw [Shows, named, edit, List.modify_eq_self hlen] at hc
    exact .inl hc
  | some a =>
    rw [edit_eq_set ha] at hc
    obtain ⟨hc, -⟩ | ⟨hc, hk⟩ := shows_set ha (hf a) hc
    · exact .inl hc
    · exact .inr ⟨a, rfl, hc, by rw [hk, hf]⟩

theorem mem_edit (hc : c ∈ (d.edit i f).columns) :
    c ∈ d.columns ∨ ∃ a, d.columns[i]? = some a ∧ c = f a := by
  cases ha : d.columns[i]? with
  | none =>
    have hlen := List.getElem?_eq_none_iff.mp ha
    unfold edit at hc
    rw [List.modify_eq_self hlen] at hc
    exact .inl hc
  | some a =>
    rw [edit_eq_set ha] at hc
    exact (List.mem_or_eq_of_mem_set hc).imp_right fun heq => ⟨a, rfl, heq⟩

end Record

/-! ## What is stored -/

/-- How many older entries there are for an atom than the one a search of the object finds. -/
def Heap.rank? (h : Heap) (r : Handle) (atom : Atom) : Option Nat :=
  (h.shapeOf? r).bind fun t => (t.find? atom).map fun place => t.older place.1 atom

/-- The column `c` may be stored in object `r`, behind `k` older ones for its atom, by a call in heap `h`
that ends with an answer. -/
inductive Call.Stores (h : Heap) : Call → Reply → Handle → Nat → Entry × Property → Prop where
  | plain {reply : Reply} {k : Nat} (r : Handle) (atom : Atom) (flags : Flags) (v : Value) :
      Stores h (.defineProperty r atom flags v) reply r k (⟨atom, flags.withKind .plain⟩, .value v)
  | accessor {reply : Reply} {k : Nat} (r : Handle) (atom : Atom) (flags : Flags)
      (getter setter : Option Handle) :
      Stores h (.defineAccessor r atom flags getter setter) reply r k
        (⟨atom, flags.withKind .accessor⟩, .accessor getter setter)
  | captured {reply : Reply} {k : Nat} (r : Handle) (atom : Atom) (flags : Flags) (a : Handle) :
      Stores h (.defineCaptured r atom flags a) reply r k (⟨atom, flags.withKind .captured⟩, .captured a)
  /-- an assignment to a property that is not there -/
  | added {reply : Reply} {k : Nat} (r : Handle) (atom : Atom) (v : Value)
      (hfind : h.findOwn? r atom = none) :
      Stores h (.setProperty r atom v) reply r k (⟨atom, .ordinary⟩, .value v)
  /-- an assignment to a property that is there -/
  | assigned {reply : Reply} {r : Handle} {atom : Atom} {i : Nat} {flags : Flags} {d : Record}
      {p : Property} (v : Value) (hfind : h.findOwn? r atom = some (i, flags)) (hd : h.record? r = some d)
      (hi : d.columns[i]? = some (⟨atom, flags⟩, p)) (haccessor : flags.kind ≠ .accessor)
      (hcaptured : flags.kind ≠ .captured) :
      Stores h (.setProperty r atom v) reply r (d.older i atom) (⟨atom, flags⟩, .value v)
  | written {reply : Reply} {r : Handle} {i : Nat} {d : Record} {e : Entry} {old : Value} (v : Value)
      (hd : h.record? r = some d) (hi : d.columns[i]? = some (e, .value old)) :
      Stores h (.writeSlot r i v) reply r (d.older i e.atom) (e, .value v)
  | deleted {reply : Reply} {k : Nat} (r : Handle) (atom : Atom) :
      Stores h (.deleteProperty r atom) reply r k (.hole, .undefined)
  /-- a property its shape already has -/
  | laid {s : Handle} {t : Shape} {i : Nat} {e : Entry} (payload : Payload) (r : Handle)
      (ht : h.shape? s = some t) (he : t.entries[i]? = some e) :
      Stores h (.newObjectFromShape s payload) (.handle r) r (t.older i e.atom) (e, .undefined)
  | length {k : Nat} (ctx r : Handle) :
      Stores h (.newArray ctx) (.handle r) r k (⟨.length, AllocM.lengthFlags⟩, .value (.smi 0))
  | pushed {r : Handle} {i k : Nat} {flags : Flags} (v : Value) (n : Int32)
      (hfind : h.findOwn? r .length = some (i, flags)) (hk : h.rank? r .length = some k) :
      Stores h (.arrayPush r v) .done r k (⟨.length, flags⟩, .value (.smi n))

/-- The column `c` may be stored in object `r`, behind `k` older ones for its atom, by an operation in heap
`h` that ends with an answer.  A cache has a slot written or a property assigned. -/
def Operation.Stores (h : Heap) (reply : Reply) (r : Handle) (k : Nat) (c : Entry × Property) :
    Operation → Prop
  | call a => a.Stores h reply r k c
  | get _ _ _ => False
  | set cache q atom v => (Call.setProperty q atom v).Stores h reply r k c ∨
      ∃ i flags, (cache.lookup h atom q).1 = some ⟨i, none, flags⟩ ∧
        (Call.writeSlot q i v).Stores h reply r k c

/-- A call in heap `h` deletes property `atom` of object `r`, or defines it anew.  It is the property that
a search finds, behind `k` older ones. -/
inductive Call.Renews (h : Heap) : Call → Reply → Handle → Atom → Nat → Prop where
  | plain {r : Handle} {atom : Atom} {k : Nat} (flags : Flags) (v : Value) (hk : h.rank? r atom = some k) :
      Renews h (.defineProperty r atom flags v) (.flag true) r atom k
  | accessor {r : Handle} {atom : Atom} {k : Nat} (flags : Flags) (getter setter : Option Handle)
      (hk : h.rank? r atom = some k) :
      Renews h (.defineAccessor r atom flags getter setter) (.flag true) r atom k
  | captured {r : Handle} {atom : Atom} {k : Nat} (flags : Flags) (a : Handle)
      (hk : h.rank? r atom = some k) : Renews h (.defineCaptured r atom flags a) (.flag true) r atom k
  | deleted {r : Handle} {atom : Atom} {k : Nat} (hk : h.rank? r atom = some k) :
      Renews h (.deleteProperty r atom) (.flag true) r atom k

/-- The call is about deleting or defining a property. -/
def Call.isRenewal : Call → Bool
  | defineProperty .. | defineAccessor .. | defineCaptured .. | deleteProperty .. => true
  | _ => false

theorem Call.Renews.isRenewal {h : Heap} {call : Call} {reply : Reply} {r : Handle} {atom : Atom} {k : Nat}
    (e : call.Renews h reply r atom k) : call.isRenewal = true ∧ reply = .flag true := by
  cases e <;> exact ⟨rfl, rfl⟩

theorem Call.not_renews {call : Call} (hcall : call.isRenewal = false) (h : Heap) (reply : Reply) (r : Handle)
    (atom : Atom) (k : Nat) : ¬ call.Renews h reply r atom k := fun e => by
  cases hcall.symm.trans e.isRenewal.1

theorem Call.not_renews_exhausted (call : Call) (h : Heap) (err : OutOfMemory) (r : Handle) (atom : Atom)
    (k : Nat) : ¬ call.Renews h (.exhausted err) r atom k := fun e => by
  cases e.isRenewal.2

/-- An operation deletes a property or defines it anew.  Caches do neither. -/
def Operation.Renews (h : Heap) (reply : Reply) (r : Handle) (atom : Atom) (k : Nat) : Operation → Prop
  | call a => a.Renews h reply r atom k
  | get .. | set .. => False

/-- An object that fits its shape has as many columns for an atom before an index as the shape has entries. -/
theorem Object.older_record {o : Object} {t : Shape} (hfits : t.entries.size = o.properties.size) (i : Nat)
    (atom : Atom) : (o.record t).older i atom = t.older i atom := by
  have hfst : (o.record t).columns.map (·.1) = t.entries.toList := List.map_fst_zip (by simp [hfits])
  rw [Record.older, Shape.older, ← hfst, ← List.map_take, List.countP_map]
  rfl

namespace Heap

variable {x y : Ledger} {h h₁ h' : Heap} {r : Handle} {d : Record} {call : Call} {reply : Reply}
  {S : Handle → Nat → Entry × Property → Prop} {gone : Handle → Atom → Nat → Prop} {atom : Atom} {i : Nat}
  {flags : Flags}

/-! ## The place of a property -/

theorem rank?_of_findOwn?_none (hfind : h.findOwn? r atom = none) : h.rank? r atom = none := by
  unfold rank? shapeOf?
  unfold findOwn? findProperty? at hfind
  cases ho : h.object? r with
  | none => rfl
  | some o =>
    rw [ho, Option.bind_some] at hfind
    cases ht : h.shape? o.shape with
    | none => simp [ht]
    | some t =>
      rw [ht, Option.bind_some] at hfind
      simp [ht, hfind]

/-- What a search finds is behind the older columns, and no column behind it is for the atom. -/
theorem Valid.rank?_of_findOwn? (hv : h.Valid x) (hd : h.record? r = some d)
    (hfind : h.findOwn? r atom = some (i, flags)) : h.rank? r atom = some (d.older i atom) ∧
      ∀ (j : Nat) b, i < j → d.columns[j]? = some b → b.1.atom ≠ atom := by
  obtain ⟨o, ho, hd⟩ := Option.bind_eq_some_iff.mp hd
  obtain ⟨t, ht, rfl⟩ := Option.map_eq_some_iff.mp hd
  have hfind : t.find? atom = some (i, flags) := by
    simpa [findOwn?, findProperty?, ho, ht] using hfind
  have hw := (hv.laid.shapes _ t (shape?_iff_body?.mp ht)).wired
  refine ⟨?_, fun j b hj hb => ?_⟩
  · have hfits := hv.laid.fits r o t (object?_iff_body?.mp ho) (shape?_iff_body?.mp ht)
    rw [Object.older_record hfits, rank?, shapeOf?, ho, Option.bind_some, ht, Option.bind_some, hfind]
    rfl
  · rw [Object.record, List.getElem?_zip_eq_some, Array.getElem?_toList] at hb
    exact ((hw.find?_eq_some_iff (Shape.isNull_of_find? hfind)).mp hfind).2 j b.1 hj hb.1

/-! ## What is seen after -/

/-- What is seen of objects after was seen before and has not gone, or `S` has it; a realm that was not seen
before has the layout for arrays that all have. -/
structure Fills (S : Handle → Nat → Entry × Property → Prop) (gone : Handle → Atom → Nat → Prop)
    (h h' : Heap) : Prop where
  columns : ∀ r d', h'.record? r = some d' → ∀ k c, d'.Shows k c →
    (∃ d, h.record? r = some d ∧ d.Leaves (gone r) k c) ∨ S r k c
  realms : ∀ r a proto entries, h'.drawing? r = some (.realm a proto entries) →
    h.drawing? r = some (.realm a proto entries) ∨ entries = #[⟨.length, AllocM.lengthFlags⟩]

/-- Every realm makes arrays that have a length and no other property. -/
def Uniform (h : Heap) : Prop :=
  ∀ r a proto entries, h.drawing? r = some (.realm a proto entries) →
    entries = #[⟨.length, AllocM.lengthFlags⟩]

theorem uniform_new (config : Config) : (new config).Uniform := by
  intro r a proto entries hv
  cases (drawing?_new config r).symm.trans hv

theorem Fills.uniform (e : Fills S gone h h') (hu : h.Uniform) : h'.Uniform := by
  intro r a proto entries hv
  rcases e.realms r a proto entries hv with hv | hentries
  · exact hu r a proto entries hv
  · exact hentries

theorem Fills.mono {T : Handle → Nat → Entry × Property → Prop} {lost : Handle → Atom → Nat → Prop}
    (e : Fills S gone h h') (hST : ∀ r k c, S r k c → T r k c)
    (hlost : ∀ r atom k, lost r atom k → gone r atom k) : Fills T lost h h' := by
  refine ⟨fun r d' hd' k c hc => ?_, e.realms⟩
  obtain ⟨d, hd, hmem, hleft⟩ | hS := e.columns r d' hd' k c hc
  · refine .inl ⟨d, hd, hmem, fun hnull => ?_⟩
    obtain ⟨hc, hstays⟩ := hleft hnull
    exact ⟨hc, fun hl => hstays (hlost r c.1.atom k hl)⟩
  · exact .inr (hST r k c hS)

theorem Grows.fills (e : Grows h h') (hgone : ∀ r atom k, ¬ gone r atom k) : Fills S gone h h' := by
  refine ⟨fun r d' hd' k c hc => ?_, fun r a proto entries hv => ?_⟩
  · rcases e r _ (record?_eq_some_iff.mp hd') with hv | hbare
    · exact .inl ⟨d', record?_eq_some_iff.mpr hv, hc.leaves (hgone r _)⟩
    · have hbare : d'.columns = [] := hbare
      have hmem := hc.mem
      rw [hbare] at hmem
      cases hmem
  · exact (e r _ hv).imp_right (·.2)

theorem Alters.fills {f : Record → Record} (e : Alters r f h h')
    (hgone : ∀ q atom k, gone q atom k → q = r)
    (hf : ∀ d, h.record? r = some d → ∀ k c, (f d).Shows k c → d.Leaves (gone r) k c ∨ S r k c) :
    Fills S gone h h' := by
  refine ⟨fun q d' hd' k c hc => ?_, fun q a proto entries hv => ?_⟩
  · by_cases hq : q = r
    · subst hq
      obtain ⟨d, hd, rfl⟩ := e.record hd'
      exact (hf d hd k c hc).imp_left fun hc => ⟨d, hd, hc⟩
    · have hd := e.others q _ (by simpa using hq) (record?_eq_some_iff.mp hd')
      exact .inl ⟨d', record?_eq_some_iff.mpr hd, hc.leaves fun k hg => hq (hgone q _ k hg)⟩
  · refine .inl (e.others q _ ?_ hv)
    intro hq
    rw [List.mem_singleton.mp hq] at hv
    obtain ⟨_, _, he⟩ := e.here _ hv
    cases he

theorem Performs.fills {op : Record → Bool × Record} {done : Bool} (e : Performs x r op done h h')
    (hgone : ∀ q atom k, gone q atom k → q = r)
    (hop : ∀ d, h.record? r = some d → (op d).1 = done → ∀ k c, (op d).2.Shows k c →
      d.Leaves (gone r) k c ∨ S r k c) : Fills S gone h h' := by
  obtain ⟨f, halters, hf⟩ := e.effect
  obtain ⟨d₀, hd₀, hdone⟩ := e.answer
  refine halters.fills hgone fun d hd k c hc => ?_
  obtain rfl : d = d₀ := Option.some.inj (hd.symm.trans hd₀)
  rcases hf d hd with heq | heq
  · exact hop d hd hdone k c (heq ▸ hc)
  · exact hop d hd hdone k c (Record.shows_squeeze (heq ▸ hc)).1

theorem Introduces.fills (e : Introduces x r d h h') (hgone : ∀ r atom k, ¬ gone r atom k)
    (hd : ∀ k c, d.Shows k c → S r k c) : Fills S gone h h' := by
  refine ⟨fun q d' hd' k c hc => ?_, fun q a proto entries hv => ?_⟩
  · by_cases hq : q = r
    · subst hq
      cases e.seen.symm.trans hd'
      exact .inr (hd k c hc)
    · have hd := e.apart q _ (by simpa using hq) (record?_eq_some_iff.mp hd')
      exact .inl ⟨d', record?_eq_some_iff.mpr hd, hc.leaves (hgone q _)⟩
  · refine .inl (e.apart q _ ?_ hv)
    intro hq
    rw [List.mem_singleton.mp hq] at hv
    cases hv.symm.trans (record?_eq_some_iff.mp e.seen)

theorem Founds.fills {a : Realm} (e : Founds x r a h h') (hgone : ∀ r atom k, ¬ gone r atom k) :
    Fills S gone h h' := by
  have hback : ∀ q v, h'.drawing? q = some v → h.drawing? q = some v ∨ v.Bare := by
    intro q v hv
    by_cases hq : q ∈ r :: a.intrinsics.map (·.1)
    · rcases List.mem_cons.mp hq with rfl | hq
      · cases e.layout.symm.trans hv
        exact .inr ⟨rfl, rfl⟩
      · obtain ⟨p, hp, rfl⟩ := List.mem_map.mp hq
        cases (record?_eq_some_iff.mp (e.seen p hp)).symm.trans hv
        exact .inr rfl
    · exact .inl (e.apart q v hq hv)
  exact Grows.fills hback hgone

/-! ## One call -/

/-- A call that may run out of memory, given how what it attempts ends. -/
theorem Fills.of_attempt {α : Type} {act : AllocM α} {f : α → Reply}
    (hact : ∀ res h₁, act.run h = .ok (res, h₁) →
      (∃ a, res = .ok a ∧ Fills (call.Stores h (f a)) (call.Renews h (f a)) h h₁) ∨
        (∃ err, res = .error err) ∧ Grows h h₁)
    (e : Call.attempt act f h = .ok (reply, h')) : Fills (call.Stores h reply) (call.Renews h reply) h h' := by
  rcases Call.attempt_eq_ok e with ⟨a, hrun, rfl⟩ | ⟨err, hrun, rfl⟩
  · rcases hact _ _ hrun with ⟨_, hres, hfills⟩ | ⟨⟨_, hres⟩, _⟩
    · cases hres
      exact hfills
    · cases hres
  · rcases hact _ _ hrun with ⟨_, hres, _⟩ | ⟨_, hgrows⟩
    · cases hres
    · exact hgrows.fills (call.not_renews_exhausted h err)

/-- An object made of a shape has the columns of the shape, all undefined. -/
theorem Valid.fills_of_newObjectFromShape {s : Handle} {payload : Payload} {res : Except OutOfMemory Handle}
    (hv : h.Valid (x.plus (s :: payload.refs))) (hnames : h.Names payload.typedRefs)
    (e : (AllocM.newObjectFromShape s payload).run h = .ok (res, h')) :
    (∃ r, res = .ok r ∧ Fills ((Call.newObjectFromShape s payload).Stores h (.handle r))
        ((Call.newObjectFromShape s payload).Renews h (.handle r)) h h') ∨
      (∃ err, res = .error err) ∧ Grows h h' := by
  rcases Valid.of_newObjectFromShape payload hv hnames e with ⟨r, t, capacity, hres, ht, hadds⟩ | ⟨herr, hl⟩
  · have hint := hadds.introduces (.refl [] h) (.refl _ h) (.refl h)
      (AllocM.tracks_newObjectFromShape _ _ _ _ _ e)
      (by omega) ht
    refine .inl ⟨r, hres, hint.fills (Call.not_renews rfl h (.handle r)) fun k c hc => ?_⟩
    obtain ⟨entry, p⟩ := c
    obtain ⟨i, hi, rfl⟩ := hc.exists_index
    rw [Object.older_record (by simp)]
    rw [Object.record, List.getElem?_zip_eq_some, Array.getElem?_toList, Array.getElem?_toList] at hi
    have hentry : t.entries[i]? = some entry := hi.1
    obtain ⟨-, rfl⟩ : _ ∧ .undefined = p := by
      simpa [Array.getElem?_replicate] using hi.2
    exact .laid payload r (shape?_iff_body?.mpr ht) hentry
  · exact .inr ⟨herr, hl.apart.grows⟩

/-- A defined property is stored, in the place of the one that was found or behind the others. -/
theorem Performs.fills_of_define {p : Property} {done : Bool}
    (e : Performs x r (·.define (h.findOwn? r atom) atom flags p) done h h') (hv : h.Valid y)
    (hrank : ∀ q atom' k, gone q atom' k → q = r ∧ atom' = atom ∧ h.rank? r atom = some k)
    (hS : ∀ k, S r k (⟨atom, flags⟩, p)) : Fills S gone h h' := by
  refine e.fills (fun _ _ _ hgone => (hrank _ _ _ hgone).1) fun d hd _ k c hc => ?_
  cases hfind : h.findOwn? r atom with
  | none =>
    have hstays : ∀ k, ¬ gone r c.1.atom k := by
      intro k hgone
      obtain ⟨-, -, hk⟩ := hrank _ _ _ hgone
      rw [rank?_of_findOwn?_none hfind] at hk
      cases hk
    rw [hfind] at hc
    unfold Record.define at hc
    dsimp only at hc
    split at hc
    · obtain hc | rfl := Record.shows_append hc
      · exact .inl (hc.leaves hstays)
      · exact .inr (hS k)
    · exact .inl (hc.leaves hstays)
  | some place =>
    obtain ⟨i, old⟩ := place
    obtain ⟨q, hi⟩ := hv.located hd hfind
    rw [hfind] at hc
    obtain ⟨hc, hne⟩ | ⟨rfl, -⟩ := Record.shows_set (e := ⟨atom, flags⟩) (p := p) hi rfl hc
    · refine .inl ⟨hc.mem, fun _ => ⟨hc, fun hgone => ?_⟩⟩
      obtain ⟨-, hatom, hk⟩ := hrank _ _ _ hgone
      rw [(hv.rank?_of_findOwn? hd hfind).1] at hk
      exact hne hatom (Option.some.inj hk).symm
    · exact .inr (hS k)

/-- A deletion takes the property that is found. -/
theorem Performs.fills_of_delete {done : Bool}
    (e : Performs x r (·.delete (h.findOwn? r atom)) done h h') (hv : h.Valid y)
    (hrank : ∀ q atom' k, gone q atom' k → q = r ∧ atom' = atom ∧ done = true ∧ h.rank? r atom = some k)
    (hS : ∀ k, S r k (.hole, .undefined)) : Fills S gone h h' := by
  refine e.fills (fun _ _ _ hgone => (hrank _ _ _ hgone).1) fun d hd hdone k c hc => ?_
  cases hfind : h.findOwn? r atom with
  | none =>
    rw [hfind] at hc
    refine .inl (hc.leaves fun k hgone => ?_)
    obtain ⟨-, -, -, hk⟩ := hrank _ _ _ hgone
    rw [rank?_of_findOwn?_none hfind] at hk
    cases hk
  | some place =>
    obtain ⟨i, old⟩ := place
    obtain ⟨q, hi⟩ := hv.located hd hfind
    obtain ⟨hk, hlast⟩ := hv.rank?_of_findOwn? hd hfind
    rw [hfind] at hc hdone
    unfold Record.delete at hc hdone
    dsimp only at hc hdone
    split at hc
    · rename_i hopen
      obtain hmem | rfl := List.mem_or_eq_of_mem_set hc.mem
      · refine .inl ⟨hmem, fun hnull => ?_⟩
        obtain ⟨hc, hne⟩ := Record.shows_set_hole hi hlast hnull hc
        refine ⟨hc, fun hgone => ?_⟩
        obtain ⟨-, hatom, -, hk'⟩ := hrank _ _ _ hgone
        exact hne hatom (Option.some.inj (hk'.symm.trans hk))
      · exact .inr (hS k)
    · rename_i hclosed
      rw [if_neg hclosed] at hdone
      refine .inl (hc.leaves fun k hgone => ?_)
      rw [(hrank _ _ _ hgone).2.2.1] at hdone
      cases hdone

/-- An assigned property is stored if it is plain or new. -/
theorem Valid.fills_of_setProperty {v : Value} {res : Except OutOfMemory Bool}
    (hv : h.Valid (x.plus v.ref?.toList)) (hnames : h.Names v.typedRef?.toList)
    (e : (AllocM.setProperty r atom v).run h = .ok (res, h')) (hgone : ∀ q atom k, ¬ gone q atom k) :
    Fills ((Call.setProperty r atom v).Stores h reply) gone h h' := by
  rcases Valid.of_assign hv hnames e with ⟨done, _, hdone, _⟩ | ⟨_, hl⟩
  · refine hdone.fills (fun q atom k hg => absurd hg (hgone q atom k)) fun d hd _ k c hc => ?_
    cases hfind : h.findOwn? r atom with
    | none =>
      rw [hfind] at hc
      unfold Record.assign Record.define at hc
      dsimp only at hc
      split at hc
      · obtain hc | rfl := Record.shows_append hc
        · exact .inl (hc.leaves (hgone r _))
        · exact .inr (.added r atom v hfind)
      · exact .inl (hc.leaves (hgone r _))
    | some place =>
      obtain ⟨i, flags⟩ := place
      obtain ⟨p, hi⟩ := hv.located hd hfind
      rw [hfind] at hc
      unfold Record.assign at hc
      dsimp only at hc
      split at hc
      · exact .inl (hc.leaves (hgone r _))
      · rename_i hopen
        split at hc
        · exact .inl (hc.leaves (hgone r _))
        · rename_i hcaptured
          simp only [Bool.or_eq_true, beq_iff_eq, not_or] at hopen hcaptured
          obtain ⟨hc, -⟩ | ⟨rfl, rfl⟩ := Record.shows_set hi rfl hc
          · exact .inl (hc.leaves (hgone r _))
          · exact .inr (.assigned v hfind hd hi hopen.2 hcaptured)
  · exact hl.apart.grows.fills hgone

theorem Valid.fills_of_writeSlot {v : Value} {u : Unit} (hv : h.Valid (x.plus v.ref?.toList))
    (hnames : h.Names v.typedRef?.toList) (e : HeapM.writeSlot r i v h = .ok (u, h'))
    (hgone : ∀ q atom k, ¬ gone q atom k) : Fills ((Call.writeSlot r i v).Stores h reply) gone h h' := by
  have halters := (Valid.of_writeSlot hv hnames e).2.2
  refine halters.fills (fun q atom k hg => absurd hg (hgone q atom k)) fun d hd k c hc => ?_
  obtain hc | ⟨⟨entry, p⟩, hi, rfl, rfl⟩ := Record.shows_edit hc fun _ => rfl
  · exact .inl (hc.leaves (hgone r _))
  · obtain ⟨old, hold⟩ := plain_of_writeSlot e hd hi
    cases hold
    exact .inr (.written v hd hi)

/-- A property that is defined takes the place of the newest one for its atom, and a deletion takes that
one away. -/
theorem Valid.fills_of_renewal (call : Call) (hrenewal : call.isRenewal = true)
    (hv : h.Valid (x.plus call.consumed)) (hn : h.Names call.named) (e : call.perform h = .ok (reply, h')) :
    Fills (call.Stores h reply) (call.Renews h reply) h h' := by
  cases call with
  | defineProperty r atom flags v =>
    rcases Performs.of_attempt (fun _ _ => Valid.of_defineOwn (p := .value v) hv hn) e with
      ⟨done, rfl, hdone⟩ | ⟨⟨err, rfl⟩, hl⟩
    · exact hdone.fills_of_define hv (fun _ _ _ hr => by cases hr; exact ⟨rfl, rfl, ‹_›⟩)
        fun _ => .plain r atom flags v
    · exact hl.apart.grows.fills (Call.not_renews_exhausted _ h err)
  | defineAccessor r atom flags getter setter =>
    have hv : h.Valid x := hv
    rcases Performs.of_attempt (fun _ _ => hv.of_defineAccessor hn) e with
      ⟨done, rfl, hdone⟩ | ⟨⟨err, rfl⟩, hl⟩
    · exact hdone.fills_of_define hv (fun _ _ _ hr => by cases hr; exact ⟨rfl, rfl, ‹_›⟩)
        fun _ => .accessor r atom flags getter setter
    · exact hl.apart.grows.fills (Call.not_renews_exhausted _ h err)
  | defineCaptured r atom flags a =>
    rcases Performs.of_attempt (fun _ _ => Valid.of_defineOwn (p := .captured a) hv hn) e with
      ⟨done, rfl, hdone⟩ | ⟨⟨err, rfl⟩, hl⟩
    · exact hdone.fills_of_define hv (fun _ _ _ hr => by cases hr; exact ⟨rfl, rfl, ‹_›⟩)
        fun _ => .captured r atom flags a
    · exact hl.apart.grows.fills (Call.not_renews_exhausted _ h err)
  | deleteProperty r atom =>
    have hv : h.Valid x := hv
    refine Fills.of_attempt (fun res h₁ hrun => ?_) e
    cases ho : h.object? r with
    | none =>
      have hfind : h.findOwn? r atom = none := by simp [findOwn?, ho]
      obtain ⟨rfl, rfl⟩ := deleteProperty_of_absent hfind hrun
      refine .inl ⟨true, rfl, (Apart.refl [] _).grows.fills fun _ _ _ hr => ?_⟩
      cases hr with
      | deleted hk => cases (rank?_of_findOwn?_none hfind).symm.trans hk
    | some o =>
      rcases hv.of_deleteProperty (object?_iff_body?.mp ho) hrun with ⟨done, hres, hdone⟩ | ⟨herr, hl⟩
      · exact .inl ⟨done, hres, hdone.fills_of_delete hv
          (fun _ _ _ hr => by cases hr; exact ⟨rfl, rfl, rfl, ‹_›⟩) fun _ => .deleted r atom⟩
      · exact .inr ⟨herr, hl.apart.grows⟩
  | _ => cases hrenewal

/-- The columns that are there after a call were there before, or the call may have stored them. -/
theorem Valid.fills_of_call (call : Call) (hv : h.Valid (x.plus call.consumed)) (hu : h.Uniform)
    (hn : h.Names call.named) (e : call.perform h = .ok (reply, h')) :
    Fills (call.Stores h reply) (call.Renews h reply) h h' := by
  by_cases hrenewal : call.isRenewal = true
  · exact Valid.fills_of_renewal call hrenewal hv hn e
  have hgone := Call.not_renews (Bool.eq_false_of_not_eq_true hrenewal) h
  have hnone : ∀ reply r q atom k, call.Renews h reply q atom k → q = r :=
    fun reply r q atom k hr => absurd hr (hgone reply q atom k)
  by_cases hmute : call.isMute = true
  · exact (Valid.passes_of_call call hmute hv hn e).apart.grows.fills (hgone _)
  cases call with
  | prepareUpdate shape =>
    refine Fills.of_attempt (fun res h₁ hrun => ?_) e
    rcases Valid.of_prepareUpdate hv hrun with ⟨new, _, hres, hl⟩ | ⟨herr, hl⟩
    · exact .inl ⟨new, hres, hl.apart.grows.fills (hgone _)⟩
    · exact .inr ⟨herr, hl.apart.grows⟩
  | newObject proto =>
    refine Fills.of_attempt (fun res h₁ hrun => ?_) e
    have hv : h.Valid x := hv
    rcases hv.of_newObject hn hrun with ⟨r, hres, hi⟩ | ⟨herr, hl⟩
    · exact .inl ⟨r, hres, hi.fills (hgone _) fun _ _ hc => by cases hc.mem⟩
    · exact .inr ⟨herr, hl.apart.grows⟩
  | newObjectFromShape shape payload =>
    exact Fills.of_attempt (fun _ _ => Valid.fills_of_newObjectFromShape hv hn) e
  | writeSlot r offset v =>
    obtain ⟨_, e₁, rfl⟩ := Call.answer_eq_ok e
    exact Valid.fills_of_writeSlot hv hn e₁ (hgone _)
  | setProperty r atom v =>
    rcases Call.attempt_eq_ok e with ⟨_, hrun, rfl⟩ | ⟨_, hrun, rfl⟩
    · exact Valid.fills_of_setProperty hv hn hrun (hgone _)
    · exact Valid.fills_of_setProperty hv hn hrun (hgone _)
  | compactProperties r =>
    have hv : h.Valid x := hv
    refine Fills.of_attempt (fun res h₁ hrun => ?_) e
    rcases hv.of_compactProperties hrun with ⟨hres, _, _, _, halters⟩ | ⟨herr, hl, _⟩
    · exact .inl ⟨(), hres, halters.fills (hnone _ r) fun _ _ _ _ hc =>
        .inl ((Record.shows_squeeze hc).1.leaves (hgone _ r _))⟩
    · exact .inr ⟨herr, hl.apart.grows⟩
  | setPrototype r proto =>
    have hv : h.Valid x := hv
    rcases Performs.of_attempt (fun _ _ => hv.of_setPrototype hn) e with
      ⟨done, rfl, hdone⟩ | ⟨⟨err, rfl⟩, hl⟩
    · refine hdone.fills (hnone _ r) fun d _ _ k c hc => .inl ?_
      unfold Record.reparent at hc
      split at hc
      · exact hc.leaves (hgone _ r _)
      · exact Record.Shows.leaves (d := d) hc (hgone _ r _)
    · exact hl.apart.grows.fills (hgone _)
  | preventExtensions r =>
    have hv : h.Valid x := hv
    obtain ⟨_, e₁, rfl⟩ := Call.answer_eq_ok e
    exact (hv.of_preventExtensions e₁).2.fills (hnone _ r) fun d _ _ _ hc =>
      .inl (Record.Shows.leaves (d := d) hc (hgone _ r _))
  | newArray ctx =>
    have hv : h.Valid x := hv
    refine Fills.of_attempt (fun res h₁ hrun => ?_) e
    rcases hv.of_newArray hrun with ⟨r, a, proto, entries, d, hres, hctx, hi, hd⟩ | ⟨herr, hl⟩
    · refine .inl ⟨r, hres, hi.fills (hgone _) fun k c hc => ?_⟩
      have hmem := hc.mem
      rw [hd (hu ctx a proto entries hctx), List.mem_singleton] at hmem
      rw [hmem]
      exact .length ctx r
    · exact .inr ⟨herr, hl.apart.grows⟩
  | arrayPush r v =>
    refine Fills.of_attempt (fun res h₁ hrun => ?_) e
    rcases Valid.of_arrayPush hv hn hrun with ⟨⟨u, hres⟩, k, _, _, halters⟩ | ⟨herr, hl⟩
    · refine .inl ⟨u, hres, halters.fills (hnone _ r) fun d hd k c hc => ?_⟩
      unfold writeLength at hc
      cases hfind : h.findOwn? r .length with
      | none =>
        rw [hfind] at hc
        exact .inl (Record.Shows.leaves (d := d) hc (hgone _ r _))
      | some place =>
        obtain ⟨i, flags⟩ := place
        obtain ⟨p, hi⟩ := hv.located hd hfind
        rw [hfind] at hc
        obtain hc | ⟨a, ha, rfl, rfl⟩ := Record.shows_edit hc fun _ => rfl
        · exact .inl (hc.leaves (hgone _ r _))
        · cases hi.symm.trans ha
          exact .inr (.pushed v _ hfind (hv.rank?_of_findOwn? hd hfind).1)
    · exact .inr ⟨herr, hl.apart.grows⟩
  | newClosure proto bytecode captured home =>
    obtain ⟨hproto, hnames⟩ := Names.append_iff.mp hn
    refine Fills.of_attempt (fun res h₁ hrun => ?_) e
    rcases Valid.of_newClosure hv hproto hnames hrun with ⟨r, hres, hi⟩ | ⟨herr, hl⟩
    · exact .inl ⟨r, hres, hi.fills (hgone _) fun _ _ hc => by cases hc.mem⟩
    · exact .inr ⟨herr, hl.apart.grows⟩
  | newRealm =>
    have hv : h.Valid x := hv
    refine Fills.of_attempt (fun res h₁ hrun => ?_) e
    rcases hv.of_newRealm hrun with ⟨r, _, hres, hf⟩ | ⟨herr, hl⟩
    · exact .inl ⟨r, hres, hf.fills (hgone _)⟩
    · exact .inr ⟨herr, hl.grows⟩
  | defineProperty | defineAccessor | defineCaptured | deleteProperty => exact absurd rfl hrenewal
  | _ => exact absurd rfl hmute

/-- The columns that are there after an operation were there before, or it may have stored them. -/
theorem Valid.fills_of_operation (op : Operation) (hv : h.Valid (x.plus op.consumed)) (hu : h.Uniform)
    (hn : h.Names op.named) (e : op.perform h = .ok (reply, h')) :
    Fills (fun r k c => op.Stores h reply r k c) (fun r atom k => op.Renews h reply r atom k) h h' := by
  cases op with
  | call c => exact Valid.fills_of_call c hv hu hn e
  | get cache r atom =>
    obtain ⟨v, cache', e₁, rfl⟩ := Operation.get_eq_ok e
    have hv : h.Valid x := hv
    exact (hv.of_getCached e₁).apart.grows.fills fun _ _ _ => id
  | set cache r atom v =>
    obtain ⟨res, cache', e₁, _⟩ := Operation.set_eq_ok e
    rcases setCached_eq_ok e₁ with hset | ⟨i, flags, u, hhit, hwrite, _⟩
    · exact (Valid.fills_of_setProperty hv hn hset fun _ _ _ => id).mono (fun _ _ _ hc => .inl hc)
        fun _ _ _ hr => hr
    · exact (Valid.fills_of_writeSlot hv hn hwrite fun _ _ _ => id).mono
        (fun _ _ _ hc => .inr ⟨i, flags, hhit, hc⟩)
        fun _ _ _ hr => hr

/-- All columns of all objects have a property. -/
def AllColumns (P : Handle → Nat → Entry × Property → Prop) (h : Heap) : Prop :=
  ∀ r d, h.record? r = some d → ∀ k c, d.Shows k c → P r k c

theorem contains_of_record? (hd : h.record? r = some d) : h.contains r = true := by
  obtain ⟨o, ho, _⟩ := Option.bind_eq_some_iff.mp hd
  exact contains_of_body? (object?_iff_body?.mp ho)

/-- What stands opposite an entry is a column. -/
theorem column_of_slot {o : Object} {t : Shape} {e : Entry} {p : Property} (ho : h.object? r = some o)
    (ht : h.shape? o.shape = some t) (he : t.entries[i]? = some e) (hp : o.properties[i]? = some p) :
    h.record? r = some (o.record t) ∧ (o.record t).columns[i]? = some (e, p) := by
  refine ⟨by simp [record?, ho, ht], ?_⟩
  rw [Object.record, List.getElem?_zip_eq_some]
  exact ⟨by rw [Array.getElem?_toList]; exact he, by rw [Array.getElem?_toList]; exact hp⟩

/-- What holds of all columns holds of what stands opposite an entry. -/
theorem AllColumns.of_slot {P : Handle → Nat → Entry × Property → Prop} {o : Object} {t : Shape} {e : Entry}
    {p : Property} (hs : h.AllColumns P) (ho : h.object? r = some o) (ht : h.shape? o.shape = some t)
    (hfits : t.entries.size = o.properties.size) (he : t.entries[i]? = some e)
    (hp : o.properties[i]? = some p) : P r (t.older i e.atom) (e, p) := by
  obtain ⟨hd, hi⟩ := column_of_slot ho ht he hp
  have hshows := Record.shows_of_index hi
  rw [Object.older_record hfits] at hshows
  exact hs r _ hd _ _ hshows

end Heap

/-! ## Runs -/

namespace Client

variable {γ : Type} {asks : Heap → Operation → Prop} {note : Heap → Operation → Reply → Heap → γ → γ}
  {first g : γ} {config : Config} {h : Heap} {x : Ledger} {P : γ → Handle → Nat → Entry × Property → Prop}

/-- What holds of every column that is stored holds of every column there is, if what is noted leaves it
to those that stay: a column with a name stays where it is. -/
theorem Noted.columns
    (hkeep : ∀ {h h' : Heap} {g : γ} {op : Operation} {reply : Reply} {r : Handle} {k : Nat}
      {c : Entry × Property}, h.contains r = true →
      (∃ j, P g r j c ∧ (c.1.atom.isNull = false → j = k ∧ ¬ op.Renews h reply r c.1.atom k)) →
      P (note h op reply h' g) r k c)
    (hstore : ∀ {h h' : Heap} {g : γ} {op : Operation} {reply : Reply} {r : Handle} {k : Nat}
      {c : Entry × Property}, asks h op → h.AllColumns (P g) → op.Stores h reply r k c →
      P (note h op reply h' g) r k c)
    (hr : Noted asks note first config h x g) : h.AllColumns (P g) := by
  refine (Noted.invariant (P := fun h g => h.Uniform ∧ h.AllColumns (P g)) ?_ ?_ hr).2
  · refine ⟨Heap.uniform_new config, fun r d hd => ?_⟩
    cases (Heap.drawing?_new config r).symm.trans (Heap.record?_eq_some_iff.mp hd)
  · rintro h h' y g reply op hv hn ha e ⟨hu, hcolumns⟩
    have hfills := Heap.Valid.fills_of_operation op hv hu hn e
    refine ⟨hfills.uniform hu, fun r d' hd' k c hc => ?_⟩
    rcases hfills.columns r d' hd' k c hc with ⟨d, hd, hmem, hleft⟩ | hstored
    · refine hkeep (Heap.contains_of_record? hd) ?_
      cases hnull : c.1.atom.isNull with
      | true =>
        obtain ⟨j, hj⟩ := Record.exists_shows hmem
        exact ⟨j, hcolumns r d hd j c hj, fun hfalse => by cases hfalse⟩
      | false => exact ⟨k, hcolumns r d hd k c (hleft hnull).1, fun _ => ⟨rfl, (hleft hnull).2⟩⟩
    · exact hstore ha hcolumns hstored

end Client

end ObjectMemory
