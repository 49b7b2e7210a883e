import ObjectMemory.Object
import ObjectMemory.Shape
set_option autoImplicit false

/-!
# Property maps

What an object is to those who use it: a prototype, whether it takes new properties, and its properties
in the order they were added.  `PropertyMap` is that view, and its operations say what defining,
assigning and deleting a property come to, with no word about layouts.

A `Record` is the same object with the entries of its layout beside the properties, holes included.  Its
operations work at the index where a layout found a property (`Record.Locates`).  The main results are
that each of them is the operation on the map (`Record.toMap_define`, `Record.toMap_assign`,
`Record.toMap_delete`).
-/

namespace ObjectMemory

/-- One property of an object: its name, its flags and what is stored. -/
structure Member where
  atom : Atom
  flags : Flags
  property : Property
  deriving DecidableEq, Repr, Inhabited

/-- An object as an ordered map. -/
structure PropertyMap where
  proto : Option Handle
  /-- new properties may be added -/
  extensible : Bool
  members : List Member
  deriving DecidableEq, Repr, Inhabited

namespace PropertyMap

variable {m : PropertyMap} {atom : Atom} {flags : Flags} {p : Property} {v : Value} {e : Member}

/-- The map of a new object. -/
def empty (proto : Option Handle) : PropertyMap := ⟨proto, true, []⟩

/-- The property of a name. -/
def find? (m : PropertyMap) (atom : Atom) : Option Member := m.members.find? fun e => e.atom = atom

/-- The map with other flags and another stored property under a name it has. -/
def put (m : PropertyMap) (atom : Atom) (flags : Flags) (p : Property) : PropertyMap :=
  { m with members := m.members.map fun e => if e.atom = atom then ⟨atom, flags, p⟩ else e }

/-- Defines a property: in its place if the map has it, else at the end.  Refused if it would be new and
the map is not extensible. -/
def define (m : PropertyMap) (atom : Atom) (flags : Flags) (p : Property) : Bool × PropertyMap :=
  if (m.find? atom).isSome then (true, m.put atom flags p)
  else if m.extensible then (true, { m with members := m.members ++ [⟨atom, flags, p⟩] })
  else (false, m)

/-- Assigns to a property.  A new one is defined with the ordinary flags; a read-only property and an
accessor refuse; what stands for a variable leaves the map as it is. -/
def assign (m : PropertyMap) (atom : Atom) (v : Value) : Bool × PropertyMap :=
  match m.find? atom with
  | none => m.define atom .ordinary (.value v)
  | some e =>
    if !e.flags.contains .writable || e.flags.kind == .accessor then (false, m)
    else if e.flags.kind == .captured then (true, m)
    else (true, m.put atom e.flags (.value v))

/-- Deletes a property.  Refused for one that is not configurable. -/
def delete (m : PropertyMap) (atom : Atom) : Bool × PropertyMap :=
  match m.find? atom with
  | none => (true, m)
  | some e =>
    if e.flags.contains .configurable then
      (true, { m with members := m.members.filter fun e => e.atom ≠ atom })
    else (false, m)

/-- Gives a map another prototype.  Refused if that would close a cycle. -/
def reparent (m : PropertyMap) (isCycle : Bool) (proto : Option Handle) : Bool × PropertyMap :=
  if isCycle then (false, m) else (true, { m with proto := proto })

/-- No name is there twice. -/
def Distinct (m : PropertyMap) : Prop := (m.members.map (·.atom)).Nodup

theorem find?_eq_none_iff : m.find? atom = none ↔ ∀ e ∈ m.members, e.atom ≠ atom := by
  simp [find?]

theorem distinct_empty (proto : Option Handle) : (empty proto).Distinct := List.nodup_nil

theorem map_atom_put (m : PropertyMap) (atom : Atom) (flags : Flags) (p : Property) :
    (m.put atom flags p).members.map (·.atom) = m.members.map (·.atom) := by
  simp only [put, List.map_map]
  refine List.map_congr_left fun e _ => ?_
  simp only [Function.comp_apply]
  split
  · rename_i he
    exact he.symm
  · rfl

theorem Distinct.put (hm : m.Distinct) (atom : Atom) (flags : Flags) (p : Property) :
    (m.put atom flags p).Distinct := by
  unfold Distinct
  rw [map_atom_put]
  exact hm

theorem Distinct.define (hm : m.Distinct) (atom : Atom) (flags : Flags) (p : Property) :
    (m.define atom flags p).2.Distinct := by
  unfold PropertyMap.define
  split
  · exact hm.put atom flags p
  · rename_i hnone
    split
    · have hnew := find?_eq_none_iff.mp (Option.not_isSome_iff_eq_none.mp hnone)
      simp only [Distinct, List.map_append, List.map_cons, List.map_nil]
      refine List.nodup_append.mpr ⟨hm, by simp, ?_⟩
      intro a ha b hb
      obtain ⟨e, he, rfl⟩ := List.mem_map.mp ha
      rw [List.mem_singleton.mp hb]
      exact hnew e he
    · exact hm

theorem Distinct.assign (hm : m.Distinct) (atom : Atom) (v : Value) : (m.assign atom v).2.Distinct := by
  unfold PropertyMap.assign
  split
  · exact hm.define atom .ordinary (.value v)
  · split
    · exact hm
    · split
      · exact hm
      · exact hm.put _ _ _

theorem Distinct.delete (hm : m.Distinct) (atom : Atom) : (m.delete atom).2.Distinct := by
  unfold PropertyMap.delete
  split
  · exact hm
  · split
    · exact List.Nodup.sublist (List.filter_sublist.map _) hm
    · exact hm

theorem Distinct.reparent (hm : m.Distinct) (isCycle : Bool) (proto : Option Handle) :
    (m.reparent isCycle proto).2.Distinct := by
  unfold PropertyMap.reparent
  split
  · exact hm
  · exact hm

end PropertyMap

/-- An object with its layout: the prototype, and for each entry the property stored for it. -/
structure Record where
  proto : Option Handle
  extensible : Bool
  columns : List (Entry × Property)
  deriving DecidableEq, Repr, Inhabited

namespace Record

variable {d : Record} {atom : Atom} {flags : Flags} {p q : Property} {v : Value} {i : Nat}
  {found : Option (Nat × Flags)} {columns : List (Entry × Property)}

/-- The property of an entry; a hole has none. -/
def member? (c : Entry × Property) : Option Member :=
  if c.1.atom.isNull then none else some ⟨c.1.atom, c.1.flags, c.2⟩

/-- The map a record stands for. -/
def toMap (d : Record) : PropertyMap := ⟨d.proto, d.extensible, d.columns.filterMap member?⟩

/-- The record with another entry and property at an index. -/
def set (d : Record) (i : Nat) (e : Entry) (p : Property) : Record :=
  { d with columns := d.columns.set i (e, p) }

/-- The record with the entry and the property at an index edited. -/
def edit (d : Record) (i : Nat) (f : Entry × Property → Entry × Property) : Record :=
  { d with columns := d.columns.modify i f }

/-- The record with an entry and its property behind the others. -/
def append (d : Record) (e : Entry) (p : Property) : Record :=
  { d with columns := d.columns ++ [(e, p)] }

/-- The record without its holes. -/
def squeeze (d : Record) : Record := { d with columns := d.columns.filter fun c => !c.1.atom.isNull }

/-- Defines a property that was found at an index, or not at all. -/
def define (found : Option (Nat × Flags)) (atom : Atom) (flags : Flags) (p : Property) (d : Record) :
    Bool × Record :=
  match found with
  | some (i, _) => (true, d.set i ⟨atom, flags⟩ p)
  | none => if d.extensible then (true, d.append ⟨atom, flags⟩ p) else (false, d)

/-- Assigns to a property that was found at an index, or not at all. -/
def assign (found : Option (Nat × Flags)) (atom : Atom) (v : Value) (d : Record) : Bool × Record :=
  match found with
  | some (i, flags) =>
    if !flags.contains .writable || flags.kind == .accessor then (false, d)
    else if flags.kind == .captured then (true, d)
    else (true, d.set i ⟨atom, flags⟩ (.value v))
  | none => d.define none atom .ordinary (.value v)

/-- Deletes a property that was found at an index, or not at all. -/
def delete (found : Option (Nat × Flags)) (d : Record) : Bool × Record :=
  match found with
  | some (i, flags) => if flags.contains .configurable then (true, d.set i .hole .undefined) else (false, d)
  | none => (true, d)

/-- Gives a record another prototype.  Refused if that would close a cycle. -/
def reparent (isCycle : Bool) (proto : Option Handle) (d : Record) : Bool × Record :=
  if isCycle then (false, d) else (true, { d with proto := proto })

theorem proto_define (found : Option (Nat × Flags)) (atom : Atom) (flags : Flags) (p : Property) (d : Record) :
    (d.define found atom flags p).2.proto = d.proto := by
  unfold define
  split
  · rfl
  · split <;> rfl

theorem proto_assign (found : Option (Nat × Flags)) (atom : Atom) (v : Value) (d : Record) :
    (d.assign found atom v).2.proto = d.proto := by
  unfold assign
  split
  · split
    · rfl
    · split <;> rfl
  · exact proto_define none atom .ordinary (.value v) d

theorem proto_delete (found : Option (Nat × Flags)) (d : Record) : (d.delete found).2.proto = d.proto := by
  unfold delete
  split
  · split <;> rfl
  · rfl

/-- The answer of a layout holds of a record: the property is at the index with the flags, or nowhere. -/
def Locates (d : Record) (atom : Atom) : Option (Nat × Flags) → Prop
  | some (i, flags) => ∃ p, d.columns[i]? = some (⟨atom, flags⟩, p)
  | none => ∀ c ∈ d.columns, c.1.atom ≠ atom

theorem member?_of_null {c : Entry × Property} (hnull : c.1.atom.isNull = true) : member? c = none := by
  rw [member?, if_pos hnull]

theorem member?_of_not_null {c : Entry × Property} (hnull : c.1.atom.isNull = false) :
    member? c = some ⟨c.1.atom, c.1.flags, c.2⟩ := by
  rw [member?, if_neg (by simp [hnull])]

theorem member?_hole : member? (.hole, q) = none := rfl

@[simp] theorem edit_edit (d : Record) (i : Nat) (f g : Entry × Property → Entry × Property) :
    (d.edit i f).edit i g = d.edit i (g ∘ f) := by
  simp only [edit, List.modify_modify_eq]

theorem edit_eq_set {c : Entry × Property} (hi : d.columns[i]? = some c)
    (f : Entry × Property → Entry × Property) : d.edit i f = d.set i (f c).1 (f c).2 := by
  unfold edit set
  rw [List.modify_eq_set, hi]
  rfl

/-- Taking the holes out of a record leaves its map. -/
@[simp] theorem toMap_squeeze (d : Record) : d.squeeze.toMap = d.toMap := by
  simp only [toMap, squeeze, List.filterMap_filter]
  congr 2
  funext c
  cases hnull : c.1.atom.isNull with
  | true => simp [member?_of_null hnull]
  | false => simp

/-- An entry in the middle of a record: what is before and behind it, also once it is replaced. -/
theorem exists_split (hi : d.columns[i]? = some (⟨atom, flags⟩, q)) (e : Entry) (p : Property) :
    ∃ front back, d.columns = front ++ (⟨atom, flags⟩, q) :: back ∧
      (d.set i e p).columns = front ++ (e, p) :: back := by
  obtain ⟨hlt, hget⟩ := List.getElem?_eq_some_iff.mp hi
  obtain ⟨front, back, hsplit, _, hset⟩ := @List.exists_of_set _ _ (e, p) _ hlt
  rw [hget] at hsplit
  exact ⟨front, back, hsplit, hset⟩

/-- The other properties of a map with distinct names. -/
theorem Distinct.atom_ne_of_split {front back : List (Entry × Property)} (hd : d.toMap.Distinct)
    (hnull : atom.isNull = false) (hsplit : d.columns = front ++ (⟨atom, flags⟩, q) :: back) {e : Member}
    (he : e ∈ front.filterMap member? ∨ e ∈ back.filterMap member?) : e.atom ≠ atom := by
  unfold PropertyMap.Distinct toMap at hd
  rw [hsplit, List.filterMap_append,
    List.filterMap_cons_some (member?_of_not_null (c := (⟨atom, flags⟩, q)) hnull), List.map_append,
    List.map_cons] at hd
  obtain ⟨_, hback, hfront⟩ := List.nodup_append.mp hd
  rcases he with he | he
  · exact hfront _ (List.mem_map_of_mem he) _ (by simp)
  · intro hea
    refine (List.nodup_cons.mp hback).1 (List.mem_map.mpr ⟨e, he, ?_⟩)
    exact hea

/-- A located property is the one of the map. -/
theorem find?_toMap (hnull : atom.isNull = false) (hd : d.toMap.Distinct)
    (hi : d.columns[i]? = some (⟨atom, flags⟩, q)) : d.toMap.find? atom = some ⟨atom, flags, q⟩ := by
  obtain ⟨front, back, hsplit, _⟩ := exists_split hi .hole .undefined
  have hnone : (front.filterMap member?).find? (fun e => e.atom = atom) = none := by
    refine List.find?_eq_none.mpr fun e he => ?_
    simpa using Distinct.atom_ne_of_split hd hnull hsplit (.inl he)
  unfold PropertyMap.find? toMap
  rw [hsplit, List.filterMap_append,
    List.filterMap_cons_some (member?_of_not_null (c := (⟨atom, flags⟩, q)) hnull), List.find?_append, hnone]
  simp

theorem find?_toMap_of_none (hf : d.Locates atom none) : d.toMap.find? atom = none := by
  refine PropertyMap.find?_eq_none_iff.mpr fun e he => ?_
  obtain ⟨c, hc, hmember⟩ := List.mem_filterMap.mp he
  unfold member? at hmember
  split at hmember
  · cases hmember
  · cases hmember
    exact hf c hc

/-- Another entry of the same name in its place. -/
theorem toMap_set {flags' : Flags} (hnull : atom.isNull = false) (hd : d.toMap.Distinct)
    (hi : d.columns[i]? = some (⟨atom, flags⟩, q)) :
    (d.set i ⟨atom, flags'⟩ p).toMap = d.toMap.put atom flags' p := by
  obtain ⟨front, back, hsplit, hset⟩ := exists_split hi ⟨atom, flags'⟩ p
  have hother : ∀ es : List Member, (∀ e ∈ es, e.atom ≠ atom) →
      es.map (fun e => if e.atom = atom then ⟨atom, flags', p⟩ else e) = es := by
    intro es hes
    refine (List.map_congr_left fun e he => ?_).trans (List.map_id es)
    rw [if_neg (hes e he)]
    rfl
  unfold toMap PropertyMap.put
  rw [hset, hsplit]
  simp only [List.filterMap_append, List.map_append,
    List.filterMap_cons_some (member?_of_not_null (c := (⟨atom, flags⟩, q)) hnull),
    List.filterMap_cons_some (member?_of_not_null (c := (⟨atom, flags'⟩, p)) hnull), List.map_cons, if_true]
  rw [hother _ fun e he => Distinct.atom_ne_of_split hd hnull hsplit (.inl he),
    hother _ fun e he => Distinct.atom_ne_of_split hd hnull hsplit (.inr he)]
  rfl

/-- A hole in the place of an entry. -/
theorem toMap_set_hole (hnull : atom.isNull = false) (hd : d.toMap.Distinct)
    (hi : d.columns[i]? = some (⟨atom, flags⟩, q)) :
    (d.set i .hole p).toMap =
      { d.toMap with members := d.toMap.members.filter fun e => e.atom ≠ atom } := by
  obtain ⟨front, back, hsplit, hset⟩ := exists_split hi .hole p
  have hother : ∀ es : List Member, (∀ e ∈ es, e.atom ≠ atom) →
      es.filter (fun e => e.atom ≠ atom) = es := by
    intro es hes
    refine List.filter_eq_self.mpr fun e he => ?_
    simpa using hes e he
  unfold toMap
  rw [hset, hsplit]
  simp only [List.filterMap_append, List.filter_append,
    List.filterMap_cons_some (member?_of_not_null (c := (⟨atom, flags⟩, q)) hnull),
    List.filterMap_cons_none (member?_hole (q := p))]
  rw [hother _ fun e he => Distinct.atom_ne_of_split hd hnull hsplit (.inl he),
    List.filter_cons_of_neg (by simp), hother _ fun e he => Distinct.atom_ne_of_split hd hnull hsplit (.inr he)]
  rfl

/-- An entry behind the others. -/
theorem toMap_append (hnull : atom.isNull = false) :
    (d.append ⟨atom, flags⟩ p).toMap =
      { d.toMap with members := d.toMap.members ++ [⟨atom, flags, p⟩] } := by
  unfold toMap append
  rw [List.filterMap_append,
    List.filterMap_cons_some (member?_of_not_null (c := (⟨atom, flags⟩, p)) hnull)]
  rfl

/-- The null atom adds a hole. -/
theorem toMap_append_null (hnull : atom.isNull = true) : (d.append ⟨atom, flags⟩ p).toMap = d.toMap := by
  unfold toMap append
  rw [List.filterMap_append,
    List.filterMap_cons_none (member?_of_null (c := (⟨atom, flags⟩, p)) hnull)]
  simp

/-! ## Operations -/

theorem toMap_define (hnull : atom.isNull = false) (hd : d.toMap.Distinct) (hf : d.Locates atom found) :
    d.toMap.define atom flags p =
      ((d.define found atom flags p).1, (d.define found atom flags p).2.toMap) := by
  unfold PropertyMap.define define
  cases found with
  | some place =>
    obtain ⟨q, hi⟩ := hf
    rw [find?_toMap hnull hd hi, toMap_set hnull hd hi]
    rfl
  | none =>
    rw [find?_toMap_of_none hf, if_neg (by simp)]
    have hsame : d.toMap.extensible = d.extensible := rfl
    cases hext : d.extensible with
    | true =>
      rw [if_pos (hsame.trans hext), if_pos rfl, toMap_append hnull]
    | false =>
      rw [if_neg (by rw [hsame, hext]; simp), if_neg (by simp)]

theorem toMap_assign (hnull : atom.isNull = false) (hd : d.toMap.Distinct) (hf : d.Locates atom found) :
    d.toMap.assign atom v = ((d.assign found atom v).1, (d.assign found atom v).2.toMap) := by
  unfold PropertyMap.assign assign
  cases found with
  | some place =>
    obtain ⟨q, hi⟩ := hf
    rw [find?_toMap hnull hd hi]
    dsimp only
    split
    · rfl
    · split
      · rfl
      · rw [toMap_set hnull hd hi]
  | none =>
    rw [find?_toMap_of_none hf]
    exact toMap_define hnull hd hf

theorem toMap_delete (hnull : atom.isNull = false) (hd : d.toMap.Distinct) (hf : d.Locates atom found) :
    d.toMap.delete atom = ((d.delete found).1, (d.delete found).2.toMap) := by
  unfold PropertyMap.delete delete
  cases found with
  | some place =>
    obtain ⟨q, hi⟩ := hf
    rw [find?_toMap hnull hd hi]
    dsimp only
    split
    · rw [toMap_set_hole hnull hd hi]
    · rfl
  | none =>
    rw [find?_toMap_of_none hf]

theorem toMap_reparent (isCycle : Bool) (proto : Option Handle) :
    d.toMap.reparent isCycle proto =
      ((d.reparent isCycle proto).1, (d.reparent isCycle proto).2.toMap) := by
  unfold PropertyMap.reparent reparent
  split
  · rfl
  · rfl

/-- A property without a name is nobody's: nothing is seen of it. -/
theorem toMap_define_null (hnull : atom.isNull = true) :
    (d.define none atom flags p).2.toMap = d.toMap := by
  unfold define
  dsimp only
  split
  · exact toMap_append_null hnull
  · rfl

end Record

end ObjectMemory
