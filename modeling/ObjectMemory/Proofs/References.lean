import ObjectMemory.Proofs.FrameViews
import ObjectMemory.Proofs.Slots
import ObjectMemory.Proofs.TableEntries
set_option autoImplicit false

/-!
# References and who holds them

A counted reference is held by the body of a cell, by a local of a frame, by the queue of dropped roots
or by someone outside the heap.  `Heap.held` counts the first three; a `Ledger` counts the last.

Each reference a body owns is for a cell of one kind (`Body.typedRefs`), and its place in the list is
its place in `Body.refs`.
-/

namespace ObjectMemory

/-! ## Ledgers -/

/-- How many references to each cell are held outside the heap. -/
abbrev Ledger : Type := Handle → Nat

namespace Ledger

/-- Nothing is held. -/
def empty : Ledger := fun _ => 0

/-- The ledger with the references of a list added. -/
def plus (x : Ledger) (rs : List Handle) : Ledger := fun r => x r + rs.count r

/-- The ledger with the references of a list taken away. -/
def minus (x : Ledger) (rs : List Handle) : Ledger := fun r => x r - rs.count r

variable (x : Ledger) (r : Handle) (rs ss : List Handle)

@[simp] theorem empty_apply : empty r = 0 := rfl

@[simp] theorem plus_apply : x.plus rs r = x r + rs.count r := rfl

@[simp] theorem plus_nil : x.plus [] = x := by
  funext r
  simp

theorem plus_append : x.plus (rs ++ ss) = (x.plus rs).plus ss := by
  funext r
  simp [Nat.add_assoc]

theorem plus_cons : x.plus (r :: rs) = (x.plus [r]).plus rs := plus_append x [r] rs

theorem plus_comm : (x.plus rs).plus ss = (x.plus ss).plus rs := by
  funext r
  simp only [plus_apply]
  omega

theorem plus_perm {rs ss : List Handle} (hp : rs.Perm ss) : x.plus rs = x.plus ss := by
  funext r
  simp [hp.count_eq]

/-- What can be taken away can be given back. -/
theorem minus_plus {x : Ledger} {rs : List Handle} (hle : ∀ r, rs.count r ≤ x r) :
    (x.minus rs).plus rs = x := by
  funext r
  have := hle r
  simp only [plus_apply, minus]
  omega

end Ledger

/-! ## References with their kinds -/

namespace Value

/-- The cell a value refers to, with its kind. -/
def typedRef? : Value → Option (Handle × Kind)
  | object r => some (r, .object)
  | bytecode r => some (r, .bytecode)
  | _ => none

theorem typedRef?_map (v : Value) : v.typedRef?.map (·.1) = v.ref? := by
  cases v <;> rfl

theorem toList_typedRef? (v : Value) : v.typedRef?.toList.map (·.1) = v.ref?.toList := by
  cases v <;> rfl

theorem filterMap_typedRef? (vs : List Value) :
    (vs.filterMap typedRef?).map (·.1) = vs.filterMap ref? := by
  rw [List.map_filterMap]
  exact List.filterMap_congr fun v _ => v.typedRef?_map

end Value

namespace Property

/-- The cells a property refers to, with their kinds. -/
def typedRefs : Property → List (Handle × Kind)
  | value v => v.typedRef?.toList
  | accessor getter setter => (getter.toList ++ setter.toList).map (·, .object)
  | captured r => [(r, .captured)]

theorem map_typedRefs (p : Property) : p.typedRefs.map (·.1) = p.refs := by
  cases p with
  | value v => exact v.toList_typedRef?
  | accessor getter setter => simp [typedRefs, refs, Function.comp_def]
  | captured r => rfl

end Property

namespace Payload

/-- The cells a payload refers to, with their kinds. -/
def typedRefs : Payload → List (Handle × Kind)
  | ordinary => []
  | array elements _ => elements.toList.filterMap Value.typedRef?
  | closure bytecode captured home =>
    (bytecode, .bytecode) :: (captured.toList.map (·, .captured) ++ home.toList.map (·, .object))

theorem map_typedRefs (p : Payload) : p.typedRefs.map (·.1) = p.refs := by
  cases p with
  | ordinary => rfl
  | array elements capacity => exact Value.filterMap_typedRef? _
  | closure bytecode captured home => simp [typedRefs, refs, Function.comp_def]

end Payload

namespace Object

/-- The cells an object refers to, with their kinds. -/
def typedRefs (o : Object) : List (Handle × Kind) :=
  o.properties.toList.flatMap Property.typedRefs ++ o.payload.typedRefs ++ [(o.shape, .shape)]

theorem map_typedRefs (o : Object) : o.typedRefs.map (·.1) = o.refs := by
  simp only [typedRefs, refs, List.map_append, List.map_flatMap, Payload.map_typedRefs,
    Property.map_typedRefs, List.map_cons, List.map_nil]

end Object

namespace Suspension

/-- The cells a suspended call refers to, with their kinds. -/
def typedRefs (s : Suspension) : List (Handle × Kind) := s.contents.filterMap Value.typedRef?

/-- A call that has completed holds no saved values. -/
def Rested (s : Suspension) : Prop :=
  s.active = false → (s.receiver :: s.values.toList).filterMap Value.ref? = []

end Suspension

namespace Body

/-- The counted references a body owns, with the kind of cell each is for. -/
def typedRefs : Body → List (Handle × Kind)
  | object o => o.typedRefs
  | bytecode b => b.pool.toList.filterMap Value.typedRef? ++ b.realm.toList.map (·, .realm)
  | captured (.attached _ _) => []
  | captured (.detached v) => v.typedRef?.toList
  | suspension s => s.typedRefs
  | shape s => s.proto.toList.map (·, .object)
  | realm r => [(r.globalObject, .object), (r.functionProto, .object), (r.arrayProto, .object),
      (r.arrayShape, .shape), (r.objectProto, .object)]
  | zombie _ => []

/-- The typed references are the references. -/
theorem map_typedRefs (b : Body) : b.typedRefs.map (·.1) = b.refs := by
  cases b with
  | object o => exact o.map_typedRefs
  | bytecode b =>
    simp [typedRefs, refs, Bytecode.refs, Value.filterMap_typedRef?, Function.comp_def]
  | captured v =>
    cases v with
    | attached id slot => rfl
    | detached v => exact v.toList_typedRef?
  | suspension s => exact Value.filterMap_typedRef? s.contents
  | shape s => simp [typedRefs, refs, Function.comp_def]
  | realm r => rfl
  | zombie k => rfl

/-- A reference of a body is for a cell of some kind. -/
theorem typed_of_mem_refs {b : Body} {r : Handle} (hr : r ∈ b.refs) : ∃ k, (r, k) ∈ b.typedRefs := by
  rw [← map_typedRefs] at hr
  obtain ⟨⟨_, k⟩, hk, rfl⟩ := List.mem_map.mp hr
  exact ⟨k, hk⟩

theorem mem_refs_of_typed {b : Body} {p : Handle × Kind} (hp : p ∈ b.typedRefs) : p.1 ∈ b.refs := by
  rw [← map_typedRefs]
  exact List.mem_map_of_mem hp

/-- The frame a variable is attached to. -/
def frame? : Body → Option FrameId
  | captured (.attached id _) => some id
  | _ => none

/-- The hash a shape is registered under. -/
def hash? : Body → Option UInt32
  | shape s => if s.isHashed then some s.hash else none
  | _ => none

/-- Finalized? -/
def isZombie : Body → Bool
  | zombie _ => true
  | _ => false

/-- A suspended call that has completed holds no saved values. -/
def Rested (b : Body) : Prop := ∀ s, b = suspension s → s.Rested

theorem isZombie_eq_false {b : Body} (hb : ∀ k, b ≠ zombie k) : b.isZombie = false := by
  cases b with
  | zombie k => exact absurd rfl (hb k)
  | _ => rfl

theorem refs_of_frame? {b : Body} {id : FrameId} (hf : b.frame? = some id) : b.refs = [] := by
  cases b with
  | captured v =>
    cases v with
    | attached id slot => rfl
    | detached v => cases hf
  | _ => cases hf

theorem frame?_eq_none_of_kind {b : Body} (hk : b.kind ≠ .captured) : b.frame? = none := by
  cases b with
  | captured v => exact absurd rfl hk
  | _ => rfl

theorem hash?_eq_none_of_kind {b : Body} (hk : b.kind ≠ .shape) : b.hash? = none := by
  cases b with
  | shape s => exact absurd rfl hk
  | _ => rfl

theorem rested_of_kind {b : Body} (hk : b.kind ≠ .suspension) : b.Rested := by
  rintro s rfl
  exact absurd rfl hk

end Body

namespace Frame

/-- The cells the locals of a frame refer to. -/
def refs (f : Frame) : List Handle := f.locals.toList.filterMap Value.ref?

/-- The cells the locals of a frame refer to, with their kinds. -/
def typedRefs (f : Frame) : List (Handle × Kind) := f.locals.toList.filterMap Value.typedRef?

theorem map_typedRefs (f : Frame) : f.typedRefs.map (·.1) = f.refs := Value.filterMap_typedRef? _

theorem typed_of_mem_refs {f : Frame} {r : Handle} (hr : r ∈ f.refs) : ∃ k, (r, k) ∈ f.typedRefs := by
  rw [← map_typedRefs] at hr
  obtain ⟨⟨_, k⟩, hk, rfl⟩ := List.mem_map.mp hr
  exact ⟨k, hk⟩

@[simp] theorem refs_close (f : Frame) (r : Handle) : (f.close r).refs = f.refs := by
  simp [refs]

end Frame

namespace Heap

variable {h h' : Heap} {i : Nat} {c : Cell} {r : Handle}

/-! ## Totals -/

/-- A total is a sum over the slots. -/
theorem total_eq_sum (h : Heap) (f : Cell → Nat) :
    h.total f = ∑ i ∈ Finset.range h.slots.size, (h.tenant? i).elim 0 f := by
  have hlist : ∀ xs : List Slot, xs.foldr (fun s n => slotWeight f s + n) 0 =
      ∑ i ∈ Finset.range xs.length, ((xs[i]?.bind (·.cell)).elim 0 f) := by
    intro xs
    induction xs with
    | nil => rfl
    | cons s rest ih =>
      rw [List.length_cons, Finset.sum_range_succ', List.foldr_cons, ih, Nat.add_comm]
      congr 1
      cases hs : s.cell <;> simp [slotWeight, hs]
  unfold total slotTotal
  rw [hlist]
  simp [tenant?]

/-- A total may be taken over more slots than there are. -/
theorem total_eq_sum_of_le (h : Heap) (f : Cell → Nat) {n : Nat} (hn : h.slots.size ≤ n) :
    h.total f = ∑ i ∈ Finset.range n, (h.tenant? i).elim 0 f := by
  rw [total_eq_sum]
  refine Finset.sum_subset (Finset.range_subset_range.mpr hn) fun i _ hi => ?_
  have hout : h.slots.size ≤ i := by simpa using hi
  simp [tenant?, hout]

/-- Heaps with the same share in every slot have the same total. -/
theorem total_congr {f g : Cell → Nat}
    (hs : ∀ i, (h'.tenant? i).elim 0 f = (h.tenant? i).elim 0 g) : h'.total f = h.total g := by
  rw [total_eq_sum_of_le h' f (Nat.le_max_left _ h.slots.size),
    total_eq_sum_of_le h g (Nat.le_max_right h'.slots.size _)]
  exact Finset.sum_congr rfl fun i _ => hs i

/-- One slot makes the difference between two totals. -/
theorem total_of_change {f : Cell → Nat} (hs : ∀ j, j ≠ i → h'.tenant? j = h.tenant? j) :
    h'.total f + (h.tenant? i).elim 0 f = h.total f + (h'.tenant? i).elim 0 f := by
  have hn : i ∈ Finset.range (max (max h'.slots.size h.slots.size) (i + 1)) := by simp
  rw [total_eq_sum_of_le h' f (n := max (max h'.slots.size h.slots.size) (i + 1)) (by omega),
    total_eq_sum_of_le h f (n := max (max h'.slots.size h.slots.size) (i + 1)) (by omega),
    ← Finset.add_sum_erase _ _ hn, ← Finset.add_sum_erase _ (fun i => (h.tenant? i).elim 0 f) hn]
  have hrest : ∀ j ∈ (Finset.range (max (max h'.slots.size h.slots.size) (i + 1))).erase i,
      (h'.tenant? j).elim 0 f = (h.tenant? j).elim 0 f := fun j hj => by
    rw [hs j (Finset.ne_of_mem_erase hj)]
  rw [Finset.sum_congr rfl hrest]
  omega

/-- The share of one cell in a total. -/
theorem le_total {f : Cell → Nat} (hc : h.tenant? i = some c) : f c ≤ h.total f := by
  rw [total_eq_sum]
  have hmem : i ∈ Finset.range h.slots.size := Finset.mem_range.mpr (lt_size_of_tenant hc)
  calc f c = (h.tenant? i).elim 0 f := by rw [hc]; rfl
    _ ≤ _ := Finset.single_le_sum (f := fun i => (h.tenant? i).elim 0 f)
        (fun _ _ => Nat.zero_le _) hmem

/-- A total that is not zero has a cell with a share in it. -/
theorem exists_of_total_pos {f : Cell → Nat} (hpos : 0 < h.total f) :
    ∃ i c, h.tenant? i = some c ∧ 0 < f c := by
  rw [total_eq_sum] at hpos
  obtain ⟨i, _, hi⟩ := Finset.exists_ne_zero_of_sum_ne_zero (Nat.pos_iff_ne_zero.mp hpos)
  cases hc : h.tenant? i with
  | none => simp [hc] at hi
  | some c => exact ⟨i, c, hc, Nat.pos_iff_ne_zero.mpr (by simpa [hc] using hi)⟩

/-! ## References held inside -/

/-- The references to a cell from bodies. -/
def heldByCells (h : Heap) (r : Handle) : Nat := h.total fun c => c.body.refs.count r

/-- The references to a cell from locals. -/
def heldByFrames (h : Heap) (r : Handle) : Nat := h.frames.total fun f => f.refs.count r

/-- The references to a cell from bodies, locals and dropped roots. -/
def held (h : Heap) (r : Handle) : Nat :=
  h.heldByCells r + h.heldByFrames r + h.dropped.toList.count r

/-- The references to a cell from the ledger, locals and dropped roots. -/
def outside (h : Heap) (x : Ledger) (r : Handle) : Nat :=
  x r + h.heldByFrames r + h.dropped.toList.count r

theorem held_pos_of_mem_refs (hc : h.tenant? i = some c) (hr : r ∈ c.body.refs) :
    0 < h.heldByCells r :=
  Nat.lt_of_lt_of_le (List.count_pos_iff.mpr hr)
    (le_total (f := fun c => c.body.refs.count r) hc)

end Heap

namespace FrameTable

variable {t : FrameTable} {id : FrameId} {f : Frame}

theorem le_total {w : Frame → Nat} (hf : t.get? id = some f) : w f ≤ t.total w := by
  obtain ⟨s, hs, hsf, _⟩ := get?_eq_some_iff.mp hf
  unfold total
  refine List.le_sum_of_mem (List.mem_map.mpr ⟨s, ?_, by rw [hsf]; rfl⟩)
  exact Array.mem_toList_iff.mpr (Array.mem_of_getElem? hs)

theorem exists_of_total_pos {w : Frame → Nat} (hpos : 0 < t.total w) :
    ∃ id f, t.get? id = some f ∧ 0 < w f := by
  obtain ⟨n, hn, hne⟩ : ∃ n ∈ t.slots.toList.map (fun s => s.frame.elim 0 w), n ≠ 0 := by
    by_contra hall
    have hzero : t.total w = 0 := List.sum_eq_zero_iff_forall_eq_nat.mpr fun n hn => by
      by_contra hne
      exact hall ⟨n, hn, hne⟩
    omega
  obtain ⟨s, hs, rfl⟩ := List.mem_map.mp hn
  obtain ⟨i, hi⟩ := List.mem_iff_getElem?.mp hs
  rw [Array.getElem?_toList] at hi
  cases hf : s.frame with
  | none => simp [hf] at hne
  | some f =>
    exact ⟨⟨i, s.generation⟩, f, get?_eq_some_iff.mpr ⟨s, hi, hf, rfl⟩,
      Nat.pos_iff_ne_zero.mpr (by simpa [hf] using hne)⟩

end FrameTable

end ObjectMemory
