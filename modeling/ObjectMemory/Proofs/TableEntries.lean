import ObjectMemory.ShapeTable
import Mathlib
set_option autoImplicit false

/-!
# The entries of a shape table

A table is a list of entries (`ShapeTable.toList`) that happens to be kept in buckets.  While every
entry stands in the bucket its hash selects (`ShapeTable.Tidy`), registering a shape adds its entry to
the list and erasing one that is registered takes it out; the order in the list is of no account.  The
table doubles in time, so that it is never more than half full.
-/

namespace ObjectMemory

/-! ## Lists of lists -/

section Buckets

variable {α : Type}

/-- Putting an element in front of one list of many puts it among all elements. -/
theorem flatten_modify_cons (xs : List (List α)) (k : Nat) (a : α) (hk : k < xs.length) :
    ((xs.modify k (a :: ·)).flatten).Perm (a :: xs.flatten) := by
  induction xs generalizing k with
  | nil => simp at hk
  | cons b rest ih =>
    cases k with
    | zero => simp
    | succ k =>
      have hrest := ih k (by simpa using hk)
      simp only [List.modify_succ_cons, List.flatten_cons]
      exact (hrest.append_left b).trans List.perm_middle

/-- Erasing an element from one list of many takes it out of all elements. -/
theorem flatten_modify_erase [BEq α] [LawfulBEq α] (xs : List (List α)) (k : Nat) (a : α) {b : List α}
    (hb : xs[k]? = some b) (ha : a ∈ b) :
    (xs.flatten).Perm (a :: (xs.modify k (·.erase a)).flatten) := by
  induction xs generalizing k with
  | nil => simp at hb
  | cons c rest ih =>
    cases k with
    | zero =>
      simp only [List.getElem?_cons_zero, Option.some.injEq] at hb
      subst hb
      simp only [List.modify_zero_cons, List.flatten_cons]
      exact (List.perm_cons_erase ha).append_right _
    | succ k =>
      have hrest := ih k (by simpa using hb)
      simp only [List.modify_succ_cons, List.flatten_cons]
      exact (hrest.append_left c).trans List.perm_middle

end Buckets

namespace ShapeTable

variable {t t' : ShapeTable} {hash : UInt32} {r : Handle} {bits : Nat}
  {buckets : Array (List (UInt32 × Handle))}

/-- The leading bits of a hash select one of the buckets. -/
theorem bucketIndex_lt (hash : UInt32) (bits : Nat) : bucketIndex hash bits < 1 <<< bits := by
  unfold bucketIndex
  rw [Nat.shiftRight_eq_div_pow, Nat.one_shiftLeft, Nat.div_lt_iff_lt_mul (Nat.two_pow_pos _),
    ← Nat.pow_add]
  calc hash.toNat < 2 ^ 32 := hash.toNat_lt
    _ ≤ 2 ^ (bits + (32 - bits)) := Nat.pow_le_pow_right (by decide) (by omega)

/-- There are as many buckets as `bits` leading bits can select, and every entry stands in the one its
hash selects. -/
structure Placed (bits : Nat) (buckets : Array (List (UInt32 × Handle))) : Prop where
  size : buckets.size = 1 <<< bits
  home : ∀ k b, buckets[k]? = some b → ∀ e ∈ b, bucketIndex e.1 bits = k

/-- The table is in order: entries in their buckets, the count is their number, and it is at most half
full. -/
structure Tidy (t : ShapeTable) : Prop where
  placed : Placed t.bits t.buckets
  count : t.count = t.toList.length
  room : 2 * t.count ≤ t.buckets.size

theorem placed_replicate (bits : Nat) : Placed bits (Array.replicate (1 <<< bits) []) := by
  refine ⟨by simp, fun k b hb e he => ?_⟩
  obtain ⟨hk, rfl⟩ := Array.getElem?_eq_some_iff.mp hb
  simp at he

theorem tidy_empty : Tidy empty := ⟨placed_replicate initialBits, by decide, by decide⟩

theorem Placed.place (hp : Placed bits buckets) (e : UInt32 × Handle) :
    Placed bits (place bits buckets e) := by
  refine ⟨by simp [ShapeTable.place, hp.size], fun k b hb d hd => ?_⟩
  simp only [ShapeTable.place, Array.getElem?_modify] at hb
  split at hb
  · rename_i hk
    obtain ⟨b', hb', rfl⟩ := Option.map_eq_some_iff.mp hb
    rcases List.mem_cons.mp hd with rfl | hd
    · exact hk
    · exact hp.home k b' hb' d hd
  · exact hp.home k b hb d hd

theorem Placed.flatten_place (hp : Placed bits buckets) (e : UInt32 × Handle) :
    ((ShapeTable.place bits buckets e).toList.flatten).Perm (e :: buckets.toList.flatten) := by
  unfold ShapeTable.place
  rw [Array.toList_modify]
  exact flatten_modify_cons _ _ _ (by simpa [hp.size] using bucketIndex_lt e.1 bits)

theorem Placed.foldl_place (hp : Placed bits buckets) (es : List (UInt32 × Handle)) :
    Placed bits (es.foldl (ShapeTable.place bits) buckets) ∧
      ((es.foldl (ShapeTable.place bits) buckets).toList.flatten).Perm (es ++ buckets.toList.flatten) := by
  induction es generalizing buckets with
  | nil => exact ⟨hp, .refl _⟩
  | cons e rest ih =>
    obtain ⟨hplaced, hperm⟩ := ih (hp.place e)
    refine ⟨hplaced, hperm.trans ?_⟩
    exact ((hp.flatten_place e).append_left rest).trans List.perm_middle

theorem toList_replicate (n : Nat) :
    (Array.replicate n ([] : List (UInt32 × Handle))).toList.flatten = [] := by
  simp

theorem resize_placed (t : ShapeTable) (bits : Nat) :
    Placed bits (t.resize bits).buckets ∧ ((t.resize bits).toList).Perm t.toList := by
  obtain ⟨hplaced, hperm⟩ := (placed_replicate bits).foldl_place t.toList
  rw [toList_replicate, List.append_nil] at hperm
  exact ⟨hplaced, hperm⟩

/-- A table of twice the size has room for one more shape. -/
theorem Tidy.room_double (ht : t.Tidy) : 2 * (t.count + 1) ≤ 1 <<< (t.bits + 1) := by
  have hroom := ht.room
  have hpos : 0 < 1 <<< t.bits := by
    rw [Nat.one_shiftLeft]
    exact Nat.two_pow_pos _
  rw [ht.placed.size] at hroom
  rw [Nat.shiftLeft_succ]
  omega

/-- Registering a shape adds its entry. -/
theorem Tidy.insert (ht : t.Tidy) (hash : UInt32) (r : Handle) :
    (t.insert hash r).Tidy ∧ ((t.insert hash r).toList).Perm ((hash, r) :: t.toList) := by
  have hroom : ∀ u : ShapeTable, Placed u.bits u.buckets → u.toList.Perm t.toList → u.count = t.count →
      2 * (u.count + 1) ≤ u.buckets.size →
      Tidy { u with buckets := place u.bits u.buckets (hash, r), count := u.count + 1 } ∧
        (toList { u with buckets := place u.bits u.buckets (hash, r), count := u.count + 1 }).Perm
          ((hash, r) :: t.toList) := by
    intro u hu hperm hcount hfree
    have hplace := (hu.flatten_place (hash, r)).trans (hperm.cons _)
    refine ⟨⟨hu.place _, ?_, ?_⟩, hplace⟩
    · have hlen := hplace.length_eq
      rw [List.length_cons, ← ht.count, ← hcount] at hlen
      exact hlen.symm
    · simpa [place] using hfree
  unfold ShapeTable.insert
  dsimp only
  split
  · obtain ⟨hplaced, hperm⟩ := t.resize_placed (t.bits + 1)
    refine hroom _ hplaced hperm rfl ?_
    rw [hplaced.size]
    exact ht.room_double
  · exact hroom t ht.placed (.refl _) rfl (by omega)

/-- The shapes of a bucket are shapes of the table. -/
theorem mem_toList_of_bucket (hmem : (hash, r) ∈ t.bucket hash) : (hash, r) ∈ t.toList := by
  unfold bucket at hmem
  cases hget : t.buckets[bucketIndex hash t.bits]? with
  | none => simp [Array.getD_eq_getD_getElem?, hget] at hmem
  | some b =>
    rw [Array.getD_eq_getD_getElem?, hget] at hmem
    exact List.mem_flatten.mpr ⟨b, Array.mem_toList_iff.mpr (Array.mem_of_getElem? hget), hmem⟩

theorem Tidy.mem_bucket (ht : t.Tidy) (hmem : (hash, r) ∈ t.toList) : (hash, r) ∈ t.bucket hash := by
  obtain ⟨b, hb, he⟩ := List.mem_flatten.mp hmem
  obtain ⟨k, hk⟩ := List.mem_iff_getElem?.mp hb
  rw [Array.getElem?_toList] at hk
  have hhome := ht.placed.home k b hk _ he
  unfold bucket
  rw [hhome, Array.getD_eq_getD_getElem?, hk]
  exact he

/-- A registered shape can be erased, which takes its entry out. -/
theorem Tidy.erase? (ht : t.Tidy) (hmem : (hash, r) ∈ t.toList) :
    ∃ t', t.erase? hash r = some t' ∧ t'.Tidy ∧ t.toList.Perm ((hash, r) :: t'.toList) := by
  have hbucket := ht.mem_bucket hmem
  have hlt : bucketIndex hash t.bits < t.buckets.size := by
    rw [ht.placed.size]
    exact bucketIndex_lt hash t.bits
  have hget : t.buckets[bucketIndex hash t.bits]? = some (t.bucket hash) := by
    simp [bucket, Array.getD_eq_getD_getElem?, hlt]
  have hperm := flatten_modify_erase t.buckets.toList (bucketIndex hash t.bits) (hash, r)
    (by rw [Array.getElem?_toList]; exact hget) hbucket
  rw [← Array.toList_modify] at hperm
  refine ⟨_, if_pos hbucket, ⟨⟨by simp [ht.placed.size], fun k b hb e he => ?_⟩, ?_, ?_⟩, hperm⟩
  · simp only [Array.getElem?_modify] at hb
    split at hb
    · obtain ⟨b', hb', rfl⟩ := Option.map_eq_some_iff.mp hb
      exact ht.placed.home k b' hb' e (List.mem_of_mem_erase he)
    · exact ht.placed.home k b hb e he
  · have hlen := hperm.length_eq
    simp only [List.length_cons] at hlen
    have hcount := ht.count
    unfold toList at hcount ⊢
    dsimp only
    omega
  · have hroom := ht.room
    simp only [Array.size_modify]
    omega

/-- What is left of a table when an entry was erased. -/
theorem Tidy.of_erase? (ht : t.Tidy) (he : t.erase? hash r = some t') :
    t'.Tidy ∧ t.toList.Perm ((hash, r) :: t'.toList) := by
  have hmem : (hash, r) ∈ t.toList := by
    unfold ShapeTable.erase? at he
    split at he
    · rename_i hbucket
      unfold bucket at hbucket
      rw [Array.getD_eq_getD_getElem?] at hbucket
      cases hb : t.buckets[bucketIndex hash t.bits]? with
      | none => simp [hb] at hbucket
      | some b =>
        rw [hb] at hbucket
        exact List.mem_flatten.mpr ⟨b, Array.mem_toList_iff.mpr (Array.mem_of_getElem? hb), hbucket⟩
    · cases he
  obtain ⟨u, hu, htidy, hperm⟩ := ht.erase? hmem
  rw [he] at hu
  cases hu
  exact ⟨htidy, hperm⟩

end ShapeTable

end ObjectMemory
