import ObjectMemory.Proofs.Clients
import ObjectMemory.Proofs.Outlays
set_option autoImplicit false

/-!
# Exact accounts

What the accounts of a heap are in every state a client can bring about.

Compaction gives room back: what it takes off the account of a shape and of an object is there, because
the layout without its holes is never larger than the layout with them (`Object.Shrinks`).  For that the
object has to fit its shape, so compaction and deletion are followed on valid heaps.  A push makes room
for elements, which is the one growth that the room for properties does not tell (`Heap.Accrues`).

`Client.Recorded` is a run of a client together with the room for elements each object was made with, and
`Client.accounts_exact` says what every byte of such a run is for.
-/

namespace ObjectMemory

open Heap (Terms Pays)

/-- Of a result that is known, one may say that it is the result. -/
theorem Clears.known {α : Type} {strict : Prop} {R : α → Prop} {x : Except Fault α} (hx : Clears strict R x) :
    Clears strict (fun a => R a ∧ x = .ok a) x := by
  cases x with
  | ok a => exact ⟨hx, rfl⟩
  | error e => exact hx

/-! ## Layouts without holes -/

namespace Shape

variable {exact : Prop} {size : Nat} {t : Shape} {i : Nat}

theorem halveTo_le (target fuel n : Nat) : halveTo target fuel n ≤ n := by
  induction fuel generalizing n with
  | zero => exact Nat.le_refl n
  | succ fuel ih =>
    rw [halveTo]
    split
    · exact Nat.le_trans (ih (n / 2)) (Nat.div_le_self n 2)
    · exact Nat.le_refl n

theorem nulls_remove {e : Entry} (he : t.entries[i]? = some e) (hnull : e.atom.isNull = false) :
    (t.remove i).nulls = t.nulls + 1 := by
  unfold nulls remove
  dsimp only
  rw [Array.toList_setIfInBounds]
  rw [← Array.getElem?_toList] at he
  generalize t.entries.toList = es at he
  induction es generalizing i with
  | nil => cases he
  | cons a rest ih =>
    cases i with
    | zero =>
      cases he
      have hhole : Entry.hole.atom.isNull = true := rfl
      simp [hnull, hhole]
    | succ i =>
      have htail := ih he
      simp only [List.set_cons_succ, List.countP_cons] at htail ⊢
      omega

/-- A property that is there may be removed. -/
theorem Sized.remove {e : Entry} (hs : t.Sized exact size) (he : t.entries[i]? = some e)
    (hnull : e.atom.isNull = false) : (t.remove i).Sized exact size := by
  have hnulls := nulls_remove he hnull
  have hholes : (t.remove i).holes = t.holes + 1 := rfl
  have hbuckets := t.size_buckets_remove i
  refine ⟨?_, hs.floor, ?_, ?_, ?_, ?_, fun hex => ?_⟩
  · rw [hs.bytes, hbuckets]
    rfl
  · simpa [Shape.remove] using hs.room
  · rw [hbuckets]
    exact hs.reach
  · rw [hbuckets]
    exact hs.power
  · rw [hholes, hnulls]
    exact Nat.succ_le_succ hs.holes
  · rw [hholes, hnulls, hs.all hex]

/-- The entries that are left fit the compacted layout, which pays for its own room. -/
theorem Sized.compact {kept : List Entry} (hs : t.Sized exact size)
    (hkept : kept = t.entries.toList.filter fun e => !e.atom.isNull) :
    (t.compact kept.toArray).Sized exact (Size.shape t.compactCapacity t.compactBuckets) := by
  have hnone : (t.compact kept.toArray).nulls = 0 := by
    simp [nulls, Shape.compact, hkept, List.countP_filter]
  have hbuckets : (t.compact kept.toArray).buckets.size = t.compactBuckets := size_rebuild _ _ _
  obtain ⟨k, hpower⟩ := hs.power
  refine ⟨?_, Nat.le_max_left _ _, ?_, ?_, ?_, Nat.zero_le _, fun _ => hnone.symm⟩
  · rw [hbuckets]
    rfl
  · have hcount := List.length_eq_countP_add_countP (fun e : Entry => e.atom.isNull) (l := t.entries.toList)
    have hlength : kept.length = t.entries.toList.countP fun e => !e.atom.isNull := by
      rw [hkept, List.countP_eq_length_filter]
    have hholes := hs.holes
    simp only [nulls, Array.length_toList, Bool.not_eq_true, Bool.decide_eq_false] at hholes hcount
    have hroom : kept.length ≤ t.entries.size - t.holes := by omega
    simpa [Shape.compact, compactCapacity] using Or.inr hroom
  · have hfloor := hs.floor
    have hroom := hs.room
    have hreach := hs.reach
    rw [hbuckets]
    exact target_le_halveTo _ _ _ (Nat.max_le.mpr ⟨by omega, by omega⟩)
  · rw [hbuckets, compactBuckets, hpower]
    exact halveTo_two_pow _ _ _ (Nat.lt_of_lt_of_le (by decide) (Nat.le_max_left _ _))

end Shape

namespace Object

/-- The compacted layout of an object of shape `t` is not larger than the one it has: no subtraction of
a compaction falls below zero. -/
structure Shrinks (o : Object) (t : Shape) : Prop where
  layout : t.compactCapacity ≤ t.capacity
  buckets : t.compactBuckets ≤ t.buckets.size
  values : t.compactCapacity ≤ o.capacity

variable {exact : Prop} {size size' : Nat} {o : Object} {t : Shape}

theorem Sized.shrinks (ho : o.Sized size) (ht : t.Sized exact size')
    (hfits : t.entries.size = o.properties.size) : o.Shrinks t := by
  have hfloor := ho.floor
  have hroom := ho.room
  have hfloor' := ht.floor
  have hroom' := ht.room
  refine ⟨?_, Shape.halveTo_le _ _ _, ?_⟩
  · unfold Shape.compactCapacity
    omega
  · unfold Shape.compactCapacity
    omega

/-- The bytes of the layout that is left are on the account of the shape. -/
theorem Shrinks.shape_le (hs : o.Shrinks t) (ht : t.Sized exact size) :
    Size.shape t.compactCapacity t.compactBuckets ≤ size := by
  rw [ht.bytes]
  have hentries := Nat.mul_le_mul_right Size.entry hs.layout
  have hbuckets := Nat.mul_le_mul_right Size.bucket hs.buckets
  unfold Size.shape
  omega

/-- An object gives back just what it is smaller by. -/
theorem Shrinks.object_add (hs : o.Shrinks t) :
    (o.capacity - t.compactCapacity) * Size.property + Size.object t.compactCapacity =
      Size.object o.capacity := by
  have hvalues := hs.values
  unfold Size.object Size.property
  omega

end Object

/-! ## Giving room back -/

namespace HeapM

variable {strict : Prop} {h : Heap} {r s : Handle} {c : Cell} {o : Object} {t : Shape} {k : Nat}

/-- What is on the account of a cell can be taken off it. -/
theorem clears_unchargeCell (hc : h.tenant? r.index = some c) (hused : k ≤ h.used) (hsize : k ≤ c.size) :
    Clears strict (fun p => Heap.Swaps r.index { c with size := c.size - k } h p.2 ∧ p.2.used = h.used - k)
      (unchargeCell r k h) := by
  refine clears_bind (R := fun p => p.2 = { h with used := h.used - k }) ?_ fun _ h₁ he => ?_
  · unfold uncharge
    rw [if_neg (Nat.not_lt.mpr hused)]
    rfl
  · have he : h₁ = { h with used := h.used - k } := he
    have hcell : h₁.cellAt r.index = .ok c := by
      rw [he]
      exact Heap.cellAt_eq_ok_iff.mpr hc
    refine clears_bind (clears_read (R := fun d => d = c) ?_) fun d h₂ hread => ?_
    · rw [hcell]
      rfl
    · obtain ⟨hd, hh⟩ : d = c ∧ h₂ = h₁ := hread
      rw [hd, if_neg (Nat.not_lt.mpr hsize), hh, he]
      exact ⟨Heap.Swaps.modifyAccount hc (fun c => { c with size := c.size - k }) _, rfl⟩

theorem clears_swapShape (hc : h.cell? s = some c) (hb : c.body = .shape t) (f : Shape → Shape) :
    Clears strict (fun p => Heap.Swaps s.index { c with body := .shape (f t) } h p.2 ∧ p.2.used = h.used)
      (modifyShape s f h) := by
  unfold modifyShape
  rw [Heap.shape?_eq_some_iff.mpr ⟨c, hc, hb⟩]
  have hswap : Heap.Swaps s.index _ h (h.modifyShapeAt s.index f) :=
    Heap.Swaps.modifyCell (Heap.tenant?_of_cell? hc) _
  rw [hb] at hswap
  exact ⟨hswap, rfl⟩

theorem clears_swapObject (hc : h.cell? r = some c) (hb : c.body = .object o) (f : Object → Object) :
    Clears strict (fun p => Heap.Swaps r.index { c with body := .object (f o) } h p.2 ∧ p.2.used = h.used)
      (modifyObject r f h) := by
  unfold modifyObject
  rw [Heap.object?_eq_some_iff.mpr ⟨c, hc, hb⟩]
  have hswap : Heap.Swaps r.index _ h (h.modifyObjectAt r.index f) :=
    Heap.Swaps.modifyCell (Heap.tenant?_of_cell? hc) _
  rw [hb] at hswap
  exact ⟨hswap, rfl⟩

end HeapM

namespace Heap

variable {h h₁ h₂ h₃ h' : Heap} {b : Terms} {n i j : Nat} {c c₁ c' d d₁ d' : Cell}

/-- Two cells change in turn, and then both again: together they give something back. -/
theorem Pays.of_refund (hp : h.Pays b n) (hne : i ≠ j) (hc : h.tenant? i = some c)
    (hd : h.tenant? j = some d) (e₁ : Swaps i c₁ h h₁) (e₂ : Swaps j d₁ h₁ h₂) (e₃ : Swaps i c' h₂ h₃)
    (e₄ : Swaps j d' h₃ h') (hused : h'.used + c.size + d.size = h.used + c'.size + d'.size)
    (hcle : c'.size ≤ c.size) (hdle : d'.size ≤ d.size) (hcarry : c.Carries c') (hcarry' : d.Carries d')
    (hmeets : c'.Meets (b.shapes i) (b.objects i)) (hmeets' : d'.Meets (b.shapes j) (b.objects j)) :
    h'.Pays b n := by
  have hcovered := hp.covered
  have hsize := le_total (f := (·.size)) hc
  -- the heap where the one cell has changed for good, and the other not yet
  have hswap := Swaps.modifyAccount hc (fun _ => c') (h.used + c'.size - c.size)
  have hswap' : Swaps j d' (({ h with used := h.used + c'.size - c.size } : Heap).modifyCell i fun _ => c')
      h' := by
    refine ⟨fun k => ?_, fun k => ?_, ?_, ?_, ?_⟩
    · rw [e₄.tenant, e₃.tenant, e₂.tenant, e₁.tenant, hswap.tenant]
      by_cases hj : j = k
      · rw [if_pos hj, if_pos hj]
      · rw [if_neg hj, if_neg hj, if_neg hj]
        by_cases hi : i = k
        · rw [if_pos hi, if_pos hi]
        · rw [if_neg hi, if_neg hi, if_neg hi]
    · rw [e₄.frees, e₃.frees, e₂.frees, e₁.frees, hswap.frees]
    · rw [e₄.frames, e₃.frames, e₂.frames, e₁.frames, hswap.frames]
    · rw [e₄.liveCells, e₃.liveCells, e₂.liveCells, e₁.liveCells, hswap.liveCells]
    · rw [e₄.config, e₃.config, e₂.config, e₁.config, hswap.config]
  have hfirst := hp.of_change hc hswap (by simp only [modifyCell]; omega)
    (.inl (by simp only [modifyCell]; omega)) hcarry hmeets
  refine hfirst.of_change ?_ hswap' (by simp only [modifyCell]; omega) (.inl (by simp only [modifyCell]; omega))
    hcarry' hmeets'
  rw [hswap.tenant, if_neg hne]
  exact hd

end Heap

namespace AllocM

open HeapM

variable {strict : Prop} {h start : Heap} {exact : Prop} {n k l : Nat} {r s : Handle} {o : Object}
  {t : Shape} {x : Ledger} {kept : List (Entry × Property)} {c d : Cell}

/-- The entries that are kept are those that are no holes. -/
theorem map_fst_withoutHoles (hfits : t.entries.size = o.properties.size)
    (hkept : withoutHoles (t.entries.toList.zip o.properties.toList) = some kept) :
    kept.map (·.1) = t.entries.toList.filter fun e => !e.atom.isNull := by
  have hfst : (t.entries.toList.zip o.properties.toList).map (·.1) = t.entries.toList :=
    List.map_fst_zip (by simp [hfits])
  conv_rhs => rw [← hfst]
  rw [withoutHoles_eq_filter hkept, List.filter_map]
  rfl

/-- The last steps of a compaction: shape and object lose their holes, and then give back what they no
longer need. -/
theorem clears_squeeze (hp : h.Pays (.plain strict start exact) n) (ho : h.object? r = some o)
    (ht : h.shape? s = some t) (hfits : t.entries.size = o.properties.size)
    (hkept : withoutHoles (t.entries.toList.zip o.properties.toList) = some kept) :
    Clears strict (fun q => q.2.Pays (.plain strict start exact) n) ((do
      modifyShape s (·.compact (kept.map (·.1)).toArray)
      modifyObject r fun o =>
        { o with properties := (kept.map (·.2)).toArray, capacity := t.compactCapacity }
      unchargeCell s (Size.shape t.capacity t.buckets.size - Size.shape t.compactCapacity t.compactBuckets)
      unchargeCell r ((o.capacity - t.compactCapacity) * Size.property) : AllocM Unit).run h) := by
  obtain ⟨d, hd, hb'⟩ := Heap.object?_eq_some_iff.mp ho
  obtain ⟨c, hc, hb⟩ := Heap.shape?_eq_some_iff.mp ht
  have htr := Heap.tenant?_of_cell? hd
  have hts := Heap.tenant?_of_cell? hc
  have hso : o.Sized d.size := (hp.cells _ d htr).object o hb'
  have hss : t.Sized exact c.size := (hp.cells _ c hts).shape t hb
  have hne : s.index ≠ r.index := by
    intro hi
    rw [hi, htr] at hts
    cases hts
    rw [hb'] at hb
    cases hb
  have hcompact := hss.compact (map_fst_withoutHoles hfits hkept)
  have hlength : kept.length ≤ t.compactCapacity := by
    have hroom := hcompact.room
    simpa [Shape.compact] using hroom
  have hshrinks := hso.shrinks hss hfits
  have hshape := hshrinks.shape_le hss
  have hobject := hshrinks.object_add
  rw [← hss.bytes]
  have hpaid := hso.bytes
  have hcovered := hp.covered
  have hboth := Heap.add_le_total (f := (·.size)) hne hts htr
  generalize hk : c.size - Size.shape t.compactCapacity t.compactBuckets = k
  generalize (o.capacity - t.compactCapacity) * Size.property = l at hobject ⊢
  refine clears_lift_bind (clears_swapShape hc hb _) fun _ h₁ hsw₁ => ?_
  obtain ⟨e₁, hu₁⟩ := hsw₁
  have hd₁ : h₁.cell? r = some d := by
    rw [Heap.cell?_congr (h := h) ((e₁.tenant _).trans (if_neg hne)) (e₁.frees _)]
    exact hd
  refine clears_lift_bind (clears_swapObject hd₁ hb' _) fun _ h₂ hsw₂ => ?_
  obtain ⟨e₂, hu₂⟩ := hsw₂
  dsimp only at hu₁ hu₂
  have hts₂ : h₂.tenant? s.index = some { c with body := .shape (t.compact (kept.map (·.1)).toArray) } := by
    rw [e₂.tenant, if_neg (Ne.symm hne), e₁.tenant, if_pos rfl]
  refine clears_lift_bind (clears_unchargeCell (k := k) hts₂ (by omega) (by dsimp only; omega))
    fun _ h₃ hsw₃ => ?_
  obtain ⟨e₃, hu₃⟩ := hsw₃
  dsimp only at hu₃
  have htr₃ : h₃.tenant? r.index = some { d with body := .object { o with
      properties := (kept.map (·.2)).toArray, capacity := t.compactCapacity } } := by
    rw [e₃.tenant, if_neg hne, e₂.tenant, if_pos rfl]
  refine clears_lift ((clears_unchargeCell (k := l) htr₃ (by omega) (by dsimp only; omega)).mono
    fun q hsw₄ => ?_)
  obtain ⟨e₄, hu₄⟩ := hsw₄
  refine hp.of_refund hne hts htr e₁ e₂ e₃ e₄ (by dsimp only; omega) (Nat.sub_le _ _) (Nat.sub_le _ _)
    (.of_other fun _ h => by cases h) (fun o' ho' => ?_)
    ⟨fun t' ht' => ?_, fun _ h => by cases h⟩ ⟨fun _ h => (by cases h), fun o' ho' => ?_⟩
  · cases ho'
    exact ⟨o, hb', rfl, by dsimp only; omega⟩
  · cases ht'
    have hleft : c.size - k = Size.shape t.compactCapacity t.compactBuckets := by omega
    dsimp only
    rw [hleft]
    exact hcompact
  · cases ho'
    refine ⟨by dsimp only; omega, Nat.le_max_left _ _, ?_⟩
    simpa using hlength

/-- An object gets a shape of its own, which it fits. -/
theorem clears_ownShape (hp : h.Pays (.plain strict start exact) n) (hv : h.Valid x) :
    Clears strict (fun q => q.2.Pays (.plain strict start exact) n ∧
      ∀ s, q.1 = .ok s → ∃ o t₀ t, Heap.TakesOver x r s o t₀ t h q.2) ((ownShape r).run h) := by
  refine (Stays.ownShape r n h hp).known.mono fun q hq => ⟨hq.1, fun s hs => ?_⟩
  obtain ⟨res, h₁⟩ := q
  rcases hv.of_ownShape hq.2 with ⟨s', o, t₀, t, hres, htake⟩ | ⟨⟨_, hres⟩, _⟩
  · cases hres.symm.trans hs
    exact ⟨o, t₀, t, htake⟩
  · cases hres.symm.trans hs

theorem clears_compactProperties (hp : h.Pays (.plain strict start exact) n) (hv : h.Valid x) (r : Handle) :
    Clears strict (fun q => q.2.Pays (.plain strict start exact) n) ((compactProperties r).run h) := by
  refine clears_bind (clears_ownShape hp hv) (fun s h₁ hown => ?_) fun _ _ hown => hown.1
  obtain ⟨hp₁, htake⟩ := hown
  obtain ⟨o₀, t₀, t, htake⟩ := htake s rfl
  refine clears_lift_bind (clears_shape _ h₁ s) fun t' h₂ hread => ?_
  obtain ⟨ht, rfl⟩ := hread
  refine clears_lift_bind (clears_object _ h₂ r) fun o h₃ hread => ?_
  obtain ⟨ho, rfl⟩ := hread
  have hbody := Heap.object?_iff_body?.mp ho
  have hshape : o.shape = s := by
    cases htake.object.symm.trans hbody
    rfl
  have hfits := htake.valid.laid.fits r o t' hbody (by rw [hshape]; exact Heap.shape?_iff_body?.mp ht)
  dsimp only
  rw [Heap.ask_bind]
  split
  · split
    · exact .fault rfl
    · rename_i kept hkept
      exact clears_squeeze hp₁ ho ht hfits hkept
  · exact hp₁

theorem clears_deleteProperty (hp : h.Pays (.plain strict start exact) n) (hv : h.Valid x) (r : Handle)
    (atom : Atom) :
    Clears strict (fun q => q.2.Pays (.plain strict start exact) n) ((deleteProperty r atom).run h) := by
  unfold deleteProperty
  rw [AllocM.get_bind]
  cases hfind : h.findOwn? r atom with
  | none => exact hp
  | some found =>
    obtain ⟨index, flags⟩ := found
    dsimp only
    split
    · exact hp
    · refine clears_bind (clears_ownShape (r := r) hp hv) (fun s h₁ hown => ?_) fun _ _ hown => hown.1
      obtain ⟨hp₁, htake⟩ := hown
      obtain ⟨o, t₀, t, htake⟩ := htake s rfl
      -- the entry that was found is a property, and it is still there
      have hfind : t₀.find? atom = some (index, flags) := by
        simpa [Heap.findOwn?, Heap.findProperty?, Heap.object?_iff_body?.mpr htake.before,
          Heap.shape?_iff_body?.mpr htake.layout] using hfind
      have hentry : t.entries[index]? = some ⟨atom, flags⟩ := by
        rw [htake.unshared.entries]
        exact Shape.getElem?_of_find? hfind
      refine clears_lift_bind (clears_shape _ h₁ s) fun t' h₂ hread => ?_
      obtain ⟨ht, rfl⟩ := hread
      split
      · exact clears_fault_bind rfl _
      · refine clears_lift_bind (R := fun q => q.2.Pays (.plain strict start exact) n ∧
          modifyShape s (·.remove index) h₂ = .ok q) ?_ fun _ h₃ hremove => ?_
        · refine ((clears_modifyShape hp₁ fun t₁ size ht₁ hsized => ?_).mono fun _ hmod => hmod.1).known
          cases htake.shape.symm.trans (Heap.shape?_iff_body?.mp ht₁)
          exact hsized.remove hentry (Shape.isNull_of_find? hfind)
        · obtain ⟨hp₃, e₃⟩ := hremove
          refine clears_lift_bind (clears_shape _ h₃ s) fun t₃ h₄ hread => ?_
          obtain ⟨_, rfl⟩ := hread
          refine clears_lift_bind (HeapM.Stays.replaceProperty r index .undefined n h₄ hp₃).known
            fun old h₅ hreplace => ?_
          refine clears_lift_bind (HeapM.Stays.releaseProperty old n h₅ hreplace.1).known
            fun _ h₆ hrelease => ?_
          obtain ⟨hv₆, _⟩ := htake.of_removal e₃ hreplace.2 hrelease.2
          split
          · refine clears_bind (R := fun q => q.2.Pays (.plain strict start exact) n) ?_ (fun _ _ hp₇ => hp₇)
              fun _ _ hp₇ => hp₇
            exact clears_tryCatch (clears_compactProperties hrelease.1 hv₆ r) (fun _ _ hp₇ => hp₇)
              fun _ _ hp₇ => hp₇
          · exact hrelease.1

end AllocM

/-! ## Growing elements -/

/-- If the cell holds an object in the end it has held one all along.  Its room for elements has not
shrunk, and the size has changed by what the room for properties and for elements has. -/
def Cell.Accrues (c c' : Cell) : Prop := ∀ o', c'.body = .object o' → ∃ o, c.body = .object o ∧
  o.payload.room ≤ o'.payload.room ∧ c'.size + Size.object o.capacity + o.payload.room * Size.value =
    c.size + Size.object o'.capacity + o'.payload.room * Size.value

theorem Cell.Carries.accrues {c c' : Cell} (e : c.Carries c') : c.Accrues c' := by
  intro o' ho'
  obtain ⟨o, ho, hroom, hsize⟩ := e o' ho'
  exact ⟨o, ho, Nat.le_of_eq hroom.symm, by rw [hroom, hsize]⟩

theorem Cell.Accrues.then_carries {c c₁ c' : Cell} (e₁ : c.Accrues c₁) (e₂ : c₁.Carries c') :
    c.Accrues c' := by
  intro o' ho'
  obtain ⟨o₁, ho₁, hroom₁, hsize₁⟩ := e₂ o' ho'
  obtain ⟨o, ho, hroom, hsize⟩ := e₁ o₁ ho₁
  rw [hroom₁]
  exact ⟨o, ho, hroom, by omega⟩

namespace Heap

variable {strict : Prop} {h h₁ h' start : Heap} {exact : Prop} {n i : Nat} {c c' : Cell} {b : Terms}

/-- What one operation does to the accounts: growth was within the limit, an object that stayed paid for
its properties and its elements, and a new one paid for its properties only. -/
structure Accrues (h h' : Heap) : Prop where
  within : h'.used ≤ h.used ∨ h.config.allows h'.used = true
  kept : ∀ i c, h.tenant? i = some c → h'.frees i = h.frees i →
    ∃ c', h'.tenant? i = some c' ∧ c.Accrues c'
  made : ∀ i c' o', h'.tenant? i = some c' → c'.body = .object o' →
    h.tenant? i = none ∨ h'.frees i ≠ h.frees i → c'.size = Size.object o'.capacity

theorem Carries.accrues (e : Carries h h') : Accrues h h' := by
  refine ⟨e.within, fun i c hc hf => ?_, e.made⟩
  obtain ⟨c', hc', hcarry⟩ := e.kept i c hc hf
  exact ⟨c', hc', hcarry.accrues⟩

/-- The accounts may be watched anew at any moment. -/
theorem Pays.reopen (hp : h.Pays (.plain strict start exact) n) : h.Pays (.plain strict h exact) n :=
  ⟨hp.covered, hp.count, hp.cells, .refl h⟩

/-- How the heap is set up is not on the accounts. -/
theorem Pays.configure (hp : h.Pays (.plain strict h exact) n) {config : Config} {threshold : Nat}
    {refused : List Request} :
    Pays (.plain strict { h with config := config, threshold := threshold, refused := refused } exact) n
      { h with config := config, threshold := threshold, refused := refused } :=
  ⟨hp.covered, hp.count, hp.cells, .refl _⟩

theorem Accrues.of_same (hs : h'.slots = h.slots) (hu : h'.used = h.used) : Accrues h h' := by
  have ht : ∀ j, h'.tenant? j = h.tenant? j := fun j => by unfold tenant?; rw [hs]
  have hn : ∀ j, h'.frees j = h.frees j := fun j => by unfold Heap.frees; rw [hs]
  refine ⟨.inl (Nat.le_of_eq hu), fun j c hc _ => ⟨c, (ht j).trans hc, Cell.Carries.accrues (.of_same rfl rfl)⟩,
    fun j c' o' hc' _ hnew => ?_⟩
  rcases hnew with hnone | hne
  · rw [ht, hnone] at hc'
    cases hc'
  · exact absurd (hn j) hne

/-- One cell grows, within the limit, and then the accounts go on. -/
theorem Swaps.accrues (hc : h.tenant? i = some c) (hswap : Swaps i c' h h₁)
    (hok : h.config.allows h₁.used = true) (hgrow : c.Accrues c') (e : Carries h₁ h') : Accrues h h' := by
  refine ⟨.inr ?_, fun j d hd hf => ?_, fun j d' o' hd' ho' hnew => ?_⟩
  · rw [← hswap.config] at hok ⊢
    rcases e.within with hle | hok'
    · exact Config.allows_of_le hok hle
    · exact hok'
  · rw [← hswap.frees] at hf
    by_cases hij : i = j
    · subst hij
      rw [hc] at hd
      cases hd
      obtain ⟨c'', hc'', hcarry⟩ := e.kept i c' ((hswap.tenant i).trans (if_pos rfl)) hf
      exact ⟨c'', hc'', hgrow.then_carries hcarry⟩
    · obtain ⟨d', hd', hcarry⟩ := e.kept j d ((hswap.tenant j).trans ((if_neg hij).trans hd)) hf
      exact ⟨d', hd', hcarry.accrues⟩
  · refine e.made j d' o' hd' ho' ?_
    rw [hswap.frees, hswap.tenant]
    refine hnew.imp_left fun hnone => ?_
    rw [if_neg ?_]
    · exact hnone
    · rintro rfl
      rw [hc] at hnone
      cases hnone

end Heap

namespace AllocM

open HeapM

variable {strict : Prop} {h start : Heap} {exact : Prop} {n : Nat} {r : Handle}

/-- The accounts are in order, and have come from those of `h` in one operation. -/
def Settles (strict exact : Prop) (n : Nat) (h h' : Heap) : Prop :=
  h'.Pays (.plain strict h' exact) n ∧ h.Accrues h'

/-- The last steps of a push. -/
theorem Stays.pushElement (r : Handle) (v : Value) (size : Nat) : Stays (.plain strict start exact) (do
    modifyObject r fun o => { o with
      payload := match o.payload with
        | .array elements capacity => .array (elements.push v) capacity
        | p => p }
    setLength r (size + 1) : AllocM Unit) := by
  refine .bind (.lift (.modifyObject r fun o => ⟨rfl, rfl, ?_⟩)) fun _ => .lift (.setLength r _)
  cases o.payload <;> rfl

theorem settles_of_pays {h' : Heap} (hp : h'.Pays (.plain strict h exact) n) : Settles strict exact n h h' :=
  ⟨hp.reopen, hp.since.accrues⟩

/-- An array is charged for room, then it has the room, and then the push goes on. -/
theorem clears_growElements {c : Cell} {o : Object} {es : Array Value} {capacity target : Nat}
    {arrays : List Request} {rest : AllocM Unit} (hp : h.Pays (.plain strict h exact) n) (hc : h.cell? r = some c)
    (hb : c.body = .object o) (hpayload : o.payload = .array es capacity) (hle : capacity ≤ target)
    (v : Value) (hrest : ∀ start, Stays (.plain strict start exact) rest) :
    Clears strict (fun q => Settles strict exact n h q.2) ((do
      try growCell r ((target - capacity) * Size.value) arrays
      catch e =>
        freeValue v
        throw e
      modifyObject r fun o => { o with
        payload := match o.payload with
          | .array elements _ => .array elements target
          | p => p }
      rest).run h) := by
  have ht := Heap.tenant?_of_cell? hc
  generalize hk : (target - capacity) * Size.value = k
  refine clears_bind (R := fun q => match q.1 with
    | .ok _ => Heap.Swaps r.index { c with size := c.size + k } h q.2 ∧ q.2.used = h.used + k ∧
      h.config.allows q.2.used = true
    | .error _ => Settles strict exact n h q.2) ?_ (fun _ h₁ hcharged => ?_) fun _ _ hset => hset
  · refine clears_tryCatch (R := fun q => match q.1 with
      | .ok _ => Heap.Swaps r.index { c with size := c.size + k } h q.2 ∧ q.2.used = h.used + k ∧
        h.config.allows q.2.used = true
      | .error _ => q.2 = h) ?_ (fun _ _ hok => hok) fun err h₁ he => ?_
    · obtain ⟨hok, hrun⟩ | ⟨err, hrun⟩ := Heap.growCell_cases ht k arrays
      · rw [hrun]
        exact ⟨.modifyAccount ht (fun c => { c with size := c.size + k }) _, rfl, hok⟩
      · rw [hrun]
        rfl
    · obtain rfl : h₁ = h := he
      exact clears_lift_bind (HeapM.Stays.freeValue v n h₁ hp) fun _ _ hp₂ => settles_of_pays hp₂
  · obtain ⟨hswap, hused, hok⟩ := hcharged
    dsimp only at hused hok
    have hc₁ : h₁.cell? r = some { c with size := c.size + k } := by
      refine Heap.cell?_eq_some_iff.mpr ⟨(hswap.tenant _).trans (if_pos rfl), ?_⟩
      rw [hswap.frees]
      exact (Heap.cell?_eq_some_iff.mp hc).2
    refine clears_lift_bind (clears_swapObject hc₁ hb _) fun _ h₂ hsw => ?_
    obtain ⟨hswap₂, hused₂⟩ := hsw
    dsimp only at hused₂
    have hsized : o.Sized c.size := (hp.cells _ c ht).object o hb
    have hboth := hswap.again hswap₂
    have hp₂ : h₂.Pays (.plain strict h₂ exact) n := by
      refine hp.anew_of_change ht hboth (by dsimp only; omega) ⟨nofun, fun o' ho' => ?_⟩
      cases ho'
      exact ⟨Nat.le_trans hsized.bytes (Nat.le_add_right _ _), hsized.floor, hsized.room⟩
    refine (hrest h₂ n h₂ hp₂).mono fun q hp₃ => ⟨hp₃.reopen, ?_⟩
    refine hboth.accrues ht (by rw [hused₂]; exact hok) (fun o' ho' => ?_) hp₃.since
    cases ho'
    refine ⟨o, hb, ?_, ?_⟩
    · rw [hpayload]
      exact hle
    · rw [hpayload]
      simp only [Payload.room]
      unfold Size.value at hk ⊢
      omega

theorem clears_arrayPush (hp : h.Pays (.plain strict h exact) n) (r : Handle) (v : Value) :
    Clears strict (fun q => Settles strict exact n h q.2) ((arrayPush r v).run h) := by
  refine clears_lift_bind (R := fun q => ∃ c o es, h.cell? r = some c ∧ c.body = .object o ∧
    o.payload = .array es q.1.2 ∧ q.2 = h) ?_ fun extent h₁ hread => ?_
  · refine HeapM.clears_bind (clears_object _ h r) fun o h₁ hread => ?_
    obtain ⟨ho, rfl⟩ := hread
    obtain ⟨c, hc, hb⟩ := Heap.object?_eq_some_iff.mp ho
    cases hpayload : o.payload with
    | array es capacity => exact ⟨c, o, es, hc, hb, hpayload, rfl⟩
    | ordinary => exact .fault rfl
    | closure bytecode captured home => exact .fault rfl
  · obtain ⟨c, o, es, hc, hb, hpayload, rfl⟩ := hread
    dsimp only
    split
    · have hle : extent.2 ≤ Object.grownCapacity extent.1 extent.2 := by
        unfold Object.grownCapacity
        omega
      exact clears_growElements hp hc hb hpayload hle v fun _ => .pushElement r v _
    · exact (Stays.pushElement r v _ n _ hp).mono fun _ hp' => settles_of_pays hp'

end AllocM

/-! ## Operations -/

namespace Call

variable {α : Type} {b : Terms} {strict : Prop} {h : Heap} {exact : Prop} {n : Nat} {x : Ledger}

/-- The atom of the property a call may add. -/
def adds? : Call → Option Atom
  | addProperty _ atom _ | defineProperty _ atom _ _ | defineAccessor _ atom _ _ _
  | defineCaptured _ atom _ _ | setProperty _ atom _ => some atom
  | _ => none

theorem stays_answer {act : HeapM α} {f : α → Reply} (hact : act.Stays b) : (answer act f).Stays b :=
  .bind hact fun _ => .pure _

theorem clears_attempt {act : AllocM α} {f : α → Reply} {R : Heap → Prop}
    (hact : Clears strict (fun q => R q.2) (act.run h)) : Clears strict (fun q => R q.2) (attempt act f h) := by
  refine HeapM.clears_bind hact fun res h₁ hres => ?_
  cases res with
  | ok a => exact hres
  | error err => exact hres

theorem stays_attempt {act : AllocM α} {f : α → Reply} (hact : act.Stays b) : (attempt act f).Stays b :=
  fun n h hp => clears_attempt (hact n h hp)

/-- Every call keeps the accounts in order. -/
theorem settles (call : Call) (hp : h.Pays (.plain False h exact) n) (hv : h.Valid x)
    (hadds : exact → ∀ atom ∈ call.adds?, atom.isNull = false) :
    Clears False (fun q => AllocM.Settles False exact n h q.2) (call.perform h) := by
  have hanswer : ∀ {α : Type} {act : HeapM α} {f : α → Reply}, act.Stays (.plain False h exact) →
      Clears False (fun q => AllocM.Settles False exact n h q.2) (answer act f h) := fun hact =>
    (stays_answer hact n h hp).mono fun _ hp' => AllocM.settles_of_pays hp'
  have hattempt : ∀ {α : Type} {act : AllocM α} {f : α → Reply}, act.Stays (.plain False h exact) →
      Clears False (fun q => AllocM.Settles False exact n h q.2) (attempt act f h) := fun hact =>
    (stays_attempt hact n h hp).mono fun _ hp' => AllocM.settles_of_pays hp'
  have hatom : ∀ {atom : Atom}, call.adds? = some atom → exact → atom.isNull = false :=
    fun hsome hex => hadds hex _ hsome
  cases call with
  | retain r => exact hanswer (.retain r)
  | release r => exact hanswer (.release r)
  | dupValue v => exact hanswer (.dupValue v)
  | freeValue v => exact hanswer (.freeValue v)
  | root r => exact hanswer (.root r)
  | cloneRoot a => exact hanswer (.cloneRoot a)
  | dropRoot a => exact hanswer (.dropRoot a)
  | flushRoots => exact hanswer .flushRoots
  | collect => exact hanswer .collect
  | setMemoryLimit limit => exact ⟨hp.configure, .of_same rfl rfl⟩
  | setThreshold k => exact ⟨hp.configure, .of_same rfl rfl⟩
  | setRefused requests => exact ⟨hp.configure, .of_same rfl rfl⟩
  | shapeForNewObject proto => exact hattempt (.shapeForNewObject proto)
  | addProperty shape atom flags => exact hattempt (.addProperty shape (hatom rfl))
  | prepareUpdate shape => exact hattempt (.prepareUpdate shape)
  | newObject proto => exact hattempt (.newObject proto)
  | newObjectFromShape shape payload => exact hattempt (.newObjectFromShape shape payload)
  | getProperty r atom => exact hanswer (.getProperty r atom)
  | readSlot r offset => exact hanswer (.readSlot r offset)
  | writeSlot r offset v => exact hanswer (.writeSlot r offset v)
  | defineProperty r atom flags v => exact hattempt (.defineOwn r _ _ (hatom rfl))
  | defineAccessor r atom flags getter setter => exact hattempt (.defineAccessor r _ _ _ (hatom rfl))
  | defineCaptured r atom flags a => exact hattempt (.defineOwn r _ _ (hatom rfl))
  | setProperty r atom v => exact hattempt (.setProperty r v (hatom rfl))
  | deleteProperty r atom =>
    exact clears_attempt ((AllocM.clears_deleteProperty hp hv r atom).mono fun _ => AllocM.settles_of_pays)
  | compactProperties r =>
    exact clears_attempt ((AllocM.clears_compactProperties hp hv r).mono fun _ => AllocM.settles_of_pays)
  | setPrototype r proto => exact hattempt (.setPrototype r proto)
  | preventExtensions r => exact hanswer (.preventExtensions r)
  | newArray ctx => exact hattempt (.newArray ctx)
  | arrayPush r v => exact clears_attempt (AllocM.clears_arrayPush hp r v)
  | newBytecode name realm pool => exact hattempt (.newBytecode name realm pool)
  | newClosure proto bytecode captured home => exact hattempt (.newClosure proto bytecode captured home)
  | newSuspension receiver values resolve reject =>
    exact hattempt (.newSuspension receiver values resolve reject)
  | finishSuspension r => exact hanswer (.finishSuspension r)
  | newRealm => exact hattempt .newRealm
  | pushFrame locals =>
    exact clears_attempt ((AllocM.clears_pushFrame hp hv.sound.coherent.bound.tidy locals).mono fun _ =>
      AllocM.settles_of_pays)
  | getLocal id slot => exact hanswer (.getLocal id slot)
  | setLocal id slot v => exact hanswer (.setLocal id slot v)
  | captureVariable id slot => exact hattempt (.captureVariable id slot)
  | popFrame id => exact hanswer (.popFrame id)
  | newVariable v => exact hattempt (.newVariable v)
  | getVariable r => exact hanswer (.getVariable r)
  | setVariable r v => exact hanswer (.setVariable r v)

end Call

namespace Operation

variable {h : Heap} {exact : Prop} {n : Nat} {x : Ledger}

/-- The atom of the property an operation may add. -/
def adds? : Operation → Option Atom
  | call c => c.adds?
  | get _ _ _ => none
  | set _ _ atom _ => some atom

/-- Every operation keeps the accounts in order. -/
theorem settles (op : Operation) (hp : h.Pays (.plain False h exact) n) (hv : h.Valid x)
    (hadds : exact → ∀ atom ∈ op.adds?, atom.isNull = false) :
    Clears False (fun q => AllocM.Settles False exact n h q.2) (op.perform h) := by
  cases op with
  | call c => exact c.settles hp hv hadds
  | get cache r atom =>
    refine HeapM.clears_bind (HeapM.Stays.getCached cache r atom n h hp) fun _ _ hp' => ?_
    exact AllocM.settles_of_pays hp'
  | set cache r atom v =>
    have hset := AllocM.Stays.setCached cache r v (fun hex => hadds hex atom rfl) n h hp
    refine HeapM.clears_bind hset fun res h₁ hp' => ?_
    obtain ⟨res, cache'⟩ := res
    cases res with
    | ok done => exact AllocM.settles_of_pays hp'
    | error err => exact AllocM.settles_of_pays hp'

end Operation

/-! ## Runs -/

namespace Heap

/-- Number of elements an object has accounted room for; zero if the handle names no object. -/
def elementRoom (h : Heap) (r : Handle) : Nat :=
  match h.object? r with
  | some o => o.payload.room
  | none => 0

variable {h h' : Heap} {r : Handle} {c c' : Cell} {o : Object}

theorem elementRoom_eq (hc : h.cell? r = some c) (hb : c.body = .object o) :
    h.elementRoom r = o.payload.room := by
  unfold elementRoom
  rw [object?_eq_some_iff.mpr ⟨c, hc, hb⟩]

theorem pays_new (config : Config) (strict exact : Prop) :
    (new config).Pays (.plain strict (new config) exact) 0 :=
  ⟨Nat.le_refl _, rfl, fun i c hc => by simp [tenant?, new] at hc, .refl _⟩

/-- A handle that names a new object names one that has paid for its properties only. -/
theorem Accrues.made_of_handle (e : Accrues h h') (hnew : h.contains r = false) (hc : h'.cell? r = some c)
    (hb : c.body = .object o) : c.size = Size.object o.capacity := by
  obtain ⟨ht, hg⟩ := cell?_eq_some_iff.mp hc
  refine e.made r.index c o ht hb ?_
  by_contra hold
  obtain ⟨hsome, hfrees⟩ := not_or.mp hold
  obtain ⟨d, hd⟩ := Option.ne_none_iff_exists'.mp hsome
  have hlive : h.cell? r = some d := cell?_eq_some_iff.mpr ⟨hd, by rw [← not_not.mp hfrees]; exact hg⟩
  rw [contains, hlive] at hnew
  cases hnew

end Heap

namespace Client

variable {config : Config} {h : Heap} {x : Ledger} {born : Handle → Nat}

/-- The accounts are in order after every run, and to the last hole if no null atom was added. -/
theorem Noted.pays {γ : Type} {asks : Heap → Operation → Prop}
    {note : Heap → Operation → Reply → Heap → γ → γ} {first g : γ} {exact : Prop}
    (hadds : exact → ∀ h op, asks h op → ∀ atom ∈ op.adds?, atom.isNull = false)
    (hr : Noted asks note first config h x g) : h.Pays (.plain False h exact) 0 := by
  refine Noted.invariant (P := fun h _ => h.Pays (.plain False h exact) 0)
    (Heap.pays_new config False exact) ?_ hr
  intro h h' y g reply op hv _ ha e hpays
  exact ((op.settles hpays hv fun hex => hadds hex h op ha).of_ok e).1

/-- The accounts are in order after every run. -/
theorem Reached.pays {allowed : Operation → Prop} (hr : Reached allowed config h x) :
    h.Pays (.plain False h False) 0 := by
  induction hr with
  | start => exact Heap.pays_new config False False
  | next hr op _ _ e ih =>
    obtain ⟨lost, _, hv⟩ := hr.valid
    exact ((op.settles ih hv False.elim).of_ok e).1

/-- Runs of a client that keeps its books, with the room for elements that every object was made with. -/
abbrev Recorded (config : Config) : Heap → Ledger → (Handle → Nat) → Prop :=
  Noted (fun _ _ => True) (fun h _ _ h' born r => if h.contains r then born r else h'.elementRoom r)
    (fun _ => 0) config

/-- The accounts of a run are in order, and every object has paid for the elements it has made room for
since it was made. -/
theorem Recorded.accounts (hr : Recorded config h x born) : h.Pays (.plain False h False) 0 ∧
    ∀ r c o, h.cell? r = some c → c.body = .object o →
      born r ≤ o.payload.room ∧ c.size = Size.object o.capacity + (o.payload.room - born r) * Size.value := by
  refine Noted.invariant (P := fun h born => h.Pays (.plain False h False) 0 ∧
    ∀ r c o, h.cell? r = some c → c.body = .object o → born r ≤ o.payload.room ∧
      c.size = Size.object o.capacity + (o.payload.room - born r) * Size.value) ?_ ?_ hr
  · exact ⟨Heap.pays_new config False False, fun r c o hc => by simp [Heap.cell?, Heap.new] at hc⟩
  · rintro h h' y born reply op hv _ _ e ⟨hpays, hborn⟩
    obtain ⟨hpays', haccrues⟩ := (op.settles hpays hv False.elim).of_ok e
    refine ⟨hpays', fun r c' o' hc' ho' => ?_⟩
    cases hlive : h.contains r with
    | false =>
      have hmade := haccrues.made_of_handle hlive hc' ho'
      simp only [hlive, Bool.false_eq_true, if_false, Heap.elementRoom_eq hc' ho']
      exact ⟨Nat.le_refl _, by simp [hmade]⟩
    | true =>
      -- the handle has named the object all along
      obtain ⟨c, hc⟩ := Heap.contains_iff.mp hlive
      obtain ⟨d, hd, hgrow⟩ := haccrues.kept r.index c (Heap.tenant?_of_cell? hc)
        ((op.evolves e).frees_of_live hc hc' (by decide))
      rw [Heap.tenant?_of_cell? hc'] at hd
      cases hd
      obtain ⟨o, ho, hroom, hsize⟩ := hgrow o' ho'
      obtain ⟨hle, hbytes⟩ := hborn r c o hc ho
      simp only [hlive, if_true]
      refine ⟨Nat.le_trans hle hroom, ?_⟩
      unfold Size.value at hsize hbytes ⊢
      omega

/-- Every byte on the account is for something that is there.  The account is the sum of the sizes of the
cells and the frames; a shape is worth its entries and its buckets, and an object its properties and the
elements it has made room for since it was made.  So compaction never takes more off than there is, also
after a removal; no operation ends in a subtraction below zero, and none brings the account above the
limit. -/
theorem accounts_exact (hr : Recorded config h x born) :
    h.used = h.total (·.size) + h.frames.total (·.size) ∧
    (∀ r c s, h.cell? r = some c → c.body = .shape s →
      c.size = 128 + 12 * s.capacity + 4 * s.buckets.size) ∧
    (∀ r c o, h.cell? r = some c → c.body = .object o → born r ≤ o.payload.room ∧
      c.size = 128 + 32 * o.capacity + 24 * (o.payload.room - born r)) ∧
    (∀ r o t, h.object? r = some o → h.shape? o.shape = some t → o.Shrinks t ∧
      ∀ atom i flags, t.find? atom = some (i, flags) → o.Shrinks (t.remove i)) ∧
    (∀ op : Operation, op.Permitted x h → op.perform h ≠ .error .arithmetic) ∧
    ∀ (op : Operation) reply h', op.Permitted x h → op.perform h = .ok (reply, h') →
      h'.used ≤ h.used ∨ h.config.allows h'.used = true := by
  obtain ⟨lost, _, hv⟩ := hr.reached.valid
  obtain ⟨hpays, hborn⟩ := hr.accounts
  have hclears := fun op : Operation => op.settles hpays hv False.elim
  refine ⟨hv.sound.coherent.accounted.used, fun r c s hc hb => ?_, fun r c o hc hb => ?_, fun r o t ho ht => ?_,
    fun op _ => (hclears op).ne_arithmetic, fun op reply h' _ e => ((hclears op).of_ok e).2.within⟩
  · have hsized : s.Sized False c.size := (hpays.cells _ c (Heap.tenant?_of_cell? hc)).shape s hb
    have hbytes := hsized.bytes
    unfold Size.shape Size.cell Size.entry Size.bucket at hbytes
    omega
  · obtain ⟨hle, hbytes⟩ := hborn r c o hc hb
    unfold Size.object Size.cell Size.property Size.value at hbytes
    exact ⟨hle, by omega⟩
  · obtain ⟨d, hd, hbd⟩ := Heap.object?_eq_some_iff.mp ho
    obtain ⟨c, hc, hbc⟩ := Heap.shape?_eq_some_iff.mp ht
    have hso : o.Sized d.size := (hpays.cells _ d (Heap.tenant?_of_cell? hd)).object o hbd
    have hst : t.Sized False c.size := (hpays.cells _ c (Heap.tenant?_of_cell? hc)).shape t hbc
    have hfits := hv.laid.fits r o t (Heap.object?_iff_body?.mp ho) (Heap.shape?_iff_body?.mp ht)
    refine ⟨hso.shrinks hst hfits, fun atom i flags hfind => ?_⟩
    exact hso.shrinks (hst.remove (Shape.getElem?_of_find? hfind) (Shape.isNull_of_find? hfind)) (by
      simpa [Shape.remove] using hfits)

/-- The client makes an array of one element and pushes another: the array was made with room for one and
has paid for the room of the second. -/
theorem accounts_exact_push : ∃ h x born, Recorded .default h x born ∧ born ⟨1, 0⟩ = 1 ∧
    ∃ c o, h.cell? ⟨1, 0⟩ = some c ∧ c.body = .object o ∧ o.payload.room = 2 ∧
      c.size = 128 + 32 * o.capacity + 24 * (o.payload.room - born ⟨1, 0⟩) := by
  obtain ⟨⟨reply₁, h₁⟩, e₁, hrest⟩ := ok_of_test (x := (Call.shapeForNewObject none).perform (.new .default))
    (t := fun p => decide (p.1 = .handle ⟨0, 0⟩ ∧ p.2.contains ⟨1, 0⟩ = false) &&
      passes ((Call.newObjectFromShape ⟨0, 0⟩ (.ofElements #[.smi 7])).perform p.2) fun p =>
        decide (p.1 = .handle ⟨1, 0⟩ ∧ p.2.contains ⟨1, 0⟩ = true ∧ p.2.elementRoom ⟨1, 0⟩ = 1) &&
          passes ((Call.arrayPush ⟨1, 0⟩ (.smi 8)).perform p.2) fun p =>
            decide (p.1 = .done ∧ (p.2.object? ⟨1, 0⟩).isSome ∧ p.2.elementRoom ⟨1, 0⟩ = 2))
    (by decide +kernel)
  obtain ⟨hfacts, hrest⟩ := Bool.and_eq_true_iff.mp hrest
  obtain ⟨rfl, hfree⟩ := of_decide_eq_true hfacts
  obtain ⟨⟨reply₂, h₂⟩, e₂, hrest⟩ := ok_of_test hrest
  obtain ⟨hfacts, hrest⟩ := Bool.and_eq_true_iff.mp hrest
  obtain ⟨rfl, hlive, hroom₂⟩ := of_decide_eq_true hfacts
  obtain ⟨⟨reply₃, h₃⟩, e₃, hfacts⟩ := ok_of_test hrest
  obtain ⟨rfl, hsome, hroom₃⟩ := of_decide_eq_true hfacts
  have hstart : Recorded .default (.new .default) .empty fun _ => 0 := .start
  have hr₁ := hstart.next (.call (.shapeForNewObject none)) trivial (.of_nothing rfl rfl) e₁
  have hr₂ := hr₁.next (.call (.newObjectFromShape ⟨0, 0⟩ (.ofElements #[.smi 7]))) trivial
    ⟨?_, List.forall_mem_nil _⟩ e₂
  · have hr₃ := hr₂.next (.call (.arrayPush ⟨1, 0⟩ (.smi 8))) trivial (.of_nothing rfl rfl) e₃
    obtain ⟨o, ho⟩ := Option.isSome_iff_exists.mp hsome
    obtain ⟨c, hc, hb⟩ := Heap.object?_eq_some_iff.mp ho
    rw [Heap.elementRoom_eq hc hb] at hroom₃
    refine ⟨h₃, _, _, hr₃, ?_, c, o, hc, hb, hroom₃, ((accounts_exact hr₃).2.2.1 _ c o hc hb).2⟩
    simp only [hlive, hfree, if_true, Bool.false_eq_true, if_false]
    exact hroom₂
  · intro r
    have hnone : (Payload.ofElements #[.smi 7]).refs = [] := rfl
    simp [Operation.settle, Operation.consumed, Operation.gained, Call.consumed, Call.gained, Reply.refs,
      hnone, Ledger.minus]

end Client

end ObjectMemory
