import ObjectMemory.Proofs.Edges
set_option autoImplicit false

/-!
# Finding the garbage

The three passes that come before removal only move counts, marks and places.  Each is a fold over
slots whose invariant tells the counts from the edges walked so far:

* in trial deletion, `Heap.Trialled`: the edges walked are missing from the counts, and a visited cell
  is a candidate when nothing is left of its count;
* in rescue, `Heap.Rescuing`: only the edges walked are in the counts, and the cells with a count are
  those that were visited or wait to be;
* in restoring, `Heap.Restoring`: as in rescue, with no cell changing its place any more.

Together they leave every count as it was and make candidates of exactly the tracked cells that no
walk from outside reaches (`Heap.Sifted`).
-/

namespace ObjectMemory.Heap

variable {h₀ h h₁ h' : Heap} {c : Cell} {i j : Nat} {done taken ks found : List Nat}

/-! ## Trial deletion -/

/-- The cells of `done` have been visited, and the edges of `taken` are out of the counts. -/
structure Trialled (h₀ : Heap) (done taken : List Nat) (st : Heap × List Nat) : Prop where
  shadows : Shadows h₀ st.1
  count : ∀ i, st.1.countAt i + taken.count i = h₀.countAt i
  mark : ∀ i, st.1.markAt i = decide (i ∈ done)
  place : ∀ i, st.1.placeAt? i =
    if i ∈ done ∧ st.1.countAt i = 0 then some .candidate else h₀.placeAt? i
  nodup : st.2.Nodup
  found : ∀ i, i ∈ st.2 ↔ i ∈ done ∧ st.1.countAt i = 0

namespace Trialled

variable {st : Heap × List Nat} {c' : Cell} {k : Nat}

/-- An edge that is out is missing from the count of its end, whatever else becomes of that cell. -/
theorem count_of_edge (ht : Trialled h₀ done taken (h, found)) (hc : h.tenant? k = some c)
    (hpos : c.refCount ≠ 0) (hu : Updates (h.handle k) (some c') h h')
    (hless : c'.refCount = c.refCount - 1) (i : Nat) :
    h'.countAt i + (taken ++ [k]).count i = h₀.countAt i := by
  have hi : h.countAt i + taken.count i = h₀.countAt i := ht.count i
  have hck := countAt_of_tenant hc
  rw [hu.countAt, index_handle]
  by_cases hik : i = k
  · subst hik
    rw [if_pos rfl, List.count_append, List.count_singleton_self]
    omega
  · rw [if_neg hik]
    simpa [Ne.symm hik] using hi

/-- A visited cell that loses the last of its count becomes a candidate. -/
theorem edge_last (ht : Trialled h₀ done taken (h, found)) (hc : h.tenant? k = some c)
    (hlast : c.refCount = 1) (hmarked : c.mark = true) (hsh : Shadows h₀ h')
    (hu : Updates (h.handle k) (some { c with refCount := c.refCount - 1, place := .candidate }) h h') :
    Trialled h₀ done (taken ++ [k]) (h', k :: found) := by
  have hcell : h.cell? (h.handle k) = some c := by rw [cell?_handle, hc]
  have hcount : ∀ j, h'.countAt j = if j = k then c.refCount - 1 else h.countAt j := hu.countAt
  have hplace : ∀ j, h'.placeAt? j = if j = k then some .candidate else h.placeAt? j := hu.placeAt?
  have hdone : k ∈ done := by
    have hk : h.markAt k = decide (k ∈ done) := ht.mark k
    rw [markAt_of_tenant hc, hmarked] at hk
    simpa using hk
  refine ⟨hsh, ht.count_of_edge hc (by omega) hu rfl,
    fun j => (hu.markAt_same hcell rfl j).trans (ht.mark j), fun j => ?_,
    List.nodup_cons.mpr ⟨fun hmem => ?_, ht.nodup⟩, fun j => ?_⟩
  · rw [hplace, hcount]
    by_cases hj : j = k
    · subst hj
      rw [if_pos rfl, if_pos rfl, if_pos ⟨hdone, by omega⟩]
    · rw [if_neg hj, if_neg hj]
      exact ht.place j
  · have hk : h.countAt k = 0 := ((ht.found k).mp hmem).2
    rw [countAt_of_tenant hc, hlast] at hk
    cases hk
  · rw [List.mem_cons, ht.found, hcount]
    by_cases hj : j = k
    · subst hj
      simp [hdone, hlast]
    · simp [hj]

/-- Any other cell has some of its count left, or has not been visited. -/
theorem edge_left (ht : Trialled h₀ done taken (h, found)) (hc : h.tenant? k = some c)
    (hpos : c.refCount ≠ 0) (hnot : ¬ (c.refCount = 1 ∧ c.mark = true)) (hsh : Shadows h₀ h')
    (hu : Updates (h.handle k) (some { c with refCount := c.refCount - 1 }) h h') :
    Trialled h₀ done (taken ++ [k]) (h', found) := by
  have hcell : h.cell? (h.handle k) = some c := by rw [cell?_handle, hc]
  have hcount : ∀ j, h'.countAt j = if j = k then c.refCount - 1 else h.countAt j := hu.countAt
  have hkeep : ∀ j, (j ∈ done ∧ h'.countAt j = 0) ↔ j ∈ done ∧ h.countAt j = 0 := by
    intro j
    rw [hcount]
    by_cases hj : j = k
    · subst hj
      rw [if_pos rfl, countAt_of_tenant hc]
      constructor
      · rintro ⟨hd, hz⟩
        have hm : h.markAt j = decide (j ∈ done) := ht.mark j
        rw [markAt_of_tenant hc] at hm
        exact absurd ⟨by omega, by simpa [hm] using hd⟩ hnot
      · rintro ⟨_, hz⟩
        exact absurd hz hpos
    · rw [if_neg hj]
  refine ⟨hsh, ht.count_of_edge hc hpos hu rfl, fun j => (hu.markAt_same hcell rfl j).trans (ht.mark j),
    fun j => ?_, ht.nodup, fun j => ?_⟩
  · rw [hu.placeAt?_same hcell rfl]
    simp only [hkeep]
    exact ht.place j
  · rw [hkeep]
    exact ht.found j

/-- An edge can be taken out as long as its end has a count. -/
theorem edge (ht : Trialled h₀ done taken st) (hk : (taken ++ [k]).count k ≤ h₀.countAt k) :
    ∃ st', trialEdge st k = .ok st' ∧ Trialled h₀ done (taken ++ [k]) st' := by
  obtain ⟨h, found⟩ := st
  have hpos : h.countAt k ≠ 0 := by
    have hbal : h.countAt k + taken.count k = h₀.countAt k := ht.count k
    simp only [List.count_append, List.count_singleton_self] at hk
    omega
  obtain ⟨c, hc, hck⟩ := tenant_of_countAt hpos
  rw [hck] at hpos
  unfold trialEdge
  dsimp only
  rw [cellAt_eq_ok_iff.mpr hc]
  dsimp only
  rw [if_neg hpos]
  have hcell : h.cell? (h.handle k) = some c := by rw [cell?_handle, hc]
  have hu := Updates.setRefCount hcell (c.refCount - 1)
  have hsh := ht.shadows.setRefCount k (c.refCount - 1)
  by_cases hlast : c.refCount = 1 ∧ c.mark = true
  · rw [if_pos hlast]
    exact ⟨_, rfl, ht.edge_last hc hlast.1 hlast.2 (hsh.setPlace k c.place .candidate)
      (hu.trans (.setPlace hu.cell_self c.place .candidate))⟩
  · rw [if_neg hlast]
    exact ⟨_, rfl, ht.edge_left hc hpos hlast hsh hu⟩

/-- The edges of one cell can be taken out as long as the counts allow. -/
theorem edges (ht : Trialled h₀ done taken st) (hks : ∀ i, (taken ++ ks).count i ≤ h₀.countAt i) :
    ∃ st', ks.foldlM trialEdge st = .ok st' ∧ Trialled h₀ done (taken ++ ks) st' := by
  refine foldlM_of_invariant _ (P := fun half st => Trialled h₀ done (taken ++ half) st)
    (fun half k rest st he ht => ?_) (by simpa using ht)
  have hk := hks k
  rw [he] at hk
  rw [← List.append_assoc]
  refine ht.edge (Nat.le_trans ?_ hk)
  simp only [List.count_append, List.count_cons, List.count_nil]
  omega

/-- A visit marks the cell, and no other. -/
theorem mark_of_visit (ht : Trialled h₀ done taken (h, found))
    (hu : Updates (h.handle k) (some c') h h') (hmarked : c'.mark = true) (i : Nat) :
    h'.markAt i = decide (i ∈ done ++ [k]) := by
  have hi : h.markAt i = decide (i ∈ done) := ht.mark i
  rw [hu.markAt, index_handle]
  by_cases hik : i = k
  · simp [hik, hmarked]
  · simp [hik, hi]

/-- A cell with nothing left of its count becomes a candidate with the visit. -/
theorem visit_spent (ht : Trialled h₀ done taken (h, found)) (hc : h.tenant? k = some c) (hnew : k ∉ done)
    (hzero : c.refCount = 0) (hsh : Shadows h₀ h')
    (hu : Updates (h.handle k) (some { c with mark := true, place := .candidate }) h h') :
    Trialled h₀ (done ++ [k]) taken (h', k :: found) := by
  have hcell : h.cell? (h.handle k) = some c := by rw [cell?_handle, hc]
  have hcount := hu.countAt_same hcell rfl
  have hplace : ∀ j, h'.placeAt? j = if j = k then some .candidate else h.placeAt? j := hu.placeAt?
  have hspent : h.countAt k = 0 := (countAt_of_tenant hc).trans hzero
  refine ⟨hsh, fun j => ?_, ht.mark_of_visit hu rfl, fun j => ?_,
    List.nodup_cons.mpr ⟨fun hmem => hnew ((ht.found k).mp hmem).1, ht.nodup⟩, fun j => ?_⟩
  · rw [hcount]
    exact ht.count j
  · rw [hplace, hcount]
    by_cases hj : j = k
    · subst hj
      rw [if_pos rfl, if_pos ⟨by simp, hspent⟩]
    · rw [if_neg hj]
      simpa [hj] using ht.place j
  · rw [List.mem_cons, ht.found, hcount]
    by_cases hj : j = k
    · subst hj
      simp [hspent]
    · simp [hj]

/-- A cell with some of its count left stays where it is. -/
theorem visit_counted (ht : Trialled h₀ done taken (h, found)) (hc : h.tenant? k = some c) (hnew : k ∉ done)
    (hpos : c.refCount ≠ 0) (hsh : Shadows h₀ h')
    (hu : Updates (h.handle k) (some { c with mark := true }) h h') :
    Trialled h₀ (done ++ [k]) taken (h', found) := by
  have hcell : h.cell? (h.handle k) = some c := by rw [cell?_handle, hc]
  have hcount := hu.countAt_same hcell rfl
  have hsome : h.countAt k ≠ 0 := (countAt_of_tenant hc).symm ▸ hpos
  refine ⟨hsh, fun j => ?_, ht.mark_of_visit hu rfl, fun j => ?_, ht.nodup, fun j => ?_⟩
  · rw [hcount]
    exact ht.count j
  · have hj := ht.place j
    rw [hu.placeAt?_same hcell rfl, hcount]
    by_cases hjk : j = k
    · subst hjk
      simpa [hnew, hsome] using hj
    · simpa [hjk] using hj
  · rw [ht.found, hcount]
    by_cases hj : j = k
    · subst hj
      simp [hnew, hsome]
    · simp [hj]

/-- One cell can be visited. -/
theorem cell (ht : Trialled h₀ done (done.flatMap h₀.kids) st) (hc : h₀.tenant? k = some c)
    (hnew : k ∉ done) (hks : ∀ i, ((done ++ [k]).flatMap h₀.kids).count i ≤ h₀.countAt i) :
    ∃ st', trialCell st k = .ok st' ∧
      Trialled h₀ (done ++ [k]) ((done ++ [k]).flatMap h₀.kids) st' := by
  have hflat : (done ++ [k]).flatMap h₀.kids = done.flatMap h₀.kids ++ h₀.kids k := by simp
  rw [hflat] at hks ⊢
  have hkids := ht.shadows.childrenAt hc
  obtain ⟨⟨h, found⟩, hfold, ht⟩ := ht.edges hks
  obtain ⟨d, hd, _⟩ := ht.shadows.tenant hc
  unfold trialCell
  rw [hkids]
  dsimp only [bind, Except.bind]
  rw [hfold]
  dsimp only
  rw [cellAt_eq_ok_iff.mpr hd]
  dsimp only
  have hcell : h.cell? (h.handle k) = some d := by rw [cell?_handle, hd]
  have hu := Updates.modifyCell hcell fun c => { c with mark := true }
  have hsh := ht.shadows.modifyCell k (g := fun c => { c with mark := true }) fun _ => ⟨rfl, rfl⟩
  by_cases hzero : d.refCount = 0
  · rw [if_pos hzero]
    exact ⟨_, rfl, ht.visit_spent hd hnew hzero (hsh.setPlace k d.place .candidate)
      (hu.trans (.setPlace hu.cell_self d.place .candidate))⟩
  · rw [if_neg hzero]
    exact ⟨_, rfl, ht.visit_counted hd hnew hzero hsh hu⟩

end Trialled

/-- Trial deletion of cells whose counts cover their edges ends with all of them visited. -/
theorem trialDeletion_eq {order : List Nat} (horder : h.liveOrder = order)
    (hlive : ∀ i ∈ order, ∃ c, h.tenant? i = some c)
    (hcover : ∀ i, (order.flatMap h.kids).count i ≤ h.countAt i)
    (hmark : ∀ i, h.markAt i = false) :
    ∃ h' found, h.trialDeletion = .ok (h', found) ∧
      Trialled h order (order.flatMap h.kids) (h', found) := by
  have hnd : order.Nodup := horder ▸ nodup_liveOrder h
  have hstart : Trialled h [] ([].flatMap h.kids) (h, []) :=
    ⟨.refl h, fun i => by simp, fun i => by simp [hmark], fun i => by simp, .nil, fun i => by simp⟩
  have hcell : ∀ done k rest st, order = done ++ k :: rest →
      Trialled h done (done.flatMap h.kids) st → ∃ st', trialCell st k = .ok st' ∧
        Trialled h (done ++ [k]) ((done ++ [k]).flatMap h.kids) st' := by
    intro done k rest st he ht
    obtain ⟨c, hc⟩ := hlive k (by rw [he]; simp)
    refine ht.cell hc (fun hmem => ?_) fun i => Nat.le_trans ?_ (hcover i)
    · rw [he] at hnd
      exact (List.nodup_append.mp hnd).2.2 k hmem k List.mem_cons_self rfl
    · rw [he]
      simp only [List.flatMap_append, List.flatMap_cons, List.count_append, List.flatMap_nil,
        List.count_nil]
      omega
  obtain ⟨⟨h', found⟩, hfold, hsh, hcount, hmark', hplace, hnodup, hfound⟩ :=
    foldlM_of_invariant _ hcell hstart
  dsimp only at hsh hcount hmark' hplace hnodup hfound
  refine ⟨h', found.reverse, ?_, hsh, hcount, hmark', hplace, List.nodup_reverse.mpr hnodup,
    fun i => List.mem_reverse.trans (hfound i)⟩
  unfold trialDeletion
  rw [horder, hfold]
  rfl

/-! ## Rescue -/

/-- Of the tracked cells `order`, those of `done` have been visited and those of `pending` are to be;
the counts are `outside` and the edges `given`, and `Q` holds of every cell with a count. -/
structure Rescuing (h₀ : Heap) (outside : Nat → Nat) (Q : Nat → Prop)
    (order done given pending : List Nat) (h : Heap) : Prop where
  shadows : Shadows h₀ h
  count : ∀ i, h.countAt i = outside i + given.count i
  mark : ∀ i, h.markAt i = true → i ∈ order ∧ i ∉ done
  candidate : ∀ i ∈ order, h.countAt i = 0 → h.placeAt? i = some .candidate
  live : ∀ i ∈ order, h.countAt i ≠ 0 → ∃ t, h.placeAt? i = some (.live t)
  unlisted : ∀ i, i ∉ order → h.placeAt? i = h₀.placeAt? i
  nodup : (done ++ pending).Nodup
  frontier : ∀ i, i ∈ done ++ pending ↔ i ∈ order ∧ h.countAt i ≠ 0
  reached : ∀ i ∈ done ++ pending, Q i

namespace Rescuing

variable {outside : Nat → Nat} {Q : Nat → Prop} {order given pending rest saved : List Nat} {d : Cell} {k : Nat}

theorem of_perm {pending' : List Nat} (hr : Rescuing h₀ outside Q order done given pending h)
    (hp : pending.Perm pending') : Rescuing h₀ outside Q order done given pending' h := by
  have hd : (done ++ pending).Perm (done ++ pending') := hp.append_left done
  exact ⟨hr.shadows, hr.count, hr.mark, hr.candidate, hr.live, hr.unlisted, hd.nodup_iff.mp hr.nodup,
    fun i => hd.mem_iff.symm.trans (hr.frontier i), fun i hi => hr.reached i (hd.mem_iff.mpr hi)⟩

/-- What the counts are to be after one more edge. -/
theorem outside_of_edge (hr : Rescuing h₀ outside Q order done given pending h)
    (k i : Nat) : outside i + (given ++ [k]).count i = if i = k then h.countAt k + 1 else h.countAt i := by
  have hi := hr.count i
  by_cases hik : i = k
  · subst hik
    rw [if_pos rfl, List.count_append, List.count_singleton_self]
    omega
  · rw [if_neg hik]
    simpa [Ne.symm hik] using hi.symm

/-- A candidate is rescued by an edge to it, and waits to be visited. -/
theorem edge_spent (hr : Rescuing h₀ outside Q order done given (rest ++ saved) h)
    (hd : h.tenant? k = some d) (hzero : d.refCount = 0) (hk : k ∈ order) (hq : Q k) {ticket : Nat}
    (hsh : Shadows h₀ h') (hu : Updates (h.handle k)
      (some { d with refCount := 1, mark := false, place := .live ticket }) h h') :
    Rescuing h₀ outside Q order done (given ++ [k]) (rest ++ k :: saved) h' := by
  have hspent : h.countAt k = 0 := (countAt_of_tenant hd).trans hzero
  have hnew : k ∉ done ++ (rest ++ saved) := fun hmem => ((hr.frontier k).mp hmem).2 hspent
  have hperm : (done ++ (rest ++ k :: saved)).Perm (k :: (done ++ (rest ++ saved))) := by
    rw [← List.append_assoc, ← List.append_assoc]
    exact List.perm_middle
  have hcount : ∀ j, h'.countAt j = if j = k then 1 else h.countAt j := hu.countAt
  have hplace : ∀ j, h'.placeAt? j = if j = k then some (.live ticket) else h.placeAt? j := hu.placeAt?
  refine ⟨hsh, fun j => ?_, fun j hj => ?_, fun j hjo hj => ?_, fun j hjo hj => ?_, fun j hj => ?_,
    hperm.nodup_iff.mpr (List.nodup_cons.mpr ⟨hnew, hr.nodup⟩), fun j => ?_, fun j hj => ?_⟩
  · rw [hcount, hr.outside_of_edge, hspent]
  · rw [hu.markAt, index_handle] at hj
    split at hj
    · cases hj
    · exact hr.mark j hj
  · rw [hcount] at hj
    split at hj
    · cases hj
    · rename_i hjk
      rw [hplace, if_neg hjk]
      exact hr.candidate j hjo hj
  · rw [hplace]
    rw [hcount] at hj
    split at hj
    · rename_i hjk
      rw [if_pos hjk]
      exact ⟨_, rfl⟩
    · rename_i hjk
      rw [if_neg hjk]
      exact hr.live j hjo hj
  · have hjk : j ≠ k := fun he => hj (he ▸ hk)
    rw [hplace, if_neg hjk]
    exact hr.unlisted j hj
  · rw [hperm.mem_iff, List.mem_cons, hr.frontier, hcount]
    by_cases hjk : j = k
    · simp [hjk, hk]
    · simp [hjk]
  · rw [hperm.mem_iff, List.mem_cons] at hj
    rcases hj with rfl | hj
    · exact hq
    · exact hr.reached j hj

/-- A cell with a count gets one more. -/
theorem edge_counted (hr : Rescuing h₀ outside Q order done given pending h)
    (hd : h.tenant? k = some d) (hpos : d.refCount ≠ 0) (hsh : Shadows h₀ h')
    (hu : Updates (h.handle k) (some { d with refCount := d.refCount + 1 }) h h') :
    Rescuing h₀ outside Q order done (given ++ [k]) pending h' := by
  have hcell : h.cell? (h.handle k) = some d := by rw [cell?_handle, hd]
  have hdk := countAt_of_tenant hd
  have hcount : ∀ j, h'.countAt j = if j = k then d.refCount + 1 else h.countAt j := hu.countAt
  have hplace := hu.placeAt?_same hcell rfl
  have hsame : ∀ j, h'.countAt j = 0 ↔ h.countAt j = 0 := by
    intro j
    rw [hcount]
    split
    · rename_i hjk
      rw [hjk, hdk]
      omega
    · rfl
  refine ⟨hsh, fun j => ?_, fun j hj => ?_, fun j hjo hj => ?_, fun j hjo hj => ?_, fun j hj => ?_,
    hr.nodup, fun j => ?_, hr.reached⟩
  · rw [hcount, hr.outside_of_edge, hdk]
  · rw [hu.markAt_same hcell rfl] at hj
    exact hr.mark j hj
  · rw [hplace]
    exact hr.candidate j hjo ((hsame j).mp hj)
  · rw [hplace]
    exact hr.live j hjo fun hz => hj ((hsame j).mpr hz)
  · rw [hplace]
    exact hr.unlisted j hj
  · rw [hr.frontier, Ne, Ne, hsame]

/-- An edge to a tracked cell can be put back; a candidate at its end waits to be visited. -/
theorem edge (hr : Rescuing h₀ outside Q order done given (rest ++ saved) h) (hc₀ : h₀.tenant? k = some c)
    (hk : k ∈ order) (hq : Q k) : ∃ h' saved', rescueEdge (h, saved) k = .ok (h', saved') ∧
      Rescuing h₀ outside Q order done (given ++ [k]) (rest ++ saved') h' := by
  obtain ⟨d, hd, _⟩ := hr.shadows.tenant hc₀
  have hcell : h.cell? (h.handle k) = some d := by rw [cell?_handle, hd]
  unfold rescueEdge
  dsimp only
  rw [cellAt_eq_ok_iff.mpr hd]
  dsimp only
  by_cases hzero : d.refCount = 0
  · have hu : Updates (h.handle k) (some { d with refCount := 1, mark := false }) h
        (h.modifyCell k fun c => { c with refCount := 1, mark := false }) :=
      .modifyCell hcell fun c => { c with refCount := 1, mark := false }
    have hsh : Shadows h₀ (h.modifyCell k fun c => { c with refCount := 1, mark := false }) :=
      hr.shadows.modifyCell k fun _ => ⟨rfl, rfl⟩
    rw [if_pos hzero]
    exact ⟨_, _, rfl, hr.edge_spent hd hzero hk hq (hsh.joinLive k d.place)
      (hu.trans (.joinLive hu.cell_self d.place))⟩
  · rw [if_neg hzero]
    exact ⟨_, _, rfl, hr.edge_counted hd hzero (hr.shadows.setRefCount k _) (.setRefCount hcell _)⟩

/-- The edges of one cell can be put back. -/
theorem edges (hr : Rescuing h₀ outside Q order done given (rest ++ saved) h)
    (hks : ∀ k ∈ ks, (∃ c, h₀.tenant? k = some c) ∧ k ∈ order ∧ Q k) :
    ∃ h' saved', ks.foldlM rescueEdge (h, saved) = .ok (h', saved') ∧
      Rescuing h₀ outside Q order done (given ++ ks) (rest ++ saved') h' := by
  obtain ⟨⟨h', saved'⟩, hfold, hr'⟩ := foldlM_of_invariant ks (f := rescueEdge)
    (s := (h, saved))
    (P := fun half st => Rescuing h₀ outside Q order done (given ++ half) (rest ++ st.2) st.1)
    (fun half k tail st he hr => by
      obtain ⟨⟨c, hc⟩, hk, hq⟩ := hks k (by rw [he]; simp)
      obtain ⟨h', saved', hok, hr'⟩ := hr.edge hc hk hq
      exact ⟨(h', saved'), hok, by rw [← List.append_assoc]; exact hr'⟩)
    (by simpa using hr)
  exact ⟨h', saved', hfold, hr'⟩

/-- One cell can be visited. -/
theorem cell (hr : Rescuing h₀ outside Q order done (done.flatMap h₀.kids) (k :: rest ++ saved) h)
    (hlive : ∀ i ∈ order, ∃ c, h₀.tenant? i = some c)
    (hclosed : ∀ j ∈ order, ∀ i ∈ h₀.kids j, i ∈ order ∧ (Q j → Q i)) :
    ∃ h' saved', rescueCell (h, saved) k = .ok (h', saved') ∧
      Rescuing h₀ outside Q order (done ++ [k]) ((done ++ [k]).flatMap h₀.kids) (rest ++ saved') h' := by
  have hmem : k ∈ done ++ (k :: rest ++ saved) := by simp
  have hk := ((hr.frontier k).mp hmem).1
  obtain ⟨c, hc⟩ := hlive k hk
  obtain ⟨d, hd, _⟩ := hr.shadows.tenant hc
  have hcell : h.cell? (h.handle k) = some d := by rw [cell?_handle, hd]
  have hu : Updates (h.handle k) (some { d with mark := false }) h
      (h.modifyCell k fun c => { c with mark := false }) :=
    .modifyCell hcell fun c => { c with mark := false }
  have hsh : Shadows h₀ (h.modifyCell k fun c => { c with mark := false }) :=
    hr.shadows.modifyCell k fun _ => ⟨rfl, rfl⟩
  unfold rescueCell
  dsimp only
  generalize (h.modifyCell k fun c => { c with mark := false }) = h₁ at hu hsh ⊢
  have hcount := hu.countAt_same hcell rfl
  have hplace := hu.placeAt?_same hcell rfl
  have hlist : done ++ [k] ++ (rest ++ saved) = done ++ (k :: rest ++ saved) := by simp
  have hr₁ : Rescuing h₀ outside Q order (done ++ [k]) (done.flatMap h₀.kids) (rest ++ saved) h₁ := by
    refine ⟨hsh, fun j => ?_, fun j hj => ?_, fun j hjo hj => ?_, fun j hjo hj => ?_, fun j hj => ?_,
      hlist ▸ hr.nodup, fun j => ?_, hlist ▸ hr.reached⟩
    · rw [hcount, hr.count]
    · rw [hu.markAt, index_handle] at hj
      split at hj
      · cases hj
      · rename_i hjk
        obtain ⟨hjo, hjd⟩ := hr.mark j hj
        exact ⟨hjo, by simp [hjd, hjk]⟩
    · rw [hplace]
      exact hr.candidate j hjo (hcount j ▸ hj)
    · rw [hplace]
      exact hr.live j hjo (hcount j ▸ hj)
    · rw [hplace]
      exact hr.unlisted j hj
    · rw [hlist, hr.frontier, hcount]
  rw [hsh.childrenAt hc]
  have hflat : (done ++ [k]).flatMap h₀.kids = done.flatMap h₀.kids ++ h₀.kids k := by simp
  rw [hflat]
  refine hr₁.edges fun i hi => ?_
  obtain ⟨hio, hqi⟩ := hclosed k hk i hi
  exact ⟨hlive i hio, hio, hqi (hr.reached k hmem)⟩

/-- The cells that wait can be visited, and those that this rescued wait then. -/
theorem cells {cells : List Nat} (hr : Rescuing h₀ outside Q order done (done.flatMap h₀.kids) cells h)
    (hlive : ∀ i ∈ order, ∃ c, h₀.tenant? i = some c)
    (hclosed : ∀ j ∈ order, ∀ i ∈ h₀.kids j, i ∈ order ∧ (Q j → Q i)) :
    ∃ h' saved, cells.foldlM rescueCell (h, []) = .ok (h', saved) ∧
      Rescuing h₀ outside Q order (done ++ cells) ((done ++ cells).flatMap h₀.kids) saved h' := by
  have hall : ∀ cells done h saved,
      Rescuing h₀ outside Q order done (done.flatMap h₀.kids) (cells ++ saved) h →
      ∃ h' saved', cells.foldlM rescueCell (h, saved) = .ok (h', saved') ∧
        Rescuing h₀ outside Q order (done ++ cells) ((done ++ cells).flatMap h₀.kids) saved' h' := by
    intro cells
    induction cells with
    | nil =>
      intro done h saved hr
      exact ⟨h, saved, rfl, by simpa using hr⟩
    | cons k rest ih =>
      intro done h saved hr
      obtain ⟨h₁, saved₁, hok, hr₁⟩ := hr.cell hlive hclosed
      obtain ⟨h', saved', hrest, hr'⟩ := ih (done ++ [k]) h₁ saved₁ hr₁
      refine ⟨h', saved', by rw [List.foldlM_cons, hok]; exact hrest, ?_⟩
      simpa using hr'
  exact hall cells done h [] (by simpa using hr)

/-- A rescue ends with every cell visited that has a count. -/
theorem run {cells : List Nat} (hr : Rescuing h₀ outside Q order done (done.flatMap h₀.kids) cells h)
    (hlive : ∀ i ∈ order, ∃ c, h₀.tenant? i = some c)
    (hclosed : ∀ j ∈ order, ∀ i ∈ h₀.kids j, i ∈ order ∧ (Q j → Q i)) :
    ∃ h' done', h.rescue cells = .ok h' ∧
      Rescuing h₀ outside Q order done' (done'.flatMap h₀.kids) [] h' := by
  induction hw : h.zeroCounts using Nat.strong_induction_on generalizing h done cells with
  | _ w ih =>
    obtain ⟨h₁, saved, hfold, hr₁⟩ := hr.cells hlive hclosed
    have hlt := zeroCounts_rescueCells hfold
    rw [rescue]
    split
    · rename_i e he
      rw [hfold] at he
      cases he
    · rename_i h₂ he
      rw [hfold] at he
      cases he
      exact ⟨h₁, done ++ cells, rfl, hr₁⟩
    · rename_i h₂ i saved₂ he
      rw [hfold] at he
      cases he
      simp only [List.length_cons, List.length_nil] at hlt
      exact ih h₁.zeroCounts (by omega) (hr₁.of_perm (List.reverse_perm _).symm) rfl

end Rescuing

/-! ## Restoring -/

/-- The edges of `given` have been put back on top of the counts of `h₁`. -/
structure Restoring (h₀ h₁ : Heap) (given : List Nat) (h : Heap) : Prop where
  shadows : Shadows h₀ h
  count : ∀ i, h.countAt i = h₁.countAt i + given.count i
  mark : ∀ i, h.markAt i = h₁.markAt i
  place : ∀ i, h.placeAt? i = h₁.placeAt? i

namespace Restoring

variable {given : List Nat} {k : Nat}

theorem edge (hr : Restoring h₀ h₁ given h) (hc₀ : h₀.tenant? k = some c) :
    ∃ h', restoreEdge h k = .ok h' ∧ Restoring h₀ h₁ (given ++ [k]) h' := by
  obtain ⟨d, hd, _⟩ := hr.shadows.tenant hc₀
  have hcell : h.cell? (h.handle k) = some d := by rw [cell?_handle, hd]
  have hu : Updates (h.handle k) (some { d with refCount := d.refCount + 1 }) h
      (h.setRefCount k (d.refCount + 1)) := .setRefCount hcell _
  have hsh := hr.shadows.setRefCount k (d.refCount + 1)
  unfold restoreEdge
  rw [cellAt_eq_ok_iff.mpr hd]
  dsimp only
  generalize h.setRefCount k (d.refCount + 1) = h' at hu hsh ⊢
  refine ⟨h', rfl, hsh, fun j => ?_, fun j => ?_, fun j => ?_⟩
  · have hj := hr.count j
    have hdk := countAt_of_tenant hd
    rw [hu.countAt, index_handle, List.count_append]
    by_cases hjk : j = k
    · subst hjk
      rw [if_pos rfl, List.count_singleton_self]
      dsimp only
      omega
    · rw [if_neg hjk, hj]
      simp [Ne.symm hjk]
  · rw [hu.markAt_same hcell rfl, hr.mark]
  · rw [hu.placeAt?_same hcell rfl, hr.place]

theorem cell (hr : Restoring h₀ h₁ given h) (hc₀ : h₀.tenant? k = some c)
    (hkids : ∀ i ∈ h₀.kids k, ∃ c, h₀.tenant? i = some c) :
    ∃ h', restoreCell h k = .ok h' ∧ Restoring h₀ h₁ (given ++ h₀.kids k) h' := by
  unfold restoreCell
  rw [hr.shadows.childrenAt hc₀]
  refine foldlM_of_invariant _ (P := fun half h => Restoring h₀ h₁ (given ++ half) h)
    (fun half i rest h he hr => ?_) (by simpa using hr)
  obtain ⟨c, hc⟩ := hkids i (by rw [he]; simp)
  rw [← List.append_assoc]
  exact hr.edge hc

/-- The edges of all garbage can be put back. -/
theorem cells (garbage : List Nat) (hsh : Shadows h₀ h₁)
    (hlive : ∀ k ∈ garbage, (∃ c, h₀.tenant? k = some c) ∧
      ∀ i ∈ h₀.kids k, ∃ c, h₀.tenant? i = some c) :
    ∃ h', garbage.foldlM restoreCell h₁ = .ok h' ∧
      Restoring h₀ h₁ (garbage.flatMap h₀.kids) h' := by
  refine foldlM_of_invariant _ (P := fun done h => Restoring h₀ h₁ (done.flatMap h₀.kids) h)
    (fun done k rest h he hr => ?_) ⟨hsh, fun i => by simp, fun i => rfl, fun i => rfl⟩
  obtain ⟨⟨c, hc⟩, hkids⟩ := hlive k (by rw [he]; simp)
  have hflat : (done ++ [k]).flatMap h₀.kids = done.flatMap h₀.kids ++ h₀.kids k := by simp
  rw [hflat]
  exact hr.cell hc hkids

end Restoring

/-! ## The garbage -/

/-- The slots that walks along edges lead to from the slots with something outside. -/
inductive Leads (h : Heap) (outside : Nat → Nat) : Nat → Prop
  | root {i : Nat} : outside i ≠ 0 → Leads h outside i
  | edge {i j : Nat} : Leads h outside j → i ∈ h.kids j → Leads h outside i

/-- What the passes before removal leave: the heap as it was, with the tracked cells that nothing outside
leads to as candidates. -/
structure Sifted (h : Heap) (outside : Nat → Nat) (garbage : List Nat) (h' : Heap) : Prop where
  shadows : Shadows h h'
  count : ∀ i, h'.countAt i = h.countAt i
  nodup : garbage.Nodup
  mem_iff : ∀ i, i ∈ garbage ↔ i ∈ h.liveOrder ∧ ¬ h.Leads outside i
  candidate : ∀ i ∈ garbage, h'.placeAt? i = some .candidate
  live : ∀ i ∈ h.liveOrder, i ∉ garbage → ∃ t, h'.placeAt? i = some (.live t)
  unlisted : ∀ i, i ∉ h.liveOrder → h'.placeAt? i = h.placeAt? i
  mark : ∀ i, i ∉ garbage → h'.markAt i = false

/-- What a heap must be for its garbage to be found. -/
structure Ready (h : Heap) : Prop where
  unmarked : ∀ i, h.markAt i = false
  sources : ∀ i, h.kids i ≠ [] → i ∈ h.liveOrder
  ends : ∀ j, ∀ i ∈ h.kids j, i ∈ h.liveOrder
  covered : ∀ i, (h.liveOrder.flatMap h.kids).count i ≤ h.countAt i

theorem tenant_of_mem_liveOrder (hi : i ∈ h.liveOrder) : ∃ c, h.tenant? i = some c := by
  obtain ⟨t, ht⟩ := mem_liveOrder.mp hi
  rw [placeAt?_eq] at ht
  obtain ⟨c, hc, _⟩ := Option.map_eq_some_iff.mp ht
  exact ⟨c, hc⟩

section Passes

variable {outside : Nat → Nat} {h₂ : Heap} {given : List Nat} {Q : Nat → Prop}

/-- After trial deletion the counts are what is outside, and the cells with a count wait to be visited. -/
theorem Trialled.rescuing (ht : Trialled h h.liveOrder (h.liveOrder.flatMap h.kids) (h₁, found))
    (hout : ∀ i, outside i + (h.liveOrder.flatMap h.kids).count i = h.countAt i) :
    Rescuing h outside (h.Leads outside) h.liveOrder [] ([].flatMap h.kids) h₁.liveOrder h₁ := by
  have hmark : ∀ i, h₁.markAt i = decide (i ∈ h.liveOrder) := ht.mark
  have hplace : ∀ i, h₁.placeAt? i =
      if i ∈ h.liveOrder ∧ h₁.countAt i = 0 then some .candidate else h.placeAt? i := ht.place
  have hcount : ∀ i, h₁.countAt i = outside i := fun i => by
    have hbal : h₁.countAt i + (h.liveOrder.flatMap h.kids).count i = h.countAt i := ht.count i
    have hi := hout i
    omega
  have horder : ∀ i, i ∈ h₁.liveOrder ↔ i ∈ h.liveOrder ∧ h₁.countAt i ≠ 0 := by
    intro i
    rw [mem_liveOrder, hplace]
    by_cases hz : i ∈ h.liveOrder ∧ h₁.countAt i = 0
    · rw [if_pos hz]
      simp [hz.2]
    · rw [if_neg hz, ← mem_liveOrder]
      tauto
  refine ⟨ht.shadows, fun i => by simp [hcount], fun i hi => ?_, fun i hi hz => ?_, fun i hi hz => ?_,
    fun i hi => ?_, by simpa using nodup_liveOrder h₁, fun i => by simpa using horder i, fun i hi => ?_⟩
  · rw [hmark] at hi
    simpa using hi
  · rw [hplace, if_pos ⟨hi, hz⟩]
  · exact mem_liveOrder.mp ((horder i).mpr ⟨hi, hz⟩)
  · rw [hplace, if_neg fun he => hi he.1]
  · exact .root (hcount i ▸ ((horder i).mp (by simpa using hi)).2)

namespace Rescuing

variable {order garbage : List Nat}

/-- When no cell waits any more, the visited cells are the tracked ones with a count. -/
theorem mem_done (hr : Rescuing h outside Q order done given [] h₂) (i : Nat) :
    i ∈ done ↔ i ∈ order ∧ h₂.countAt i ≠ 0 := by
  rw [← hr.frontier, List.append_nil]

/-- A walk from outside stays among the cells that were visited. -/
theorem counted_of_leads (hr : Rescuing h outside Q order done (done.flatMap h.kids) [] h₂)
    (hsources : ∀ i, h.kids i ≠ [] → i ∈ order) (hi : h.Leads outside i) : h₂.countAt i ≠ 0 := by
  induction hi with
  | root hi =>
    rw [hr.count]
    omega
  | @edge i j _ hij ih =>
    have hj : j ∈ done := (hr.mem_done j).mpr ⟨hsources j (List.ne_nil_of_mem hij), ih⟩
    have hpos : 0 < (done.flatMap h.kids).count i :=
      List.count_pos_iff.mpr (List.mem_flatMap.mpr ⟨j, hj, hij⟩)
    rw [hr.count]
    omega

/-- The candidates that are left are the tracked cells that got no count back. -/
theorem mem_stillCandidates (hr : Rescuing h outside Q order done given [] h₂)
    (hfound : ∀ i, i ∈ found ↔ i ∈ order ∧ outside i = 0) (i : Nat) :
    i ∈ h₂.stillCandidates found ↔ i ∈ order ∧ h₂.countAt i = 0 := by
  unfold stillCandidates
  rw [List.mem_filter, hfound]
  constructor
  · rintro ⟨⟨hi, _⟩, hp⟩
    refine ⟨hi, ?_⟩
    by_contra hne
    obtain ⟨t, ht⟩ := hr.live i hi hne
    simp [ht] at hp
  · rintro ⟨hi, hz⟩
    have hcount := hr.count i
    exact ⟨⟨hi, by omega⟩, by simp [hr.candidate i hi hz]⟩

/-- The visited cells and the garbage are all the tracked cells. -/
theorem perm_order (hr : Rescuing h outside Q order done given [] h₂) (horder : order.Nodup)
    (hnodup : garbage.Nodup) (hgarbage : ∀ i, i ∈ garbage ↔ i ∈ order ∧ h₂.countAt i = 0) :
    (done ++ garbage).Perm order := by
  have hdone : done.Nodup := by simpa using hr.nodup
  refine (List.perm_ext_iff_of_nodup ?_ horder).mpr fun i => ?_
  · refine List.nodup_append.mpr ⟨hdone, hnodup, fun a ha b hb hab => ?_⟩
    subst hab
    exact ((hr.mem_done a).mp ha).2 ((hgarbage a).mp hb).2
  · rw [List.mem_append, hr.mem_done, hgarbage]
    tauto

end Rescuing

/-- The passes before removal find the garbage. -/
theorem Ready.sift (hr : h.Ready)
    (hout : ∀ i, outside i + (h.liveOrder.flatMap h.kids).count i = h.countAt i) :
    ∃ h₁ found h₂ h₃, h.trialDeletion = .ok (h₁, found) ∧ h₁.rescue h₁.liveOrder = .ok h₂ ∧
      (h₂.stillCandidates found).foldlM restoreCell h₂ = .ok h₃ ∧
      Sifted h outside (h₂.stillCandidates found) h₃ := by
  have hlive : ∀ i ∈ h.liveOrder, ∃ c, h.tenant? i = some c := fun i hi => tenant_of_mem_liveOrder hi
  obtain ⟨h₁, found, htrial, ht⟩ := trialDeletion_eq rfl hlive hr.covered hr.unmarked
  have hfound : ∀ i, i ∈ found ↔ i ∈ h.liveOrder ∧ outside i = 0 := fun i => by
    have hi : i ∈ found ↔ i ∈ h.liveOrder ∧ h₁.countAt i = 0 := ht.found i
    have hbal : h₁.countAt i + (h.liveOrder.flatMap h.kids).count i = h.countAt i := ht.count i
    have houtside := hout i
    rw [hi]
    exact and_congr_right fun _ => by omega
  obtain ⟨h₂, done, hrescue, hr₂⟩ := (ht.rescuing hout).run hlive fun j _ i hi =>
    ⟨hr.ends j i hi, fun hj => .edge hj hi⟩
  have hgarbage := hr₂.mem_stillCandidates hfound
  have hnodup : (h₂.stillCandidates found).Nodup := ht.nodup.filter _
  have hperm := hr₂.perm_order (nodup_liveOrder h) hnodup hgarbage
  obtain ⟨h₃, hrestore, hr₃⟩ := Restoring.cells (h₂.stillCandidates found) hr₂.shadows
    fun k hk => ⟨hlive k ((hgarbage k).mp hk).1, fun i hi => hlive i (hr.ends k i hi)⟩
  refine ⟨h₁, found, h₂, h₃, htrial, hrescue, hrestore, hr₃.shadows, fun i => ?_, hnodup, fun i => ?_,
    fun i hi => ?_, fun i hi hg => ?_, fun i hi => ?_, fun i hi => ?_⟩
  · have hcount := (hperm.flatMap_right h.kids).count_eq i
    have hsaved := hr₂.count i
    have houtside := hout i
    rw [List.flatMap_append, List.count_append] at hcount
    rw [hr₃.count]
    omega
  · rw [hgarbage]
    refine and_congr_right fun hi => ⟨fun hz hl => hr₂.counted_of_leads hr.sources hl hz, fun hl => ?_⟩
    by_contra hne
    exact hl (hr₂.reached i (by simpa using (hr₂.mem_done i).mpr ⟨hi, hne⟩))
  · obtain ⟨hi, hz⟩ := (hgarbage i).mp hi
    rw [hr₃.place]
    exact hr₂.candidate i hi hz
  · rw [hr₃.place]
    exact hr₂.live i hi fun hz => hg ((hgarbage i).mpr ⟨hi, hz⟩)
  · rw [hr₃.place]
    exact hr₂.unlisted i hi
  · rw [hr₃.mark]
    by_contra hm
    obtain ⟨hio, hid⟩ := hr₂.mark i (by simpa using hm)
    refine hi ((hgarbage i).mpr ⟨hio, ?_⟩)
    by_contra hne
    exact hid ((hr₂.mem_done i).mpr ⟨hio, hne⟩)

end Passes

end ObjectMemory.Heap
