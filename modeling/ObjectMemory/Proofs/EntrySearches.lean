import ObjectMemory.Proofs.Holes
set_option autoImplicit false

/-!
# Searching a layout

The chains of a layout are put together when it grows and when it is compacted, copied with it, and mended
at every deletion.  Through all of it a search of one bucket answers what a search of all entries would, the
last one first, and an entry that is to be deleted is found where it has to be.

`Client.find_searches_entries` says so of every layout a client can bring about.  That a chain is a thread
means that it is followed to its end, and that no step leads beyond the entries.
-/

namespace ObjectMemory

namespace Chains

variable {entries : Array Entry} {e : Entry} {i k n b : Nat} {is : List Nat}

/-- An entry of a bucket is on its chain once, and on no other. -/
theorem Files.count_eq (hf : Files n entries k b is) (hi : i < k) (he : entries[i]? = some e)
    (hnull : e.atom.isNull = false) : is.count i = if bucketOf n e.atom = b then 1 else 0 := by
  have hnodup : is.Nodup := hf.down.imp fun hgt => ne_of_gt hgt
  split
  · rename_i hb
    exact List.count_eq_one_of_mem hnodup (hf.all i e hi he hnull hb)
  · rename_i hb
    refine List.count_eq_zero_of_not_mem fun hmem => hb ?_
    obtain ⟨-, d, hd, hhome⟩ := hf.home i hmem
    cases he.symm.trans hd
    exact hhome

end Chains

namespace Client

variable {config : Config} {h : Heap} {x : Ledger} {r : Handle} {s : Shape}

/-- What a client can bring about has room for its entries and counts its buckets in a power of two. -/
theorem Reached.sized {allowed : Operation → Prop} (hr : Reached allowed config h x)
    (hs : h.shape? r = some s) : ∃ size, s.Sized False size := by
  obtain ⟨c, hc, hb⟩ := Heap.shape?_eq_some_iff.mp hs
  exact ⟨c.size, (hr.pays.cells _ c (Heap.tenant?_of_cell? hc)).shape s hb⟩

/-- A search of a layout is a search of its entries from the last one on.  There is a bucket for every entry
there is room for, and the number of buckets is a power of two.  Every bucket is a thread of indexes that
goes down and stays among the entries, and a property is on the thread of its bucket once and on no other.
What is found for an atom is its last entry, and nothing if it has none.  Every property is where a deletion
looks for it, and no deletion misses it. -/
theorem find_searches_entries (hr : Reached (fun _ => True) config h x) (hs : h.shape? r = some s) :
    ((∃ k, s.buckets.size = 2 ^ k) ∧ s.capacity ≤ s.buckets.size ∧ max 2 s.entries.size ≤ s.capacity ∧
      s.links.size = s.entries.size) ∧
    (∀ b n, s.buckets[b]? = some n → ∃ is, Chains.Thread s.links n is ∧ is.Pairwise (· > ·) ∧
      (∀ i ∈ is, i < s.entries.size) ∧ ∀ (i : Nat) (e : Entry), s.entries[i]? = some e →
        e.atom.isNull = false → is.count i = if Chains.bucketOf s.buckets.size e.atom = b then 1 else 0) ∧
    (∀ atom, atom.isNull = false →
      s.buckets[Chains.bucketOf s.buckets.size atom]? = some (s.head atom) ∧
      Chains.Thread s.links (s.head atom) (s.chain atom) ∧
      (∀ i flags, s.find? atom = some (i, flags) ↔ s.entries[i]? = some ⟨atom, flags⟩ ∧
        ∀ (j : Nat) (e : Entry), i < j → s.entries[j]? = some e → e.atom ≠ atom) ∧
      (s.find? atom = none ↔ ∀ (i : Nat) (e : Entry), s.entries[i]? = some e → e.atom ≠ atom)) ∧
    (∀ (i : Nat) (e : Entry), s.entries[i]? = some e → e.atom.isNull = false → s.isLinked i = true) ∧
    ∀ q atom missing, (AllocM.deleteProperty q atom).run h ≠ .error (.entryMissing missing) := by
  obtain ⟨lost, _, hv⟩ := hr.valid
  obtain ⟨size, hsized⟩ := hr.sized hs
  have hw : s.Wired := (hv.laid.shapes r s (Heap.shape?_iff_body?.mp hs)).wired
  refine ⟨⟨hsized.power, hsized.reach, Nat.max_le.mpr ⟨hsized.floor, hsized.room⟩, hw.size⟩,
    fun b n hb => ?_, fun atom hnull => ?_, fun i e he hnull => hw.isLinked he hnull, fun q atom missing => ?_⟩
  · obtain ⟨is, hthread, hfiles⟩ := hw.threads b n hb
    exact ⟨is, hthread, hfiles.down, fun i hi => (hfiles.home i hi).1, fun i e he hnull =>
      hfiles.count_eq (Array.getElem?_eq_some_iff.mp he).1 he hnull⟩
  · exact ⟨Chains.Wired.getElem?_head hw atom, (Chains.Wired.chain hw atom).1,
      fun _ _ => hw.find?_eq_some_iff hnull, hw.find?_eq_none_iff hnull⟩
  · have hupheld : Upheld False ((AllocM.deleteProperty q atom).run h) := hv.upheld_deleteProperty False.elim
    exact hupheld.ne_entryMissing missing

/-- A layout has two atoms in one bucket, and two entries for one of them: the later entry is found, the other
atom behind it, and a deletion finds that too. -/
theorem find_searches_entries_collision : ∃ h x, Reached (fun _ => True) .default h x ∧
    ∃ s : Shape, h.shape? ⟨0, 0⟩ = some s ∧
      s.entries = #[⟨⟨300⟩, .ordinary⟩, ⟨⟨304⟩, .ordinary⟩, ⟨⟨300⟩, .empty⟩] ∧
      s.chain ⟨300⟩ = [2, 1, 0] ∧ s.find? ⟨300⟩ = some (2, .empty) ∧ s.find? ⟨304⟩ = some (1, .ordinary) ∧
      s.isLinked 1 = true ∧
      (AllocM.deleteProperty ⟨1, 0⟩ ⟨304⟩).run h ≠ .error (.entryMissing ⟨304⟩) := by
  obtain ⟨h₁, e₁, hrest⟩ := ok_of_answers (x := (Call.shapeForNewObject none).perform (.new .default))
    (a := .handle ⟨0, 0⟩) (t := fun h =>
      answers ((Call.addProperty ⟨0, 0⟩ ⟨300⟩ .ordinary).perform h) (.extended ⟨0, 0⟩ 0) fun h =>
      answers ((Call.addProperty ⟨0, 0⟩ ⟨304⟩ .ordinary).perform h) (.extended ⟨0, 0⟩ 1) fun h =>
      answers ((Call.addProperty ⟨0, 0⟩ ⟨300⟩ .empty).perform h) (.extended ⟨0, 0⟩ 2) fun h =>
      answers ((Call.newObjectFromShape ⟨0, 0⟩ .ordinary).perform h) (.handle ⟨1, 0⟩) fun h =>
      decide ((h.shape? ⟨0, 0⟩).map (fun s => (s.entries, s.chain ⟨300⟩)) =
        some (#[⟨⟨300⟩, .ordinary⟩, ⟨⟨304⟩, .ordinary⟩, ⟨⟨300⟩, .empty⟩], [2, 1, 0])))
    (by decide +kernel)
  obtain ⟨h₂, e₂, hrest⟩ := ok_of_answers hrest
  obtain ⟨h₃, e₃, hrest⟩ := ok_of_answers hrest
  obtain ⟨h₄, e₄, hrest⟩ := ok_of_answers hrest
  obtain ⟨h₅, e₅, hlayout⟩ := ok_of_answers hrest
  obtain ⟨s, hs, hlayout⟩ := Option.map_eq_some_iff.mp (of_decide_eq_true hlayout)
  obtain ⟨hentries, hchain⟩ := Prod.mk.inj hlayout
  have hstart : Reached (fun _ => True) .default (.new .default) .empty := .start
  have hr₁ := hstart.next (.call (.shapeForNewObject none)) trivial (.of_nothing rfl rfl) e₁
  have hr₂ := hr₁.next (.call (.addProperty ⟨0, 0⟩ ⟨300⟩ .ordinary)) trivial
    (.of_owned (Operation.settle_pos _ (List.mem_singleton_self _)) rfl rfl) e₂
  have hr₃ := hr₂.next (.call (.addProperty ⟨0, 0⟩ ⟨304⟩ .ordinary)) trivial
    (.of_owned (Operation.settle_pos _ (List.mem_singleton_self _)) rfl rfl) e₃
  have hr₄ := hr₃.next (.call (.addProperty ⟨0, 0⟩ ⟨300⟩ .empty)) trivial
    (.of_owned (Operation.settle_pos _ (List.mem_singleton_self _)) rfl rfl) e₄
  have hr₅ := hr₄.next (.call (.newObjectFromShape ⟨0, 0⟩ .ordinary)) trivial
    (.of_owned (Operation.settle_pos _ (List.mem_singleton_self _)) rfl rfl) e₅
  obtain ⟨-, -, hsearch, hlinked, hdelete⟩ := find_searches_entries hr₅ hs
  obtain ⟨-, -, hfind₃₀₀, -⟩ := hsearch ⟨300⟩ rfl
  obtain ⟨-, -, hfind₃₀₄, -⟩ := hsearch ⟨304⟩ rfl
  have hlast : ∀ (j : Nat) (e : Entry), 1 < j → s.entries[j]? = some e → j = 2 ∧ e.atom = ⟨300⟩ := by
    intro j e hj he
    rw [hentries] at he
    obtain ⟨hlt, he⟩ := Array.getElem?_eq_some_iff.mp he
    have hsize : j < 3 := hlt
    obtain rfl : j = 2 := by omega
    cases he
    exact ⟨rfl, rfl⟩
  refine ⟨h₅, _, hr₅, s, hs, hentries, hchain, (hfind₃₀₀ 2 _).mpr ⟨by rw [hentries]; rfl, fun j e hj he => ?_⟩,
    (hfind₃₀₄ 1 _).mpr ⟨by rw [hentries]; rfl, fun j e hj he => ?_⟩,
    hlinked 1 ⟨⟨304⟩, .ordinary⟩ (by rw [hentries]; rfl) rfl, hdelete ⟨1, 0⟩ ⟨304⟩ ⟨304⟩⟩
  · have htwo := (hlast j e (by omega) he).1
    omega
  · rw [(hlast j e hj he).2]
    decide

end Client

end ObjectMemory
