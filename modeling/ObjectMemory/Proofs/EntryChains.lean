import ObjectMemory.Shape
import Mathlib
set_option autoImplicit false

/-!
# The chains of a layout

A bucket of a layout is a list that is threaded through its entries: the bucket has the number of the first
entry, and every entry that of the next one.  `Chains.Thread` says that the numbers lead along a sequence of
entries, all of them there, and then end.

While the chains are in order (`Chains.Wired`) every bucket is such a sequence.  It goes down, so no entry is
on it twice; its entries belong to the bucket; and it has all that belong there, holes apart.  An entry that
is new, or has its turn when the chains are made anew, goes in front (`Chains.Wired.link`), and one that is
deleted is passed over by what led to it (`Chains.Wired.unlink`).
-/

namespace ObjectMemory.Chains

variable {c c' : Chains} {atom : Atom} {links links' : Array Nat} {entries : Array Entry} {e : Entry}
  {b i j k n fuel : Nat} {is js : List Nat}

/-! ## Threads -/

/-- The entries `is` follow one another from number `n` on, and behind the last of them is the end. -/
inductive Thread (links : Array Nat) : Nat → List Nat → Prop where
  | stop : Thread links 0 []
  | entry {i n : Nat} {is : List Nat} (hnext : links[i]? = some n) (more : Thread links n is) :
      Thread links (i + 1) (i :: is)

namespace Thread

theorem lt_size (ht : Thread links n is) : ∀ i ∈ is, i < links.size := by
  induction ht with
  | stop => exact fun i hi => absurd hi List.not_mem_nil
  | entry hnext _ ih =>
    refine List.forall_mem_cons.mpr ⟨?_, ih⟩
    exact (Array.getElem?_eq_some_iff.mp hnext).1

/-- Links that are not on a thread may change. -/
theorem congr (ht : Thread links n is) (hsame : ∀ i ∈ is, links'[i]? = links[i]?) :
    Thread links' n is := by
  induction ht with
  | stop => exact .stop
  | entry hnext _ ih =>
    obtain ⟨hi, hrest⟩ := List.forall_mem_cons.mp hsame
    exact .entry (hi.trans hnext) (ih hrest)

/-- To follow the links for long enough is to follow the thread. -/
theorem follow_eq (ht : Thread links n is) (hfuel : is.length ≤ fuel) : follow links fuel n = is := by
  induction ht generalizing fuel with
  | stop => cases fuel <;> rfl
  | @entry i n is hnext _ ih =>
    obtain ⟨fuel, rfl⟩ : ∃ m, fuel = m + 1 := ⟨fuel - 1, by rw [List.length_cons] at hfuel; omega⟩
    have hn : links.getD i 0 = n := by rw [Array.getD_eq_getD_getElem?, hnext, Option.getD_some]
    rw [follow, hn, ih (by simpa using hfuel)]

/-- A thread that goes down is not longer than there are entries. -/
theorem length_le (ht : Thread links n is) (hdown : is.Pairwise (· > ·)) : is.length ≤ links.size := by
  have hnodup : is.Nodup := hdown.imp fun hlt => ne_of_gt hlt
  have hsub : is ⊆ List.range links.size := fun i hi => List.mem_range.mpr (ht.lt_size i hi)
  simpa using (hnodup.subperm hsub).length_le

/-- What an entry of a thread leads to is on the thread. -/
theorem next_mem (ht : Thread links n is) (hj : j ∈ is) (hnext : links[j]? = some (i + 1)) : i ∈ is := by
  induction ht with
  | stop => cases hj
  | @entry k n is hk more ih =>
    rcases List.mem_cons.mp hj with rfl | hj
    · rw [hk] at hnext
      cases hnext
      cases more
      simp
    · exact List.mem_cons_of_mem _ (ih hj)

/-- The entry that a thread starts with is on it. -/
theorem first_mem (ht : Thread links (i + 1) is) : i ∈ is := by
  cases ht
  exact List.mem_cons_self

/-- To take an entry off a thread, what leads to it is made to lead on: the start of the thread, or the first
entry that has the number of this one. -/
theorem bypass (ht : Thread links n is) (hnodup : is.Nodup) (hi : i ∈ is) (hnext : links[i]? = some k) :
    (n = i + 1 ∧ Thread links k (is.erase i)) ∨
      (n ≠ i + 1 ∧ ∃ j ∈ is, is.find? (fun j => decide (links.getD j 0 = i + 1)) = some j ∧
        Thread (links.setIfInBounds j k) n (is.erase i)) := by
  induction ht with
  | stop => cases hi
  | @entry j m is hj more ih =>
    obtain ⟨hout, hnodup⟩ := List.nodup_cons.mp hnodup
    have hlink : links.getD j 0 = m := by rw [Array.getD_eq_getD_getElem?, hj, Option.getD_some]
    rcases List.mem_cons.mp hi with rfl | hi
    · rw [hj] at hnext
      cases hnext
      rw [List.erase_cons_head]
      exact .inl ⟨rfl, more⟩
    · have hji : j ≠ i := fun he => hout (he ▸ hi)
      refine .inr ⟨by omega, ?_⟩
      rw [List.erase_cons_tail (by simpa using hji)]
      rcases ih hnodup hi with ⟨rfl, hrest⟩ | ⟨hne, l, hl, hfind, hrest⟩
      · -- this entry leads to the one that is taken off
        refine ⟨j, List.mem_cons_self, List.find?_cons_of_pos (by simpa using hlink),
          .entry ?_ (hrest.congr fun l hl => ?_)⟩
        · rw [Array.getElem?_setIfInBounds_self_of_lt (Array.getElem?_eq_some_iff.mp hj).1]
        · have hlj : j ≠ l := fun he => hout (List.mem_of_mem_erase (he ▸ hl))
          rw [Array.getElem?_setIfInBounds_ne hlj]
      · have hlj : l ≠ j := fun he => hout (he ▸ hl)
        refine ⟨l, List.mem_cons_of_mem _ hl, ?_, .entry ?_ hrest⟩
        · rw [List.find?_cons_of_neg (by simpa [hlink] using hne)]
          exact hfind
        · rw [Array.getElem?_setIfInBounds_ne hlj]
          exact hj

end Thread

/-! ## Chains in order -/

/-- The entries `is` are those of a bucket, the latest first, as far as the first `k` entries go. -/
structure Files (size : Nat) (entries : Array Entry) (k b : Nat) (is : List Nat) : Prop where
  down : is.Pairwise (· > ·)
  home : ∀ i ∈ is, i < k ∧ ∃ e, entries[i]? = some e ∧ bucketOf size e.atom = b
  all : ∀ i e, i < k → entries[i]? = some e → e.atom.isNull = false → bucketOf size e.atom = b → i ∈ is

/-- Every bucket is a thread of its entries, as far as the first `k` entries go. -/
structure Wired (c : Chains) (entries : Array Entry) (k : Nat) : Prop where
  room : 0 < c.buckets.size
  size : c.links.size = entries.size
  threads : ∀ b n, c.buckets[b]? = some n →
    ∃ is, Thread c.links n is ∧ Files c.buckets.size entries k b is

/-- An entry that does not belong to the bucket changes nothing for it. -/
theorem Files.succ (hf : Files n entries k b is)
    (hout : ∀ e, entries[k]? = some e → e.atom.isNull = false → bucketOf n e.atom ≠ b) :
    Files n entries (k + 1) b is := by
  refine ⟨hf.down, fun i hi => ?_, fun i e hi he hnull hbucket => ?_⟩
  · obtain ⟨hik, hhome⟩ := hf.home i hi
    exact ⟨Nat.lt_succ_of_lt hik, hhome⟩
  · rcases Nat.lt_succ_iff_lt_or_eq.mp hi with hi | rfl
    · exact hf.all i e hi he hnull hbucket
    · exact absurd hbucket (hout e he hnull)

theorem bucketOf_lt (hn : 0 < n) (atom : Atom) : bucketOf n atom < n :=
  Nat.lt_of_le_of_lt Nat.and_le_right (by omega)

@[simp] theorem size_buckets_link (c : Chains) (atom : Atom) (i : Nat) :
    (c.link atom i).buckets.size = c.buckets.size := by
  simp [link]

@[simp] theorem size_links_link (c : Chains) (atom : Atom) (i : Nat) :
    (c.link atom i).links.size = c.links.size := by
  simp [link]

@[simp] theorem size_buckets_unlink (c : Chains) (atom : Atom) (i : Nat) :
    (c.unlink atom i).buckets.size = c.buckets.size := by
  unfold unlink
  dsimp only
  split
  · simp
  · split <;> rfl

@[simp] theorem size_links_unlink (c : Chains) (atom : Atom) (i : Nat) :
    (c.unlink atom i).links.size = c.links.size := by
  unfold unlink
  dsimp only
  split
  · rfl
  · split <;> simp

namespace Wired

/-- The bucket of an atom is there. -/
theorem getElem?_head (hw : c.Wired entries k) (atom : Atom) :
    c.buckets[bucketOf c.buckets.size atom]? = some (c.head atom) := by
  have hlt := bucketOf_lt hw.room atom
  rw [head, Array.getD_eq_getD_getElem?, Array.getElem?_eq_getElem hlt, Option.getD_some]

/-- The bucket of an atom is the thread that is followed for it. -/
theorem chain (hw : c.Wired entries k) (atom : Atom) : Thread c.links (c.head atom) (c.chain atom) ∧
    Files c.buckets.size entries k (bucketOf c.buckets.size atom) (c.chain atom) := by
  obtain ⟨is, ht, hf⟩ := hw.threads _ _ (hw.getElem?_head atom)
  have hchain : c.chain atom = is := ht.follow_eq (ht.length_le hf.down)
  rw [hchain]
  exact ⟨ht, hf⟩

/-- An entry goes in front of its bucket. -/
theorem link (hw : c.Wired entries k) (he : entries[k]? = some e) :
    (c.link e.atom k).Wired entries (k + 1) := by
  refine ⟨by simpa using hw.room, by simpa using hw.size, fun b n hn => ?_⟩
  have hk : k < c.links.size := by
    rw [hw.size]
    exact (Array.getElem?_eq_some_iff.mp he).1
  rw [size_buckets_link]
  -- the entries before it are linked as they were
  have hbefore : ∀ {m is}, Thread c.links m is → Files c.buckets.size entries k b is →
      Thread (c.link e.atom k).links m is := by
    intro m is ht hf
    refine ht.congr fun i hi => ?_
    have hik : k ≠ i := (Nat.ne_of_lt (hf.home i hi).1).symm
    exact Array.getElem?_setIfInBounds_ne hik
  by_cases hb : bucketOf c.buckets.size e.atom = b
  · subst hb
    have hlt := bucketOf_lt hw.room e.atom
    obtain rfl : k + 1 = n := by simpa [Chains.link, hlt] using hn
    obtain ⟨ht, hf⟩ := hw.chain e.atom
    refine ⟨k :: c.chain e.atom, .entry (n := c.head e.atom) (by simp [Chains.link, hk]) (hbefore ht hf),
      ?_, ?_, ?_⟩
    · exact List.pairwise_cons.mpr ⟨fun i hi => (hf.home i hi).1, hf.down⟩
    · refine List.forall_mem_cons.mpr ⟨⟨Nat.lt_succ_self k, e, he, rfl⟩, fun i hi => ?_⟩
      obtain ⟨hik, hhome⟩ := hf.home i hi
      exact ⟨Nat.lt_succ_of_lt hik, hhome⟩
    · intro i d hi hd hnull hbucket
      rcases Nat.lt_succ_iff_lt_or_eq.mp hi with hi | rfl
      · exact List.mem_cons_of_mem _ (hf.all i d hi hd hnull hbucket)
      · exact List.mem_cons_self
  · have hn : c.buckets[b]? = some n := by
      rw [← hn]
      exact (Array.getElem?_setIfInBounds_ne hb).symm
    obtain ⟨is, ht, hf⟩ := hw.threads b n hn
    refine ⟨is, hbefore ht hf, hf.succ fun d hd _ => ?_⟩
    cases he.symm.trans hd
    exact hb

/-- A hole need not be in a bucket. -/
theorem skip (hw : c.Wired entries k) (he : entries[k]? = some e) (hnull : e.atom.isNull = true) :
    c.Wired entries (k + 1) := by
  refine ⟨hw.room, hw.size, fun b n hn => ?_⟩
  obtain ⟨is, ht, hf⟩ := hw.threads b n hn
  refine ⟨is, ht, hf.succ fun d hd hnull' => ?_⟩
  cases he.symm.trans hd
  rw [hnull] at hnull'
  cases hnull'

theorem linkAll {es : List Entry} (hw : c.Wired entries k) (hes : entries.toList.drop k = es) :
    (c.linkAll k es).Wired entries (k + es.length) := by
  induction es generalizing c k with
  | nil => exact hw
  | cons e rest ih =>
    have he : entries[k]? = some e := by
      rw [← Array.getElem?_toList, ← List.head?_drop, hes, List.head?_cons]
    have hrest : entries.toList.drop (k + 1) = rest := by
      rw [← List.drop_drop, hes, List.drop_succ_cons, List.drop_zero]
    have hlength : k + (e :: rest).length = k + 1 + rest.length := by
      rw [List.length_cons]
      omega
    rw [Chains.linkAll, hlength]
    refine ih ?_ hrest
    split
    · rename_i hnull
      exact hw.skip he hnull
    · exact hw.link he

/-- Every bucket is empty. -/
theorem unlinked (hn : 0 < n) (hsize : links.size = entries.size) :
    (Chains.unlinked n links).Wired entries 0 := by
  refine ⟨by simpa [Chains.unlinked] using hn, hsize, fun b m hm => ?_⟩
  refine ⟨[], ?_, .nil, by simp, fun i e hi => ?_⟩
  · obtain ⟨-, rfl⟩ : b < n ∧ 0 = m := by simpa [Chains.unlinked, Array.getElem?_replicate] using hm
    exact .stop
  · exact absurd hi (Nat.not_lt_zero i)

/-- Chains that are made anew are in order. -/
theorem rebuild (hn : 0 < n) (hsize : links.size = entries.size) :
    (Chains.rebuild n links entries).Wired entries entries.size := by
  have hw : (Chains.rebuild n links entries).Wired entries (0 + entries.toList.length) :=
    (unlinked hn hsize).linkAll rfl
  rwa [Nat.zero_add, Array.length_toList] at hw

/-- A new entry is put in front of its bucket. -/
theorem push (hw : c.Wired entries entries.size) (e : Entry) :
    (c.push e.atom).Wired (entries.push e) (entries.push e).size := by
  have hroom : ({ c with links := c.links.push 0 } : Chains).Wired (entries.push e) entries.size := by
    refine ⟨hw.room, by simp [hw.size], fun b n hn => ?_⟩
    obtain ⟨is, ht, hf⟩ := hw.threads b n hn
    refine ⟨is, ht.congr fun i hi => ?_, hf.down, fun i hi => ?_, fun i d hi hd => ?_⟩
    · exact Array.getElem?_push_lt (ht.lt_size i hi) |>.trans (Array.getElem?_eq_getElem _).symm
    · obtain ⟨hik, d, hd, hb⟩ := hf.home i hi
      exact ⟨hik, d, by rw [Array.getElem?_push, if_neg (Nat.ne_of_lt hik)]; exact hd, hb⟩
    · rw [Array.getElem?_push, if_neg (Nat.ne_of_lt hi)] at hd
      exact hf.all i d hi hd
  rw [Array.size_push, Chains.push, hw.size]
  exact hroom.link (by simp)

/-- An entry is in its own bucket, if it is in any. -/
theorem bucketOf_eq (hf : Files n entries k b is) (hi : i ∈ is) :
    bucketOf n (entries.getD i .hole).atom = b := by
  obtain ⟨-, e, he, hb⟩ := hf.home i hi
  rw [Array.getD_eq_getD_getElem?, he, Option.getD_some]
  exact hb

/-- To unlink an entry changes where the bucket starts, or where one entry of the bucket leads; nothing if the
bucket does not have it. -/
theorem unlink_cases (hw : c.Wired entries k) (atom : Atom) (i : Nat) :
    (∃ n, Thread c.links n ((c.chain atom).erase i) ∧ c.unlink atom i =
        { c with buckets := c.buckets.setIfInBounds (bucketOf c.buckets.size atom) n }) ∨
      (∃ j n, j ∈ c.chain atom ∧ Thread (c.links.setIfInBounds j n) (c.head atom) ((c.chain atom).erase i) ∧
        c.unlink atom i = { c with links := c.links.setIfInBounds j n }) ∨
      (i ∉ c.chain atom ∧ c.unlink atom i = c) := by
  obtain ⟨ht, hf⟩ := hw.chain atom
  unfold Chains.unlink
  dsimp only
  by_cases hi : i ∈ c.chain atom
  · have hlt := ht.lt_size i hi
    have hnext : c.links[i]? = some (c.links.getD i 0) := by simp [hlt]
    rcases ht.bypass (hf.down.imp fun hgt => ne_of_gt hgt) hi hnext with
      ⟨hhead, hrest⟩ | ⟨hhead, j, hj, hfind, hrest⟩
    · rw [if_pos hhead]
      exact .inl ⟨_, hrest, rfl⟩
    · rw [if_neg hhead, hfind]
      exact .inr (.inl ⟨j, _, hj, hrest, rfl⟩)
  · have hhead : c.head atom ≠ i + 1 := fun he => hi (he ▸ ht).first_mem
    have hnone : (c.chain atom).find? (fun j => decide (c.links.getD j 0 = i + 1)) = none := by
      refine List.find?_eq_none.mpr fun j hj hlink => hi (ht.next_mem hj ?_)
      have hlt := ht.lt_size j hj
      simpa [hlt] using hlink
    rw [if_neg hhead, hnone]
    exact .inr (.inr ⟨hi, rfl⟩)

/-- An entry that is unlinked is off the thread it was on, and all else is threaded as before. -/
theorem threads_unlink (hw : c.Wired entries k) (hatom : (entries.getD i .hole).atom = atom)
    (hn : (c.unlink atom i).buckets[b]? = some n) : ∃ is, Thread (c.unlink atom i).links n (is.erase i) ∧
      Files c.buckets.size entries k b is := by
  obtain ⟨ht, hf⟩ := hw.chain atom
  have hlt := bucketOf_lt hw.room atom
  -- a bucket that starts where it started: either it is that of the entry or it does not have the entry
  have hother : ∀ {is}, b ≠ bucketOf c.buckets.size atom → Files c.buckets.size entries k b is →
      ∀ j ∈ c.chain atom, j ∉ is := fun hb hf' j hj hmem =>
    hb ((bucketOf_eq hf' hmem).symm.trans (bucketOf_eq hf hj))
  have hwithout : ∀ {is}, b ≠ bucketOf c.buckets.size atom → Files c.buckets.size entries k b is →
      is.erase i = is := fun hb hf' =>
    List.erase_of_not_mem fun hmem => hb ((bucketOf_eq hf' hmem).symm.trans (by rw [hatom]))
  rcases hw.unlink_cases atom i with ⟨m, hrest, hunlink⟩ | ⟨j, m, hj, hrest, hunlink⟩ | ⟨hi, hunlink⟩
  · rw [hunlink] at hn ⊢
    by_cases hb : b = bucketOf c.buckets.size atom
    · subst hb
      obtain rfl : m = n := by simpa [hlt] using hn
      exact ⟨_, hrest, hf⟩
    · have hn : c.buckets[b]? = some n := by rwa [Array.getElem?_setIfInBounds_ne (Ne.symm hb)] at hn
      obtain ⟨is, ht', hf'⟩ := hw.threads b n hn
      exact ⟨is, (hwithout hb hf').symm ▸ ht', hf'⟩
  · rw [hunlink] at hn ⊢
    by_cases hb : b = bucketOf c.buckets.size atom
    · subst hb
      cases hn.symm.trans (hw.getElem?_head atom)
      exact ⟨_, hrest, hf⟩
    · obtain ⟨is, ht', hf'⟩ := hw.threads b n hn
      refine ⟨is, (hwithout hb hf').symm ▸ ht'.congr fun l hl => ?_, hf'⟩
      have hjl : j ≠ l := fun he => hother hb hf' j hj (he ▸ hl)
      exact Array.getElem?_setIfInBounds_ne hjl
  · rw [hunlink] at hn ⊢
    by_cases hb : b = bucketOf c.buckets.size atom
    · subst hb
      cases hn.symm.trans (hw.getElem?_head atom)
      exact ⟨_, (List.erase_of_not_mem hi).symm ▸ ht, hf⟩
    · obtain ⟨is, ht', hf'⟩ := hw.threads b n hn
      exact ⟨is, (hwithout hb hf').symm ▸ ht', hf'⟩

/-- An entry that is a hole from now on is in no bucket. -/
theorem unlink (hw : c.Wired entries entries.size) (hatom : (entries.getD i .hole).atom = atom) :
    ({ c.unlink atom i with links := (c.unlink atom i).links.setIfInBounds i 0 } : Chains).Wired
      (entries.setIfInBounds i .hole) (entries.setIfInBounds i .hole).size := by
  refine ⟨by simpa using hw.room, by simpa using hw.size, fun b n hn => ?_⟩
  obtain ⟨is, ht, hf⟩ := hw.threads_unlink hatom hn
  have hnodup : is.Nodup := hf.down.imp fun hgt => ne_of_gt hgt
  have hentry : ∀ j, i ≠ j → (entries.setIfInBounds i .hole)[j]? = entries[j]? := fun j hij =>
    Array.getElem?_setIfInBounds_ne hij
  dsimp only
  rw [size_buckets_unlink, Array.size_setIfInBounds]
  refine ⟨is.erase i, ht.congr fun j hj => ?_, hf.down.sublist List.erase_sublist, fun j hj => ?_,
    fun j e hj he hnull hb => ?_⟩
  · have hji := (hnodup.mem_erase_iff.mp hj).1
    exact Array.getElem?_setIfInBounds_ne (Ne.symm hji)
  · obtain ⟨hji, hj⟩ := hnodup.mem_erase_iff.mp hj
    rw [hentry j (Ne.symm hji)]
    exact hf.home j hj
  · have hji : j ≠ i := by
      rintro rfl
      rw [Array.getElem?_setIfInBounds_self_of_lt hj] at he
      cases he
      cases hnull
    rw [hentry j (Ne.symm hji)] at he
    exact hnodup.mem_erase_iff.mpr ⟨hji, hf.all j e hj he hnull hb⟩

end Wired

end ObjectMemory.Chains
