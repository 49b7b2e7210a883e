import ObjectMemory.Proofs.Offsets
import ObjectMemory.Proofs.PrototypeChains
set_option autoImplicit false

/-!
# Filling a cache by hand

A cache is told where a property is, and checks what it is told against the heap: the object is the
receiver or one of its next few prototypes, and its shape has an entry for the property at the offset.  What
passes is what the next lookup in the cache answers.

It is not checked that a lookup in the heap would end there.  A nearer object may have the property as well,
and the entry need not be the one that a search of the shape ends at: that finds no hole, and of two entries
for one property the later one.  The place is right just if neither is so
(`Client.update_records_place`).
-/

namespace ObjectMemory

/-! ## What is entered is answered -/

namespace InlineCache

variable {c c' : InlineCache} {h : Heap} {atom : Atom} {r holder : Handle} {offset n : Nat}
  {proto : Option Handle} {flags : Flags} {stamp : ShapeStamp} {item : CacheItem} {ws : List Watchpoint}
  {p? : Option Handle} {rs : List Handle}

/-- The way to the holder is the beginning of the chain. -/
theorem chain_of_leadsTo {ps : List Handle} (hway : h.LeadsTo holder p? ps) (hchain : h.Chain p? rs) :
    ∃ before after, rs = before ++ holder :: after ∧ before.length + 1 = ps.length := by
  induction hway generalizing rs with
  | here =>
    cases hchain with
    | cons _ => exact ⟨[], _, rfl, rfl⟩
  | @beyond p ps _ _ ih =>
    cases hchain with
    | cons hrest =>
      obtain ⟨before, after, rfl, hlen⟩ := ih hrest
      exact ⟨p :: before, after, rfl, by rw [List.length_cons, List.length_cons, hlen]⟩

/-- What is recorded passed the checks, and is answered from then on. -/
theorem Tidy.of_update (hc : c.Tidy) (hchain : h.Chain (some r) rs)
    (e : (c.update h atom r offset proto).1 = true) :
    ∃ before after flags, rs = before ++ proto.getD r :: after ∧ before.length ≤ maxDepth ∧
      (before = [] ↔ proto = none) ∧ flagsAt? h atom (proto.getD r) offset = some flags ∧
      ((c.update h atom r offset proto).2.lookup h atom r).1 = some ⟨offset, proto, flags⟩ := by
  rcases c.update_cases h atom r offset proto with hrefused | ⟨stamp, item, hstamp, hitem, hmade, hdone⟩
  · rw [hrefused] at e
    cases e
  · have hvalid : ∀ w ∈ item.watchpoints, w.isValid h = true := fun w hw => by
      simp [Watchpoint.isValid, (hmade.watched w hw).2]
    have hhit : ((c.enter atom stamp.shape item).lookup h atom r).1 =
        some ⟨item.offset, item.proto, item.flags⟩ := hc.hit_of_enter hstamp hitem hvalid
    rw [hmade.offset, hmade.proto] at hhit
    rw [hdone]
    cases hchain with
    | @cons _ rs hrest =>
      cases proto with
      | none => exact ⟨[], rs, item.flags, rfl, Nat.zero_le _, by simp, hmade.flags, hhit⟩
      | some holder =>
        obtain ⟨before, after, rfl, hlen⟩ := chain_of_leadsTo hmade.path hrest
        rw [List.length_map] at hlen
        have hdepth : (r :: before).length ≤ maxDepth := hlen.trans_le hmade.depth
        exact ⟨r :: before, after, item.flags, rfl, hdepth, by simp, hmade.flags, hhit⟩

end InlineCache

/-! ## Where a lookup ends -/

namespace Heap

variable {h : Heap} {atom : Atom} {n depth : Nat} {before after : List Handle} {r holder : Handle}
  {offset : Nat} {flags : Flags}

/-- A lookup passes the objects that do not have the property, and ends at the first that has it. -/
theorem Chain.lookupFrom_of_first (hc : h.Chain (some r) (before ++ holder :: after)) (hn : before.length < n)
    (hbefore : ∀ q ∈ before, h.findOwn? q atom = none)
    (hown : h.findOwn? holder atom = some (offset, flags)) :
    h.lookupFrom atom n depth r = some ⟨holder, offset, flags, depth + before.length⟩ := by
  induction before generalizing r n depth with
  | nil =>
    cases hc
    obtain ⟨n, rfl⟩ : ∃ m, n = m + 1 := ⟨n - 1, by omega⟩
    exact lookupFrom_of_findOwn? hown
  | cons q before ih =>
    rw [List.length_cons] at hn
    obtain ⟨n, rfl⟩ : ∃ m, n = m + 1 := ⟨n - 1, by omega⟩
    cases hc with
    | cons hrest =>
      obtain ⟨hq, hbefore⟩ := List.forall_mem_cons.mp hbefore
      rw [lookupFrom_of_missed hq]
      cases hp : h.proto? q with
      | none =>
        rw [hp] at hrest
        cases before <;> cases hrest
      | some p =>
        rw [hp] at hrest
        have hdepth : depth + (q :: before).length = depth + 1 + before.length := by
          rw [List.length_cons]
          omega
        rw [Option.bind_some, hdepth]
        exact ih hrest (by omega) hbefore

/-- A lookup ends at an object of the chain just if no nearer one has the property and it has the property
itself. -/
theorem Chain.lookup?_iff (hc : h.Chain (some r) (before ++ holder :: after)) (ha : h.Acyclic) :
    (∃ d, h.lookup? r atom = some ⟨holder, offset, flags, d⟩) ↔
      (∀ q ∈ before, h.findOwn? q atom = none) ∧ h.findOwn? holder atom = some (offset, flags) := by
  have hlen : (before ++ holder :: after).length ≤ h.slots.size + 1 := by
    rw [hc.unique (ha.chain (some r))]
    exact h.length_protoChainFrom_le _ _
  constructor
  · rintro ⟨d, hl⟩
    have hfinds : h.Finds atom 0 (before ++ holder :: after) (h.lookup? r atom) := hc.finds hlen
    rw [hl] at hfinds
    cases hfinds with
    | @found before' after' _ hrs hbefore hown _ =>
      -- the holder is on the chain once, so the objects before it are the same both times
      have hself := (List.nodup_cons.mp (List.nodup_middle.mp (hc.nodup ha))).1
      rw [List.mem_append, not_or] at hself
      obtain ⟨rfl, _, _⟩ := (List.append_cons_inj_of_notMem hself.1 hself.2).mp hrs
      exact ⟨hbefore, hown⟩
  · rintro ⟨hbefore, hown⟩
    have hn : before.length < h.slots.size + 1 := by
      rw [List.length_append, List.length_cons] at hlen
      omega
    exact ⟨_, hc.lookupFrom_of_first hn hbefore hown⟩

end Heap

/-! ## Runs -/

namespace Client

open InlineCache

variable {config : Config} {h : Heap} {x : Ledger} {c : InlineCache} {atom : Atom} {r : Handle} {offset : Nat}
  {proto : Option Handle}

/-- What a cache records was checked, and is what it answers next.  The object it was told of is the receiver
or, if a prototype was named, one of the next four on the chain; it has an entry for the property at the
offset; and a lookup in the cache hits, with this offset, this prototype and the flags of the entry.  A lookup
in the heap leads to the same place just if no nearer object of the chain has the property and the entry is
the one that a search of the object ends at. -/
theorem update_records_place (hr : Reached (fun _ => True) config h x) (hc : Beside h c)
    (e : (c.update h atom r offset proto).1 = true) :
    ∃ before after flags, h.Chain (some r) (before ++ proto.getD r :: after) ∧ before.length ≤ maxDepth ∧
      (before = [] ↔ proto = none) ∧ flagsAt? h atom (proto.getD r) offset = some flags ∧
      ((c.update h atom r offset proto).2.lookup h atom r).1 = some ⟨offset, proto, flags⟩ ∧
      ((∃ d, h.lookup? r atom = some ⟨proto.getD r, offset, flags, d⟩) ↔
        (∀ q ∈ before, h.findOwn? q atom = none) ∧
          h.findOwn? (proto.getD r) atom = some (offset, flags)) := by
  have ha := hr.acyclic
  have hchain := ha.chain (some r)
  obtain ⟨before, after, flags, hrs, hdepth, hown, hflags, hhit⟩ := hc.placed.tidy.of_update hchain e
  rw [hrs] at hchain
  exact ⟨before, after, flags, hchain, hdepth, hown, hflags, hhit, hchain.lookup?_iff ha⟩

/-- An inherited property is recorded where it is found. -/
theorem update_records_place_inherited : ∃ h x, Reached (fun _ => True) .default h x ∧
    ((InlineCache.empty.update h ⟨300⟩ ⟨3, 0⟩ 0 (some ⟨1, 0⟩)).2.lookup h ⟨300⟩ ⟨3, 0⟩).1 =
      some ⟨0, some ⟨1, 0⟩, .ordinary⟩ ∧
    ∃ d, h.lookup? ⟨3, 0⟩ ⟨300⟩ = some ⟨⟨1, 0⟩, 0, .ordinary, d⟩ := by
  obtain ⟨h₁, e₁, hrest⟩ := ok_of_answers (x := (Call.newObject none).perform (.new .default))
    (a := .handle ⟨1, 0⟩) (t := fun h => decide (h.kind? ⟨1, 0⟩ = some .object) &&
      answers ((Call.newObject (some ⟨1, 0⟩)).perform h) (.handle ⟨3, 0⟩) fun h =>
        answers ((Call.defineProperty ⟨1, 0⟩ ⟨300⟩ .ordinary (.smi 7)).perform h) (.flag true) fun h =>
          decide (h.objectStamp? ⟨3, 0⟩ = some ⟨⟨2, 0⟩, 0⟩ ∧
            flagsAt? h ⟨300⟩ ⟨1, 0⟩ 0 = some .ordinary ∧
            watchpoints? h ⟨300⟩ ⟨3, 0⟩ (some ⟨1, 0⟩) = some [⟨⟨1, 0⟩, ⟨⟨0, 0⟩, 1⟩, ⟨300⟩⟩] ∧
            h.protoChain (some ⟨3, 0⟩) = [⟨3, 0⟩, ⟨1, 0⟩] ∧ h.findOwn? ⟨3, 0⟩ ⟨300⟩ = none ∧
            h.findOwn? ⟨1, 0⟩ ⟨300⟩ = some (0, .ordinary)))
    (by decide +kernel)
  obtain ⟨hkind, hrest⟩ := Bool.and_eq_true_iff.mp hrest
  obtain ⟨h₂, e₂, hrest⟩ := ok_of_answers hrest
  obtain ⟨h₃, e₃, hfacts⟩ := ok_of_answers hrest
  obtain ⟨hstamp, hflags, hws, hchain, hmissed, hown⟩ := of_decide_eq_true hfacts
  have hstart : Reached (fun _ => True) .default (.new .default) .empty := .start
  have hr₁ := hstart.next (.call (.newObject none)) trivial (.of_nothing rfl rfl) e₁
  have hr₂ := hr₁.next (.call (.newObject (some ⟨1, 0⟩))) trivial
    ⟨fun r => Nat.zero_le _, Heap.names_of_proto fun q hq => Option.some.inj hq ▸ of_decide_eq_true hkind⟩ e₂
  have hr₃ := hr₂.next (.call (.defineProperty ⟨1, 0⟩ ⟨300⟩ .ordinary (.smi 7))) trivial
    (.of_nothing rfl rfl) e₃
  have hdone : (InlineCache.empty.update h₃ ⟨300⟩ ⟨3, 0⟩ 0 (some ⟨1, 0⟩)).1 = true := by
    simp [update, hstamp, hflags, hws]
  obtain ⟨before, after, flags, hc, _, _, hflags', hhit, hiff⟩ := update_records_place hr₃ (.empty h₃) hdone
  cases hflags.symm.trans hflags'
  have hrs : before ++ ⟨1, 0⟩ :: after = [⟨3, 0⟩, ⟨1, 0⟩] :=
    hchain ▸ hc.unique (hr₃.acyclic.chain (some ⟨3, 0⟩))
  have hbefore : before = [⟨3, 0⟩] := by
    rcases before with _ | ⟨q, _ | ⟨q', rest⟩⟩ <;> simp_all
  refine ⟨h₃, _, hr₃, hhit, hiff.mpr ⟨fun q hq => ?_, hown⟩⟩
  rw [hbefore] at hq
  exact List.mem_singleton.mp hq ▸ hmissed

/-- What a cache records need not be what a lookup finds: here it is told of an inherited property that the
receiver has itself, and of the hole that a deleted property left. -/
theorem update_records_shadowed : ∃ h x, Reached (fun _ => True) .default h x ∧ Beside h .empty ∧
    ((InlineCache.empty.update h ⟨300⟩ ⟨3, 0⟩ 0 (some ⟨1, 0⟩)).1 = true ∧
      h.lookup? ⟨3, 0⟩ ⟨300⟩ = some ⟨⟨3, 0⟩, 0, .ordinary, 0⟩) ∧
    (InlineCache.empty.update h .null ⟨1, 0⟩ 1 none).1 = true ∧ h.lookup? ⟨1, 0⟩ .null = none := by
  obtain ⟨h₁, e₁, hrest⟩ := ok_of_answers (x := (Call.newObject none).perform (.new .default))
    (a := .handle ⟨1, 0⟩) (t := fun h => decide (h.kind? ⟨1, 0⟩ = some .object) &&
      answers ((Call.newObject (some ⟨1, 0⟩)).perform h) (.handle ⟨3, 0⟩) fun h =>
        answers ((Call.defineProperty ⟨1, 0⟩ ⟨300⟩ .ordinary (.smi 7)).perform h) (.flag true) fun h =>
          answers ((Call.defineProperty ⟨3, 0⟩ ⟨300⟩ .ordinary (.smi 8)).perform h) (.flag true) fun h =>
            answers ((Call.defineProperty ⟨1, 0⟩ ⟨301⟩ .ordinary (.smi 9)).perform h) (.flag true) fun h =>
              answers ((Call.deleteProperty ⟨1, 0⟩ ⟨301⟩).perform h) (.flag true) fun h =>
                decide (h.objectStamp? ⟨3, 0⟩ = some ⟨⟨2, 0⟩, 1⟩ ∧ h.objectStamp? ⟨1, 0⟩ = some ⟨⟨0, 0⟩, 4⟩ ∧
                  flagsAt? h ⟨300⟩ ⟨1, 0⟩ 0 = some .ordinary ∧ flagsAt? h .null ⟨1, 0⟩ 1 = some .empty ∧
                  watchpoints? h ⟨300⟩ ⟨3, 0⟩ (some ⟨1, 0⟩) = some [⟨⟨1, 0⟩, ⟨⟨0, 0⟩, 4⟩, ⟨300⟩⟩] ∧
                  h.lookup? ⟨3, 0⟩ ⟨300⟩ = some ⟨⟨3, 0⟩, 0, .ordinary, 0⟩ ∧ h.lookup? ⟨1, 0⟩ .null = none))
    (by decide +kernel)
  obtain ⟨hkind, hrest⟩ := Bool.and_eq_true_iff.mp hrest
  obtain ⟨h₂, e₂, hrest⟩ := ok_of_answers hrest
  obtain ⟨h₃, e₃, hrest⟩ := ok_of_answers hrest
  obtain ⟨h₄, e₄, hrest⟩ := ok_of_answers hrest
  obtain ⟨h₅, e₅, hrest⟩ := ok_of_answers hrest
  obtain ⟨h₆, e₆, hfacts⟩ := ok_of_answers hrest
  obtain ⟨hchild, hparent, hflags, hhole, hws, hfound, hnone⟩ := of_decide_eq_true hfacts
  have hstart : Reached (fun _ => True) .default (.new .default) .empty := .start
  have hr₁ := hstart.next (.call (.newObject none)) trivial (.of_nothing rfl rfl) e₁
  have hr₂ := hr₁.next (.call (.newObject (some ⟨1, 0⟩))) trivial
    ⟨fun r => Nat.zero_le _, Heap.names_of_proto fun q hq => Option.some.inj hq ▸ of_decide_eq_true hkind⟩ e₂
  have hr₃ := hr₂.next (.call (.defineProperty ⟨1, 0⟩ ⟨300⟩ .ordinary (.smi 7))) trivial
    (.of_nothing rfl rfl) e₃
  have hr₄ := hr₃.next (.call (.defineProperty ⟨3, 0⟩ ⟨300⟩ .ordinary (.smi 8))) trivial
    (.of_nothing rfl rfl) e₄
  have hr₅ := hr₄.next (.call (.defineProperty ⟨1, 0⟩ ⟨301⟩ .ordinary (.smi 9))) trivial
    (.of_nothing rfl rfl) e₅
  have hr₆ := hr₅.next (.call (.deleteProperty ⟨1, 0⟩ ⟨301⟩)) trivial (.of_nothing rfl rfl) e₆
  exact ⟨h₆, _, hr₆, .empty h₆, ⟨by simp [update, hchild, hflags, hws], hfound⟩,
    by simp [update, hparent, hhole, watchpoints?], hnone⟩

end Client

end ObjectMemory
