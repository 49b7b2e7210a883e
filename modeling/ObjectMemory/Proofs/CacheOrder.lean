import ObjectMemory.Proofs.Actions
import ObjectMemory.Proofs.CacheRings
set_option autoImplicit false

/-!
# A cache in order

Items come and go: one that fails is cleared, one for a new version of a shape takes the place of the old
one, a new shape takes the place at the cursor, and a whole ring or the whole cache may be forgotten.  Through
all of it the directory and the rings fit together, and no ring has two items for one shape.

An item is what it was when it was filled, so what holds of it speaks of the heap of that moment.  `Fill` keeps
that moment, and `InlineCache.Used` the fills of a whole history; the heap may change in any way between two
uses of the cache.  `InlineCache.InOrder` is what every use keeps, and `InlineCache.rings_in_order` what it
comes to.
-/

namespace ObjectMemory

/-! ## The way to the holder -/

/-- From `p?` the prototypes `rs` lead up to `holder`, which comes last and only there. -/
inductive Heap.LeadsTo (h : Heap) (holder : Handle) : Option Handle → List Handle → Prop where
  | here : LeadsTo h holder (some holder) [holder]
  | beyond {p : Handle} {rs : List Handle} (hne : p ≠ holder) (more : LeadsTo h holder (h.proto? p) rs) :
      LeadsTo h holder (some p) (p :: rs)

theorem Heap.LeadsTo.mem {h : Heap} {holder : Handle} {p? : Option Handle} {rs : List Handle}
    (hway : h.LeadsTo holder p? rs) : holder ∈ rs := by
  induction hway with
  | here => exact List.mem_singleton_self _
  | beyond _ _ ih => exact List.mem_cons_of_mem _ ih

/-- A cache was told, when the heap was `heap`, where the receiver or a prototype has a property. -/
structure Fill where
  heap : Heap
  atom : Atom
  receiver : Handle
  offset : Nat
  proto : Option Handle

namespace Fill

variable {f : Fill} {item : CacheItem}

/-- The prototypes between the receiver and the holder, the holder included: none if the receiver has the
property itself. -/
def Path (f : Fill) (rs : List Handle) : Prop :=
  match f.proto with
  | none => rs = []
  | some holder => f.heap.LeadsTo holder (f.heap.proto? f.receiver) rs

/-- The item says where the property is, and what the receiver and the prototypes on the way showed. -/
structure Makes (f : Fill) (item : CacheItem) : Prop where
  stamp : item.stamp = f.heap.objectStamp? f.receiver
  proto : item.proto = f.proto
  offset : item.offset = f.offset
  flags : InlineCache.flagsAt? f.heap f.atom (f.proto.getD f.receiver) f.offset = some item.flags
  path : f.Path (item.watchpoints.map (·.holder))
  depth : item.watchpoints.length ≤ InlineCache.maxDepth
  watched : ∀ w ∈ item.watchpoints, w.atom = f.atom ∧ f.heap.objectStamp? w.holder = some w.stamp

end Fill

/-- The first of some places that passes a test. -/
theorem find?_finRange_eq_some_iff {n : Nat} {p : Fin n → Bool} {i : Fin n} :
    (List.finRange n).find? p = some i ↔ p i = true ∧ ∀ j < i, p j = false := by
  rw [List.find?_eq_some_iff_getElem]
  refine and_congr_right fun _ => ⟨?_, fun hfirst => ⟨i, by simp, by simp, fun j hj => ?_⟩⟩
  · rintro ⟨k, hk, rfl, hfirst⟩ j hj
    simpa using hfirst j (by simpa [Fin.lt_def] using hj)
  · have hfalse := hfirst ⟨j, by omega⟩ hj
    simpa using hfalse

namespace CacheRing

variable {s : CacheRing} {i j : Fin ringSize} {shape : Handle} {item : CacheItem} {fills : List Fill}

/-! ## One ring -/

/-- The shape the item in a place is for. -/
def shapeAt (s : CacheRing) (i : Fin ringSize) : Option Handle := (s.item i).stamp.map (·.shape)

theorem shapeAt_set (s : CacheRing) (i j : Fin ringSize) (item : CacheItem) :
    (s.set i item).shapeAt j = if i = j then item.stamp.map (·.shape) else s.shapeAt j := by
  rw [shapeAt, items_set]
  split <;> rfl

/-- An item goes in the place of the first one for the same shape, or at the cursor if there is none. -/
theorem put_cases (s : CacheRing) (shape : Handle) (item : CacheItem) :
    (∃ i, s.shapeAt i = some shape ∧ (∀ j < i, s.shapeAt j ≠ some shape) ∧
        s.put shape item = (s.set i item, false)) ∨
      (∀ i, s.shapeAt i ≠ some shape) ∧ s.put shape item =
        ({ s.set s.cursor item with cursor := s.cursor + 1 }, (s.item s.cursor).stamp.isSome) := by
  have hfind : s.findShape? shape = (List.finRange ringSize).find? fun i => s.shapeAt i == some shape := rfl
  unfold put
  cases hplace : s.findShape? shape with
  | some i =>
    rw [hfind, find?_finRange_eq_some_iff] at hplace
    exact .inl ⟨i, by simpa using hplace.1, by simpa using hplace.2, rfl⟩
  | none =>
    rw [hfind, List.find?_eq_none] at hplace
    exact .inr ⟨fun i => by simpa using hplace i (List.mem_finRange i), rfl⟩

/-- No shape has two items. -/
def Distinct (s : CacheRing) : Prop :=
  ∀ i j shape, s.shapeAt i = some shape → s.shapeAt j = some shape → i = j

/-- An item may be put in the place of another if its shape has no item in a third place. -/
theorem Distinct.set (hd : s.Distinct)
    (hother : ∀ j shape, i ≠ j → item.stamp.map (·.shape) = some shape → s.shapeAt j ≠ some shape) :
    (s.set i item).Distinct := by
  intro j k shape hj hk
  rw [shapeAt_set] at hj hk
  split at hj
  · split at hk
    · rename_i hij hik
      exact hij.symm.trans hik
    · rename_i hik
      exact absurd hk (hother k shape hik hj)
  · split at hk
    · rename_i hij _
      exact absurd hj (hother j shape hij hk)
    · exact hd j k shape hj hk

theorem distinct_empty (atom : Atom) : (empty atom).Distinct := by
  intro i j shape hi
  rw [shapeAt, stamp_empty] at hi
  cases hi

theorem Distinct.put (hd : s.Distinct) (hitem : item.stamp.map (·.shape) = some shape) :
    (s.put shape item).1.Distinct := by
  rcases s.put_cases shape item with ⟨i, hi, _, hput⟩ | ⟨hnone, hput⟩
  · rw [hput]
    refine hd.set fun j shape' hij hshape hj => hij ?_
    cases hitem.symm.trans hshape
    exact hd i j shape hi hj
  · have hset : (s.set s.cursor item).Distinct := hd.set fun j shape' _ hshape => by
      cases hitem.symm.trans hshape
      exact hnone j
    rw [hput]
    exact hset

/-- The items are for different shapes, and each was made by a fill for the atom of the ring. -/
structure Kept (fills : List Fill) (s : CacheRing) : Prop where
  distinct : s.Distinct
  filled : ∀ i, (s.item i).stamp ≠ none → ∃ f ∈ fills, f.atom = s.atom ∧ f.Makes (s.item i)

theorem kept_empty (fills : List Fill) (atom : Atom) : (empty atom).Kept fills :=
  ⟨distinct_empty atom, fun i hi => absurd (stamp_empty atom i) hi⟩

theorem Kept.mono {fills' : List Fill} (hs : s.Kept fills) (hsub : fills ⊆ fills') : s.Kept fills' := by
  refine ⟨hs.distinct, fun i hi => ?_⟩
  obtain ⟨f, hf, hmade⟩ := hs.filled i hi
  exact ⟨f, hsub hf, hmade⟩

/-- An item may be cleared. -/
theorem Kept.scrub (hs : s.Kept fills) (i : Fin ringSize) : (s.set i .empty).Kept fills := by
  refine ⟨hs.distinct.set fun _ _ _ hshape => (by cases hshape), fun j hj => ?_⟩
  rw [items_set] at hj ⊢
  split at hj
  · exact absurd rfl hj
  · rename_i hij
    rw [if_neg hij]
    exact hs.filled j hj

/-- What a fill makes may be put into the ring of its atom. -/
theorem Kept.put {f : Fill} (hs : s.Kept fills) (hf : f ∈ fills) (hatom : f.atom = s.atom)
    (hmade : f.Makes item) (hshape : item.stamp.map (·.shape) = some shape) :
    (s.put shape item).1.Kept fills := by
  refine ⟨hs.distinct.put hshape, fun j hj => ?_⟩
  rw [atom_put]
  rcases s.items_put shape item j with hitem | hitem
  · rw [hitem]
    exact ⟨f, hf, hatom, hmade⟩
  · rw [hitem] at hj ⊢
    exact hs.filled j hj

theorem find?_eq_some_iff {stamp : ShapeStamp} : s.find? stamp = some i ↔
    (s.item i).stamp = some stamp ∧ ∀ j < i, (s.item j).stamp ≠ some stamp := by
  unfold find?
  rw [find?_finRange_eq_some_iff]
  simp [item, Vector.get_eq_getElem]

/-- The place where an item for a shape goes comes before all other items for that shape. -/
theorem exists_place (s : CacheRing) (shape : Handle) (item : CacheItem) : ∃ i,
    (∀ j, (s.put shape item).1.item j = if i = j then item else s.item j) ∧
      ∀ j < i, s.shapeAt j ≠ some shape := by
  rcases s.put_cases shape item with ⟨i, _, hfirst, hput⟩ | ⟨hnone, hput⟩
  · rw [hput]
    exact ⟨i, fun j => items_set s i j item, hfirst⟩
  · rw [hput]
    exact ⟨s.cursor, fun j => items_set s s.cursor j item, fun j _ => hnone j⟩

/-- An item that was put into a ring is the one that is found for its stamp, whatever the ring held. -/
theorem find?_put {stamp : ShapeStamp} {item : CacheItem} (s : CacheRing) (hitem : item.stamp = some stamp) :
    ∃ i, (s.put stamp.shape item).1.find? stamp = some i ∧ (s.put stamp.shape item).1.item i = item := by
  obtain ⟨i, hitems, hfirst⟩ := s.exists_place stamp.shape item
  have hself : (s.put stamp.shape item).1.item i = item := by rw [hitems, if_pos rfl]
  refine ⟨i, find?_eq_some_iff.mpr ⟨by rw [hself, hitem], fun j hj => ?_⟩, hself⟩
  rw [hitems, if_neg (ne_of_gt hj)]
  intro hstamp
  exact hfirst j hj (by rw [shapeAt, hstamp, Option.map_some])

end CacheRing

namespace InlineCache

variable {c : InlineCache} {h : Heap} {a b atom : Atom} {r : Handle} {offset : Nat} {proto : Option Handle}
  {fills : List Fill} {shape : Handle} {item : CacheItem} {stamp : ShapeStamp}

/-- An item for the stamp that the receiver shows, with watchpoints that hold, is what a lookup answers. -/
theorem Tidy.hit_of_enter (hc : c.Tidy) (hstamp : h.objectStamp? r = some stamp)
    (hitem : item.stamp = some stamp) (hvalid : ∀ w ∈ item.watchpoints, w.isValid h = true) :
    ((c.enter atom stamp.shape item).lookup h atom r).1 = some ⟨item.offset, item.proto, item.flags⟩ := by
  have hring := hc.ring?_enter atom atom stamp.shape item
  rw [if_pos rfl] at hring
  obtain ⟨i, hfind, hi⟩ := ((c.ring? atom).getD (.empty atom)).find?_put hitem
  generalize (((c.ring? atom).getD (.empty atom)).put stamp.shape item).1 = s at hring hfind hi
  have hi : s.items[i] = item := hi
  have hall : item.watchpoints.all (·.isValid h) = true := List.all_eq_true.mpr hvalid
  have hprobe : (c.enter atom stamp.shape item).probe h atom r =
      (some ⟨item.offset, item.proto, item.flags⟩, c.enter atom stamp.shape item) := by
    unfold probe
    rw [hstamp, hring]
    dsimp only
    rw [hfind]
    dsimp only
    rw [hi, if_pos hall]
  rw [lookup, hprobe]

/-! ## All rings -/

/-- A ring that was modified is the ring of the atom. -/
theorem rings_modifyRing {f : CacheRing → CacheRing} {i : Nat} {s : CacheRing}
    (hs : (c.modifyRing a f).rings[i]? = some s) :
    c.rings[i]? = some s ∨ ∃ t, c.rings[i]? = some t ∧ c.ring? a = some t ∧ s = f t := by
  unfold modifyRing at hs
  cases hi : c.directory[a]? with
  | none =>
    rw [hi] at hs
    exact .inl hs
  | some k =>
    rw [hi] at hs
    dsimp only at hs
    rw [Array.getElem?_modify] at hs
    split at hs
    · rename_i hki
      subst hki
      obtain ⟨t, ht, rfl⟩ := Option.map_eq_some_iff.mp hs
      exact .inr ⟨t, ht, by simp [ring?, hi, ht], rfl⟩
    · exact .inl hs

@[simp] theorem directory_modifyRing (c : InlineCache) (a : Atom) (f : CacheRing → CacheRing) :
    (c.modifyRing a f).directory = c.directory := by
  unfold modifyRing
  split <;> rfl

@[simp] theorem stats_modifyRing (c : InlineCache) (a : Atom) (f : CacheRing → CacheRing) :
    (c.modifyRing a f).stats = c.stats := by
  unfold modifyRing
  split <;> rfl

@[simp] theorem stats_withRing (c : InlineCache) (a : Atom) : (c.withRing a).stats = c.stats := by
  unfold withRing
  split <;> rfl

/-- The directory and the rings fit together: every atom of the directory has a ring, and every ring stands
where the directory has its atom. -/
structure InOrder (fills : List Fill) (c : InlineCache) : Prop where
  tidy : c.Tidy
  covers : ∀ (i : Nat) (s : CacheRing), c.rings[i]? = some s → c.directory[s.atom]? = some i
  kept : ∀ (i : Nat) (s : CacheRing), c.rings[i]? = some s → s.Kept fills

namespace InOrder

/-- Counters do not matter. -/
theorem count (hc : c.InOrder fills) (stats : CacheStats) : InOrder fills { c with stats := stats } :=
  ⟨hc.tidy, hc.covers, hc.kept⟩

theorem mono {fills' : List Fill} (hc : c.InOrder fills) (hsub : fills ⊆ fills') : c.InOrder fills' :=
  ⟨hc.tidy, hc.covers, fun i s hs => (hc.kept i s hs).mono hsub⟩

theorem of_no_rings (hdirectory : c.directory = ∅) (hrings : c.rings = #[]) : c.InOrder fills := by
  refine ⟨fun a i hi => ?_, fun i s hs => ?_, fun i s hs => ?_⟩
  · simp [hdirectory] at hi
  · simp [hrings] at hs
  · simp [hrings] at hs

/-- The ring of an atom stands among the rings. -/
theorem of_ring? (hc : c.InOrder fills) {s : CacheRing} (hs : c.ring? a = some s) :
    s.atom = a ∧ s.Kept fills := by
  obtain ⟨i, hi, hs⟩ := Option.bind_eq_some_iff.mp hs
  obtain ⟨t, ht, hatom⟩ := hc.tidy a i hi
  cases hs.symm.trans ht
  exact ⟨hatom, hc.kept i s hs⟩

theorem modifyRing (hc : c.InOrder fills) (a : Atom) {f : CacheRing → CacheRing}
    (hf : ∀ s, c.ring? a = some s → (f s).atom = s.atom ∧ (f s).Kept fills) :
    (c.modifyRing a f).InOrder fills := by
  refine ⟨hc.tidy.modifyRing a fun s hs => (hf s hs).1, fun i s hs => ?_, fun i s hs => ?_⟩
  · rw [directory_modifyRing]
    rcases rings_modifyRing hs with hs | ⟨t, ht, hring, rfl⟩
    · exact hc.covers i s hs
    · rw [(hf t hring).1]
      exact hc.covers i t ht
  · rcases rings_modifyRing hs with hs | ⟨t, _, hring, rfl⟩
    · exact hc.kept i s hs
    · exact (hf t hring).2

/-- A new ring goes behind the others, and the directory has its place. -/
theorem withRing (hc : c.InOrder fills) (a : Atom) : (c.withRing a).InOrder fills := by
  have htidy := hc.tidy.withRing a
  unfold InlineCache.withRing at htidy ⊢
  cases hi : c.directory[a]? with
  | some i => exact hc
  | none =>
    rw [hi] at htidy
    have hcases : ∀ {i : Nat} {s : CacheRing}, (c.rings.push (.empty a))[i]? = some s →
        (i = c.rings.size ∧ s = .empty a) ∨ c.rings[i]? = some s := by
      intro i s hs
      rw [Array.getElem?_push] at hs
      split at hs
      · exact .inl ⟨‹_›, (Option.some.inj hs).symm⟩
      · exact .inr hs
    refine ⟨htidy, fun i s hs => ?_, fun i s hs => ?_⟩
    · dsimp only
      rw [Std.HashMap.getElem?_insert]
      rcases hcases hs with ⟨rfl, rfl⟩ | hs
      · simp [CacheRing.empty]
      · have hplace := hc.covers i s hs
        have hne : a ≠ s.atom := by
          rintro rfl
          rw [hi] at hplace
          cases hplace
        simp [hne, hplace]
    · rcases hcases hs with ⟨_, rfl⟩ | hs
      · exact CacheRing.kept_empty fills a
      · exact hc.kept i s hs

/-- What a fill makes is entered into the ring of its atom. -/
theorem enter {f : Fill} (hc : c.InOrder fills) (hf : f ∈ fills) (hmade : f.Makes item)
    (hshape : item.stamp.map (·.shape) = some shape) : (c.enter f.atom shape item).InOrder fills := by
  have hwith := hc.withRing f.atom
  unfold InlineCache.enter
  dsimp only
  cases hs : (c.withRing f.atom).ring? f.atom with
  | none => exact hwith
  | some s =>
    obtain ⟨hatom, hkept⟩ := hwith.of_ring? hs
    refine (hwith.modifyRing f.atom (f := fun _ => (s.put shape item).1) fun t ht => ?_).count _
    cases hs.symm.trans ht
    exact ⟨CacheRing.atom_put s shape item, hkept.put hf hatom.symm hmade hshape⟩

end InOrder

/-! ## Uses of a cache -/

/-- What is watched is the way to the holder, if it is not too long, with the stamps that are shown there. -/
theorem leadsTo_of_watch {holder : Handle} {n : Nat} {p? : Option Handle} {ws : List Watchpoint}
    (hwatch : watch h atom holder n p? = some ws) : h.LeadsTo holder p? (ws.map (·.holder)) ∧
      ws.length ≤ n ∧ ∀ w ∈ ws, w.atom = atom ∧ h.objectStamp? w.holder = some w.stamp := by
  induction n generalizing p? ws with
  | zero => cases hwatch
  | succ n ih =>
    cases p? with
    | none => cases hwatch
    | some p =>
      unfold watch at hwatch
      cases hstamp : h.objectStamp? p with
      | none =>
        rw [hstamp] at hwatch
        cases hwatch
      | some stamp =>
        rw [hstamp] at hwatch
        dsimp only at hwatch
        split at hwatch
        · rename_i hp
          cases hwatch
          subst hp
          exact ⟨.here, Nat.le_add_left 1 n, List.forall_mem_singleton.mpr ⟨rfl, hstamp⟩⟩
        · rename_i hp
          obtain ⟨ws', hws', rfl⟩ := Option.map_eq_some_iff.mp hwatch
          obtain ⟨hmore, hlen, hall⟩ := ih hws'
          exact ⟨.beyond hp hmore, Nat.succ_le_succ hlen, List.forall_mem_cons.mpr ⟨⟨rfl, hstamp⟩, hall⟩⟩

/-- An update is refused and changes nothing, or what it enters is made by the fill it is. -/
theorem update_cases (c : InlineCache) (h : Heap) (a : Atom) (r : Handle) (offset : Nat)
    (proto : Option Handle) : c.update h a r offset proto = (false, c) ∨
    ∃ stamp item, h.objectStamp? r = some stamp ∧ item.stamp = some stamp ∧
      Fill.Makes ⟨h, a, r, offset, proto⟩ item ∧
      c.update h a r offset proto = (true, c.enter a stamp.shape item) := by
  unfold update
  cases hstamp : h.objectStamp? r with
  | none => exact .inl rfl
  | some stamp =>
    cases hflags : flagsAt? h a (proto.getD r) offset with
    | none => exact .inl rfl
    | some flags =>
      cases hws : watchpoints? h a r proto with
      | none => exact .inl rfl
      | some ws =>
        refine .inr ⟨stamp, ⟨some stamp, proto, offset, flags, ws⟩, rfl, rfl, ?_, rfl⟩
        cases proto with
        | none =>
          cases hws
          exact ⟨hstamp.symm, rfl, rfl, hflags, rfl, Nat.zero_le _, List.forall_mem_nil _⟩
        | some holder =>
          obtain ⟨hpath, hdepth, hwatched⟩ := leadsTo_of_watch hws
          exact ⟨hstamp.symm, rfl, rfl, hflags, hpath, hdepth, hwatched⟩

namespace InOrder

theorem update (hc : c.InOrder fills) (h : Heap) (a : Atom) (r : Handle) (offset : Nat) (proto : Option Handle)
    (hf : (c.update h a r offset proto).1 = true → ⟨h, a, r, offset, proto⟩ ∈ fills) :
    (c.update h a r offset proto).2.InOrder fills := by
  rcases c.update_cases h a r offset proto with hrefused | ⟨stamp, item, _, hitem, hmade, hdone⟩
  · rw [hrefused]
    exact hc
  · rw [hdone] at hf ⊢
    exact hc.enter (f := ⟨h, a, r, offset, proto⟩) (hf rfl) hmade (by rw [hitem, Option.map_some])

theorem probe (hc : c.InOrder fills) (h : Heap) (a : Atom) (r : Handle) :
    (c.probe h a r).2.InOrder fills := by
  unfold InlineCache.probe
  split
  · split
    · dsimp only
      split
      · exact hc
      · exact hc.modifyRing a fun s hs => ⟨rfl, (hc.of_ring? hs).2.scrub _⟩
    · exact hc
  · exact hc

theorem lookup (hc : c.InOrder fills) (h : Heap) (a : Atom) (r : Handle) :
    (c.lookup h a r).2.InOrder fills := by
  have hprobe := hc.probe h a r
  unfold InlineCache.lookup
  split
  · rename_i hit
    rw [hit] at hprobe
    exact hprobe.count _
  · rename_i hmiss
    rw [hmiss] at hprobe
    exact hprobe.count _

theorem invalidate (hc : c.InOrder fills) (a : Atom) : (c.invalidate a).InOrder fills :=
  hc.modifyRing a fun s _ => ⟨rfl, CacheRing.kept_empty fills s.atom⟩

end InOrder

/-- An item that is entered is counted, and so is one that had to go. -/
theorem Tidy.stats_enter (hc : c.Tidy) (a : Atom) (shape : Handle) (item : CacheItem) :
    (c.enter a shape item).stats = { c.stats with
      updates := c.stats.updates + 1
      evictions := c.stats.evictions + (((c.ring? a).getD (.empty a)).put shape item).2.toNat } := by
  have hring := hc.ring?_withRing a a
  rw [if_pos rfl] at hring
  unfold InlineCache.enter
  simp only [hring, stats_modifyRing, stats_withRing]

/-- What an update that is not refused does: it puts the new item in one place of the ring of the atom, the
place of the item for the same shape, or else the one at the cursor, which moves on; then an item that was
there counts as evicted. -/
theorem Tidy.update_places (hc : c.Tidy) (h : Heap) (a : Atom) (r : Handle) (offset : Nat)
    (proto : Option Handle) : c.update h a r offset proto = (false, c) ∨ ∃ stamp item s s' c',
      c.update h a r offset proto = (true, c') ∧ h.objectStamp? r = some stamp ∧
      Fill.Makes ⟨h, a, r, offset, proto⟩ item ∧ (c.ring? a).getD (.empty a) = s ∧ c'.ring? a = some s' ∧
      (∀ b, b ≠ a → c'.ring? b = c.ring? b) ∧ c'.stats.updates = c.stats.updates + 1 ∧
      ∃ i, (∀ j, s'.item j = if i = j then item else s.item j) ∧
        (s.shapeAt i = some stamp.shape ∧ s'.cursor = s.cursor ∧ c'.stats.evictions = c.stats.evictions ∨
          (∀ j, s.shapeAt j ≠ some stamp.shape) ∧ i = s.cursor ∧ s'.cursor = s.cursor + 1 ∧
            c'.stats.evictions = c.stats.evictions + if (s.item i).stamp.isSome then 1 else 0) := by
  rcases c.update_cases h a r offset proto with hrefused | ⟨stamp, item, hstamp, _, hmade, hdone⟩
  · exact .inl hrefused
  · have hring := hc.ring?_enter a a stamp.shape item
    have hstats := hc.stats_enter a stamp.shape item
    rw [if_pos rfl] at hring
    generalize hs : (c.ring? a).getD (.empty a) = s at hring hstats
    refine .inr ⟨stamp, item, s, _, _, hdone, hstamp, hmade, rfl, hring, fun b hb => ?_, by rw [hstats], ?_⟩
    · rw [hc.ring?_enter, if_neg (Ne.symm hb)]
    · rw [hstats]
      rcases s.put_cases stamp.shape item with ⟨i, hi, _, hput⟩ | ⟨hnone, hput⟩
      · rw [hput]
        exact ⟨i, fun j => s.items_set i j item, .inl ⟨hi, rfl, rfl⟩⟩
      · rw [hput]
        refine ⟨s.cursor, fun j => s.items_set s.cursor j item, .inr ⟨hnone, rfl, rfl, ?_⟩⟩
        cases (s.item s.cursor).stamp <;> rfl

/-- The histories of a cache beside a heap that changes, with the fills on the way, the latest first. -/
inductive Used : Heap → InlineCache → List Fill → Prop where
  | start (h : Heap) : Used h .empty []
  | change {h : Heap} {c : InlineCache} {fills : List Fill} (hu : Used h c fills) (h' : Heap) : Used h' c fills
  | lookup {h : Heap} {c : InlineCache} {fills : List Fill} (hu : Used h c fills) (a : Atom) (r : Handle) :
      Used h (c.lookup h a r).2 fills
  | update {h : Heap} {c : InlineCache} {fills : List Fill} (hu : Used h c fills) (a : Atom) (r : Handle)
      (offset : Nat) (proto : Option Handle) : Used h (c.update h a r offset proto).2
        (if (c.update h a r offset proto).1 then ⟨h, a, r, offset, proto⟩ :: fills else fills)
  | invalidate {h : Heap} {c : InlineCache} {fills : List Fill} (hu : Used h c fills) (a : Atom) :
      Used h (c.invalidate a) fills
  | clear {h : Heap} {c : InlineCache} {fills : List Fill} (hu : Used h c fills) : Used h c.clear fills

/-- Whatever is done with a cache, it stays in order. -/
theorem Used.inOrder (hu : Used h c fills) : c.InOrder fills := by
  induction hu with
  | start h => exact .of_no_rings rfl rfl
  | change _ _ ih => exact ih
  | lookup _ a r ih => exact ih.lookup _ a r
  | @update h c fills _ a r offset proto ih =>
    refine InOrder.update (ih.mono ?_) h a r offset proto fun hdone => ?_
    · split
      · exact List.subset_cons_self _ _
      · exact List.Subset.refl _
    · rw [if_pos hdone]
      exact List.mem_cons_self
  | invalidate _ a ih => exact ih.invalidate a
  | clear _ _ => exact .of_no_rings rfl rfl

/-- However a cache is used, it is in order.  The directory gives different atoms different places among the
rings, where their rings stand, and leaves no ring out.  The cursor of a ring stands at one of its places; no
two items are for one shape; and every item is what a fill for the atom of the ring has made, so that it
watches the prototypes there were then on the way from the receiver to the holder, in their order.  An update
that is not refused enters what its fill makes.  It leaves the rings of other atoms alone, and of its own ring
all but one place: that of the item for the same shape, or the one at the cursor if there is none.  It counts
an eviction just if an item stood there. -/
theorem rings_in_order (hu : Used h c fills) :
    (∀ (a : Atom) (i : Nat), c.directory[a]? = some i → ∃ s, c.rings[i]? = some s ∧ s.atom = a) ∧
    (∀ (a b : Atom) (i : Nat), c.directory[a]? = some i → c.directory[b]? = some i → a = b) ∧
    (∀ (i : Nat) (s : CacheRing), c.rings[i]? = some s → c.directory[s.atom]? = some i) ∧
    (∀ (k : Nat) (s : CacheRing), c.rings[k]? = some s → s.cursor.val < ringSize ∧
      (∀ i j (p q : ShapeStamp), (s.item i).stamp = some p → (s.item j).stamp = some q →
        p.shape = q.shape → i = j) ∧
      ∀ i, (s.item i).stamp ≠ none → ∃ f ∈ fills, f.atom = s.atom ∧ f.Makes (s.item i)) ∧
    ∀ a r offset proto, c.update h a r offset proto = (false, c) ∨ ∃ stamp item s s' c',
      c.update h a r offset proto = (true, c') ∧ h.objectStamp? r = some stamp ∧
      Fill.Makes ⟨h, a, r, offset, proto⟩ item ∧ (c.ring? a).getD (.empty a) = s ∧ c'.ring? a = some s' ∧
      (∀ b, b ≠ a → c'.ring? b = c.ring? b) ∧ c'.stats.updates = c.stats.updates + 1 ∧
      ∃ i, (∀ j, s'.item j = if i = j then item else s.item j) ∧
        (s.shapeAt i = some stamp.shape ∧ s'.cursor = s.cursor ∧ c'.stats.evictions = c.stats.evictions ∨
          (∀ j, s.shapeAt j ≠ some stamp.shape) ∧ i = s.cursor ∧ s'.cursor = s.cursor + 1 ∧
            c'.stats.evictions = c.stats.evictions + if (s.item i).stamp.isSome then 1 else 0) := by
  have hc := hu.inOrder
  refine ⟨hc.tidy, fun a b i ha hb => ?_, hc.covers, fun k s hs => ?_, hc.tidy.update_places h⟩
  · obtain ⟨s, hs, rfl⟩ := hc.tidy a i ha
    obtain ⟨t, ht, rfl⟩ := hc.tidy b i hb
    cases hs.symm.trans ht
    rfl
  · obtain ⟨hdistinct, hfilled⟩ := hc.kept k s hs
    refine ⟨s.cursor.isLt, fun i j p q hp hq hpq => hdistinct i j p.shape ?_ ?_, hfilled⟩
    · rw [CacheRing.shapeAt, hp, Option.map_some]
    · rw [CacheRing.shapeAt, hq, Option.map_some, hpq]

/-- A cache is told of an inherited property: the ring of the atom has one item, at the place the cursor was
at, and it watches the prototype. -/
theorem rings_in_order_inherited : ∃ h c fills s, Used h c fills ∧ c.ring? ⟨300⟩ = some s ∧ s.cursor = 1 ∧
    c.stats.evictions = 0 ∧ (s.item 0).proto = some ⟨1, 0⟩ ∧
    (s.item 0).watchpoints.map (·.holder) = [⟨1, 0⟩] ∧ ∃ f ∈ fills, f.Makes (s.item 0) := by
  obtain ⟨h₁, -, hrest⟩ := ok_of_answers (x := (AllocM.newObject none).run (.new .default))
    (a := .ok ⟨1, 0⟩) (t := fun h =>
      answers ((AllocM.newObject (some ⟨1, 0⟩)).run h) (.ok ⟨3, 0⟩) fun h =>
      answers ((AllocM.defineProperty ⟨1, 0⟩ ⟨300⟩ .ordinary (.smi 7)).run h) (.ok true) fun h =>
        decide (h.objectStamp? ⟨3, 0⟩ = some ⟨⟨2, 0⟩, 0⟩ ∧ flagsAt? h ⟨300⟩ ⟨1, 0⟩ 0 = some .ordinary ∧
          watchpoints? h ⟨300⟩ ⟨3, 0⟩ (some ⟨1, 0⟩) = some [⟨⟨1, 0⟩, ⟨⟨0, 0⟩, 1⟩, ⟨300⟩⟩] ∧
          h.proto? ⟨3, 0⟩ = some ⟨1, 0⟩))
    (by decide +kernel)
  obtain ⟨h₂, -, hrest⟩ := ok_of_answers hrest
  obtain ⟨h, -, hfacts⟩ := ok_of_answers hrest
  obtain ⟨hstamp, hflags, hws, hproto⟩ := of_decide_eq_true hfacts
  have hdone : (InlineCache.empty.update h ⟨300⟩ ⟨3, 0⟩ 0 (some ⟨1, 0⟩)).1 = true := by
    simp [update, hstamp, hflags, hws]
  have hu := (Used.start h).update ⟨300⟩ ⟨3, 0⟩ 0 (some ⟨1, 0⟩)
  rw [if_pos hdone] at hu
  obtain ⟨-, -, -, -, hupdate⟩ := rings_in_order (Used.start h)
  obtain hrefused | ⟨stamp, item, s, s', c', hentered, hseen, hmade, hs, hring, -, -, i, hitems, hplace⟩ :=
    hupdate ⟨300⟩ ⟨3, 0⟩ 0 (some ⟨1, 0⟩)
  · rw [hrefused] at hdone
    cases hdone
  · rw [hentered] at hu
    have hnone : InlineCache.empty.ring? ⟨300⟩ = none := by simp [ring?, InlineCache.empty]
    obtain rfl : CacheRing.empty ⟨300⟩ = s := by rwa [hnone] at hs
    obtain ⟨hold, -⟩ | ⟨-, rfl, hcursor, hevicted⟩ := hplace
    · rw [CacheRing.shapeAt, CacheRing.stamp_empty] at hold
      cases hold
    · have hitem : s'.item 0 = item := hitems 0
      obtain ⟨-, -, -, hkept, -⟩ := rings_in_order hu
      obtain ⟨k, -, hk⟩ := Option.bind_eq_some_iff.mp hring
      obtain ⟨-, -, hfilled⟩ := hkept k s' hk
      have hstored : (s'.item 0).stamp ≠ none := by
        rw [hitem, hmade.stamp, hseen]
        exact Option.some_ne_none _
      obtain ⟨f, hf, -, hmakes⟩ := hfilled 0 hstored
      have hpath : h.LeadsTo ⟨1, 0⟩ (h.proto? ⟨3, 0⟩) (item.watchpoints.map (·.holder)) := hmade.path
      rw [hproto] at hpath
      refine ⟨h, c', _, s', hu, hring, hcursor, ?_, ?_, ?_, f, hf, hmakes⟩
      · rw [hevicted, CacheRing.stamp_empty]
        rfl
      · rw [hitem, hmade.proto]
      · rw [hitem]
        generalize item.watchpoints.map (·.holder) = rs at hpath
        cases hpath with
        | here => rfl
        | beyond hne _ => exact absurd rfl hne

end InlineCache

end ObjectMemory
