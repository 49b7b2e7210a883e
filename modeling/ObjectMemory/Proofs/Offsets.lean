import ObjectMemory.Proofs.Appending
import ObjectMemory.Proofs.CacheAgreement
import ObjectMemory.Proofs.CacheOrder
set_option autoImplicit false

/-!
# Offsets

The layout of an object is in one cell and its slots are in another.  Everything that finds a property
answers an index of the layout, which is then used for the slots.  In the heaps that a client comes to that
is safe (`Client.slots_match_layout`): layout and slots are of one length.

A cache answers an index of an earlier layout.  It is safe because the object that has the property is
watched, or is the receiver itself, and so has shown the same stamp since.  Nothing else that is recorded
matters here, so it may have been recorded by hand, with any arguments (`InlineCache.Beside`).

A stamp comes round after `2 ^ 32` changes, and then a cache does answer an index that has no slot
(`Client.offset_outlives_slot`).  Such a run is too long to be computed; but a change of a shape that is
owned by the client alone only advances its count (`Heap.Lone.prepareUpdate`), so the heap after any number
of them is known (`Client.Reached.age`).
-/

namespace ObjectMemory

/-! ## Found by a lookup -/

namespace Heap

variable {x : Ledger} {h : Heap} {r : Handle} {t : Shape} {atom : Atom} {i : Nat} {flags : Flags}

theorem Valid.size_of_shapeOf? (hv : h.Valid x) (ht : h.shapeOf? r = some t) :
    ∃ o, h.object? r = some o ∧ h.shape? o.shape = some t ∧ o.properties.size = t.entries.size := by
  obtain ⟨o, ho, ht⟩ := shapeOf?_eq_some_iff.mp ht
  exact ⟨o, ho, ht, (hv.laid.fits r o t (object?_iff_body?.mp ho) (shape?_iff_body?.mp ht)).symm⟩

/-- What is in the layout has a slot. -/
theorem Valid.lt_size_of_find? (hv : h.Valid x) (ht : h.shapeOf? r = some t)
    (hfind : t.find? atom = some (i, flags)) : ∃ o, h.object? r = some o ∧ i < o.properties.size := by
  obtain ⟨o, ho, _, hsize⟩ := hv.size_of_shapeOf? ht
  refine ⟨o, ho, ?_⟩
  rw [hsize]
  exact (Array.getElem?_eq_some_iff.mp (Shape.getElem?_of_find? hfind)).1

end Heap

/-! ## Found in a cache -/

namespace CacheItem

/-- The item was filled where receiver `r` or a watched prototype had an entry at the offset. -/
structure Placed (item : CacheItem) (h : Heap) (atom : Atom) (r : Handle) : Prop where
  stamp : item.stamp = h.objectStamp? r
  entry : InlineCache.flagsAt? h atom (item.proto.getD r) item.offset = some item.flags
  watched : ∀ holder, item.proto = some holder →
    ∃ w ∈ item.watchpoints, w.holder = holder ∧ h.objectStamp? holder = some w.stamp

end CacheItem

namespace InlineCache

variable {P : CacheItem → Heap → Atom → Handle → Prop} {c c' : InlineCache} {h h' : Heap} {r : Handle}
  {atom : Atom}

/-- Whoever is watched for has a watchpoint, with the stamp it shows. -/
theorem watched_of_watch {holder : Handle} {m : Nat} {p? : Option Handle} {ws : List Watchpoint}
    (hwatch : watch h atom holder m p? = some ws) :
    ∃ w ∈ ws, w.holder = holder ∧ h.objectStamp? holder = some w.stamp := by
  obtain ⟨hway, _, hshown⟩ := leadsTo_of_watch hwatch
  obtain ⟨w, hw, rfl⟩ := List.mem_map.mp hway.mem
  exact ⟨w, hw, rfl, (hshown w hw).2⟩

/-- Whatever is recorded is placed. -/
theorem Traces.placed_of_update (hc : c.Traces CacheItem.Placed h) (atom : Atom) (r : Handle) (offset : Nat)
    (proto : Option Handle) : (c.update h atom r offset proto).2.Traces CacheItem.Placed h := by
  refine hc.update fun stamp flags ws hstamp hflags hws => ⟨hstamp.symm, hflags, fun holder hproto => ?_⟩
  have hproto : proto = some holder := hproto
  subst hproto
  exact watched_of_watch hws

theorem recordable_placed : Recordable CacheItem.Placed := fun _ _ r atom _ hc _ =>
  hc.placed_of_update atom r _ _

/-- The object a hit speaks of shows the stamp it showed when the item was filled, and had an entry at the
offset then. -/
theorem Traces.stamp_of_hit (hc : c.Traces CacheItem.Placed h) {hit : CacheHit}
    (ehit : (c.lookup h atom r).1 = some hit) : ∃ n h₀ q s, Heap.Evolves n h₀ h ∧ h₀.shapeOf? q = some s ∧
      h.objectStamp? (hit.proto.getD r) = h₀.objectStamp? q ∧ hit.offset < s.entries.size := by
  obtain ⟨item, n, h₀, r₀, e, hplaced, hstamp, hvalid, rfl⟩ := hc.of_hit ehit
  obtain ⟨s, hs, hflags⟩ := Option.bind_eq_some_iff.mp hplaced.entry
  refine ⟨n, h₀, item.proto.getD r₀, s, e, hs, ?_,
    (Array.getElem?_eq_some_iff.mp (Shape.flagsAt?_eq_some_iff.mp hflags)).1⟩
  cases hproto : item.proto with
  | none => exact hstamp.symm.trans hplaced.stamp
  | some holder =>
    obtain ⟨w, hw, rfl, hseen⟩ := hplaced.watched holder hproto
    have hnow : h.objectStamp? w.holder = some w.stamp := by
      simpa [Watchpoint.isValid] using hvalid w hw
    exact hnow.trans hseen.symm

/-- The caches that a program can have beside a heap: made at any time, read and assigned through, asked,
filled by hand with any arguments, and kept through any operation. -/
inductive Beside : Heap → InlineCache → Prop where
  | empty (h : Heap) : Beside h .empty
  | keep {h h' : Heap} {c : InlineCache} {reply : Reply} (hc : Beside h c) (op : Operation)
      (e : op.perform h = .ok (reply, h')) : Beside h' c
  | get {h h' : Heap} {c c' : InlineCache} {r : Handle} {atom : Atom} {v : Value} (hc : Beside h c)
      (e : HeapM.getCached c r atom h = .ok ((v, c'), h')) : Beside h' c'
  | set {h h' : Heap} {c c' : InlineCache} {r : Handle} {atom : Atom} {v : Value}
      {res : Except OutOfMemory Bool} (hc : Beside h c)
      (e : AllocM.setCached c r atom v h = .ok ((res, c'), h')) : Beside h' c'
  | lookup {h : Heap} {c : InlineCache} (hc : Beside h c) (atom : Atom) (r : Handle) :
      Beside h (c.lookup h atom r).2
  | update {h : Heap} {c : InlineCache} (hc : Beside h c) (atom : Atom) (r : Handle) (offset : Nat)
      (proto : Option Handle) : Beside h (c.update h atom r offset proto).2
  | invalidate {h : Heap} {c : InlineCache} (hc : Beside h c) (atom : Atom) : Beside h (c.invalidate atom)
  | clear {h : Heap} {c : InlineCache} (hc : Beside h c) : Beside h c.clear

theorem Beside.placed (hc : Beside h c) : c.Traces CacheItem.Placed h := by
  induction hc with
  | empty h => exact .empty h
  | keep _ op e ih => exact ih.later (op.evolves e)
  | get _ e ih => exact HeapM.traces_getCached recordable_placed ih e
  | set _ e ih => exact AllocM.traces_setCached recordable_placed ih e
  | lookup _ atom r ih => exact ih.lookup atom r
  | update _ atom r offset proto ih => exact ih.placed_of_update atom r offset proto
  | invalidate _ atom ih => exact ih.invalidate atom
  | clear _ _ => exact .clear _ _

/-- What a cache was told of an object by hand, it answers for every object that shows the stamp the object
showed. -/
theorem Tidy.hit_of_update {q : Handle} {stamp : ShapeStamp} {i : Nat} {flags : Flags} (hc : c.Tidy)
    (hstamp : h.objectStamp? r = some stamp) (hflags : flagsAt? h atom r i = some flags)
    (hlater : h'.objectStamp? q = some stamp) :
    ((c.update h atom r i none).2.lookup h' atom q).1 = some ⟨i, none, flags⟩ := by
  have hupdate : (c.update h atom r i none).2 =
      c.enter atom stamp.shape ⟨some stamp, none, i, flags, []⟩ := by
    simp [update, hstamp, hflags, watchpoints?]
  rw [hupdate]
  exact hc.hit_of_enter hlater rfl (List.forall_mem_nil _)

end InlineCache

/-! ## Runs -/

namespace Client

variable {config : Config} {h : Heap} {x : Ledger} {s : Handle} {c : InlineCache}

/-- Slots match layouts: a live object has a live shape, and as many slots as the shape has entries.  So
the offset of every own property, of everything a lookup finds, and of everything a cache answers, is that
of a slot of the object it is said to be in; for a cache that is, as long as the count of changes of that
object's shape and the count of frees of its slot have not come round.  Adding a property never fails its
check. -/
theorem slots_match_layout (hr : Reached (fun _ => True) config h x) :
    (∀ r o, h.object? r = some o →
      ∃ t, h.shape? o.shape = some t ∧ o.properties.size = t.entries.size) ∧
    (∀ r atom i flags, h.findOwn? r atom = some (i, flags) →
      ∃ o, h.object? r = some o ∧ i < o.properties.size) ∧
    (∀ r atom l, h.lookup? r atom = some l →
      ∃ o, h.object? l.holder = some o ∧ l.offset < o.properties.size) ∧
    (∀ c r atom hit, InlineCache.Beside h c → (c.lookup h atom r).1 = some hit →
      ∃ o t, h.object? (hit.proto.getD r) = some o ∧ h.shape? o.shape = some t ∧
        (h.frees o.shape.index < 2 ^ 32 → t.changes < 2 ^ 32 → hit.offset < o.properties.size)) ∧
    ∀ (op : Operation) atom, op.Permitted x h → op.adds? = some atom → op.perform h ≠ .error .assertion := by
  obtain ⟨lost, _, hv⟩ := hr.valid
  refine ⟨fun r o ho => ?_, fun r atom i flags hown => ?_, fun r atom l hl => ?_,
    fun c r atom hit hc ehit => ?_, fun op atom hp hadds => ?_⟩
  · obtain ⟨t, ht, _⟩ := hv.sound.exists_record (Heap.object?_iff_body?.mp ho)
    exact ⟨t, Heap.shape?_iff_body?.mpr ht, (hv.laid.fits r o t (Heap.object?_iff_body?.mp ho) ht).symm⟩
  · obtain ⟨t, ht, hfind⟩ := Heap.shapeOf?_of_findOwn? hown
    exact hv.lt_size_of_find? ht hfind
  · obtain ⟨t, ht, hfind⟩ := Heap.find?_of_lookupFrom hl
    exact hv.lt_size_of_find? ht hfind
  · obtain ⟨n, h₀, q, s, e, hs, hstamp, hlt⟩ := hc.placed.stamp_of_hit ehit
    obtain ⟨o, t, ho, ht, hlayout⟩ := e.shape_of_stamp hstamp hs
    refine ⟨o, t, ho, ht, fun hfrees hchanges => ?_⟩
    rw [← hv.laid.fits _ o t (Heap.object?_iff_body?.mp ho) (Heap.shape?_iff_body?.mp ht),
      (hlayout hfrees hchanges).entries]
    exact hlt
  · rw [← Ledger.minus_plus hp.owned, Ledger.plus_comm] at hv
    exact (Heap.Valid.upheld_of_adds hadds hv hp.named).ne

/-- An object has one property, which a cache was told of by hand: the cache answers the one slot there is,
and another property can be added. -/
theorem slots_match_layout_recorded : ∃ h x c, Reached (fun _ => True) .default h x ∧
    InlineCache.Beside h c ∧ (c.lookup h ⟨300⟩ ⟨1, 0⟩).1 = some ⟨0, none, .ordinary⟩ ∧
    (∃ o, h.object? ⟨1, 0⟩ = some o ∧ 0 < o.properties.size) ∧
    (Operation.call (.defineProperty ⟨1, 0⟩ ⟨301⟩ .ordinary (.smi 8))).perform h ≠ .error .assertion := by
  obtain ⟨h₁, e₁, hrest⟩ := ok_of_answers (x := (Call.newObject none).perform (.new .default))
    (a := .handle ⟨1, 0⟩) (t := fun h =>
      answers ((Call.defineProperty ⟨1, 0⟩ ⟨300⟩ .ordinary (.smi 7)).perform h) (.flag true) fun h =>
        decide (h.objectStamp? ⟨1, 0⟩ = some ⟨⟨0, 0⟩, 1⟩ ∧
          InlineCache.flagsAt? h ⟨300⟩ ⟨1, 0⟩ 0 = some .ordinary ∧ h.slots.toList.all Heap.isUnwrapped))
    (by decide +kernel)
  obtain ⟨h₂, e₂, hfacts⟩ := ok_of_answers hrest
  obtain ⟨hstamp, hflags, hall⟩ := of_decide_eq_true hfacts
  have hw := Heap.unwrapped_of_all hall
  have hstart : Reached (fun _ => True) .default (.new .default) .empty := .start
  have hr₁ := hstart.next (.call (.newObject none)) trivial (.of_nothing rfl rfl) e₁
  have hr₂ := hr₁.next (.call (.defineProperty ⟨1, 0⟩ ⟨300⟩ .ordinary (.smi 7))) trivial
    (.of_nothing rfl rfl) e₂
  have hc := (InlineCache.Beside.empty h₂).update ⟨300⟩ ⟨1, 0⟩ 0 none
  have hhit := InlineCache.tidy_empty.hit_of_update hstamp hflags hstamp
  obtain ⟨_, _, _, hcaches, hadds⟩ := slots_match_layout hr₂
  obtain ⟨o, t, ho, ht, hlt⟩ := hcaches _ _ _ _ hc hhit
  exact ⟨h₂, _, _, hr₂, hc, hhit, ⟨o, ho, hlt (hw.frees _) (hw.changes _ t ht)⟩,
    hadds _ _ (.of_nothing rfl rfl) rfl⟩

end Client

/-! ## Stamps that come round -/

namespace Heap

variable {h : Heap} {s : Handle}

/-- The heap after a shape was changed `n` times and has its layout still. -/
def age (h : Heap) (s : Handle) (n : Nat) : Heap :=
  h.modifyShapeAt s.index fun t => { t with changes := t.changes + n }

/-- A shape has one owner and is not in the table. -/
structure Lone (h : Heap) (s : Handle) : Prop where
  shape : ∃ t, h.body? s = some (.shape t) ∧ t.isHashed = false
  count : h.refCount? s = some 1

theorem age_zero (h : Heap) (s : Handle) : h.age s 0 = h := by
  refine modifyCell_self h s.index fun c => ?_
  cases c with
  | mk refCount marked place size body => cases body <;> rfl

theorem age_age (h : Heap) (s : Handle) (n m : Nat) : (h.age s n).age s m = h.age s (n + m) := by
  unfold age modifyShapeAt modifyBody
  rw [modifyCell_modifyCell]
  congr 1
  funext c
  cases c with
  | mk refCount marked place size body => cases body <;> simp [Nat.add_assoc]

/-- Making a shape ready for changes only advances its count, if it is ready already. -/
theorem Lone.prepareUpdate (hs : h.Lone s) :
    (Call.prepareUpdate s).perform h = .ok (.handle s, h.age s 1) ∧ (h.age s 1).Lone s := by
  obtain ⟨t, ht, hhashed⟩ := hs.shape
  have hbump : HeapM.modifyShape s (·.bump) h = .ok ((), h.age s 1) := by
    simp [HeapM.modifyShape, shape?_iff_body?.mpr ht, age, Shape.bump]
  have hshape : HeapM.shape s h = .ok (t, h) := HeapM.read_apply (by rw [shape?_iff_body?.mpr ht])
  have hrun : (AllocM.prepareUpdate s).run h = .ok (.ok s, h.age s 1) := by
    unfold AllocM.prepareUpdate
    rw [AllocM.get_bind, if_neg (by simp [hs.count]), AllocM.lift_bind_of_ok hshape, hhashed,
      if_neg Bool.false_ne_true, AllocM.lift_bind_of_ok hbump]
    rfl
  obtain ⟨t', hre⟩ := Rewrites.of_modifyShape hbump
  cases hre.before.symm.trans ht
  exact ⟨HeapM.bind_of_ok hrun, ⟨_, hre.after, hhashed⟩, (hre.count s).trans hs.count⟩

end Heap

namespace Client

variable {config : Config} {h : Heap} {x : Ledger} {s : Handle} {c : InlineCache}

/-- A client that owns a shape alone can change it any number of times, and keep a cache beside. -/
theorem Reached.age (hr : Reached (fun _ => True) config h x) (hs : h.Lone s) (howned : 0 < x s)
    (hc : InlineCache.Beside h c) (n : Nat) : Reached (fun _ => True) config (h.age s n) x ∧
      (h.age s n).Lone s ∧ InlineCache.Beside (h.age s n) c := by
  induction n with
  | zero =>
    rw [Heap.age_zero]
    exact ⟨hr, hs, hc⟩
  | succ n ih =>
    obtain ⟨hr, hs, hc⟩ := ih
    obtain ⟨e, hs'⟩ := hs.prepareUpdate
    have hp : (Operation.call (.prepareUpdate s)).Permitted x (h.age s n) := .of_owned howned rfl rfl
    have hsettle : (Operation.call (.prepareUpdate s)).settle x (.handle s) = x := Ledger.minus_plus hp.owned
    have hnext := hr.next _ trivial hp e
    rw [hsettle] at hnext
    rw [← Heap.age_age]
    exact ⟨hnext, hs', hc.keep (.call (.prepareUpdate s)) e⟩

/-- A cache was told of the one property of an object.  The property is deleted, the layout compacted and
its shape changed until it shows the same version again; then another object is made of the shape.  For
this object the cache answers an offset that has no slot. -/
theorem offset_outlives_slot : ∃ h x c, Reached (fun _ => True) .default h x ∧ InlineCache.Beside h c ∧
    (c.lookup h ⟨300⟩ ⟨1, 1⟩).1 = some ⟨0, none, .ordinary⟩ ∧
    ∃ o, h.object? ⟨1, 1⟩ = some o ∧ o.properties.size = 0 := by
  obtain ⟨h₁, e₁, hrest⟩ := ok_of_answers (x := (Call.shapeForNewObject none).perform (.new .default))
    (a := .handle ⟨0, 0⟩) (t := fun h =>
      answers ((Call.prepareUpdate ⟨0, 0⟩).perform h) (.handle ⟨0, 0⟩) fun h =>
      answers ((Call.addProperty ⟨0, 0⟩ ⟨300⟩ .ordinary).perform h) (.extended ⟨0, 0⟩ 0) fun h =>
      answers ((Call.newObjectFromShape ⟨0, 0⟩ .ordinary).perform h) (.handle ⟨1, 0⟩) fun h =>
      decide (h.objectStamp? ⟨1, 0⟩ = some ⟨⟨0, 0⟩, 2⟩ ∧
        InlineCache.flagsAt? h ⟨300⟩ ⟨1, 0⟩ 0 = some .ordinary) &&
      answers ((Call.deleteProperty ⟨1, 0⟩ ⟨300⟩).perform h) (.flag true) fun h =>
      answers ((Call.compactProperties ⟨1, 0⟩).perform h) .done fun h =>
      answers ((Call.retain ⟨0, 0⟩).perform h) .done fun h =>
      answers ((Call.release ⟨1, 0⟩).perform h) .done fun h =>
      decide ((h.shape? ⟨0, 0⟩).map (·.isHashed) = some false ∧ h.refCount? ⟨0, 0⟩ = some 1) &&
      answers ((Call.newObjectFromShape ⟨0, 0⟩ .ordinary).perform (h.age ⟨0, 0⟩ (2 ^ 32 - 4)))
        (.handle ⟨1, 1⟩) fun h =>
      decide (h.objectStamp? ⟨1, 1⟩ = some ⟨⟨0, 0⟩, 2⟩ ∧
        (h.object? ⟨1, 1⟩).map (·.properties.size) = some 0))
    (by decide +kernel)
  obtain ⟨h₂, e₂, hrest⟩ := ok_of_answers hrest
  obtain ⟨h₃, e₃, hrest⟩ := ok_of_answers hrest
  obtain ⟨h₄, e₄, hrest⟩ := ok_of_answers hrest
  obtain ⟨hfilled, hrest⟩ := Bool.and_eq_true_iff.mp hrest
  obtain ⟨hstamp, hflags⟩ := of_decide_eq_true hfilled
  obtain ⟨h₅, e₅, hrest⟩ := ok_of_answers hrest
  obtain ⟨h₆, e₆, hrest⟩ := ok_of_answers hrest
  obtain ⟨h₇, e₇, hrest⟩ := ok_of_answers hrest
  obtain ⟨h₈, e₈, hrest⟩ := ok_of_answers hrest
  obtain ⟨hlone, hrest⟩ := Bool.and_eq_true_iff.mp hrest
  obtain ⟨hshape, hcount⟩ := of_decide_eq_true hlone
  obtain ⟨t, ht, hhashed⟩ := Option.map_eq_some_iff.mp hshape
  obtain ⟨h₉, e₉, hfacts⟩ := ok_of_answers hrest
  obtain ⟨hlater, hsize⟩ := of_decide_eq_true hfacts
  obtain ⟨o, ho, hsize⟩ := Option.map_eq_some_iff.mp hsize
  have hstart : Reached (fun _ => True) .default (.new .default) .empty := .start
  have hr₁ := hstart.next (.call (.shapeForNewObject none)) trivial (.of_nothing rfl rfl) e₁
  have hr₂ := hr₁.next (.call (.prepareUpdate ⟨0, 0⟩)) trivial
    (.of_owned (Operation.settle_pos _ (List.mem_singleton_self _)) rfl rfl) e₂
  have hr₃ := hr₂.next (.call (.addProperty ⟨0, 0⟩ ⟨300⟩ .ordinary)) trivial
    (.of_owned (Operation.settle_pos _ (List.mem_singleton_self _)) rfl rfl) e₃
  have hr₄ := hr₃.next (.call (.newObjectFromShape ⟨0, 0⟩ .ordinary)) trivial
    (.of_owned (Operation.settle_pos _ (List.mem_singleton_self _)) rfl rfl) e₄
  have hr₅ := hr₄.next (.call (.deleteProperty ⟨1, 0⟩ ⟨300⟩)) trivial (.of_nothing rfl rfl) e₅
  have hr₆ := hr₅.next (.call (.compactProperties ⟨1, 0⟩)) trivial (.of_nothing rfl rfl) e₆
  have hr₇ := hr₆.next (.call (.retain ⟨0, 0⟩)) trivial (.of_nothing rfl rfl) e₇
  have hr₈ := hr₇.next (.call (.release ⟨1, 0⟩)) trivial (.of_owned (by decide) rfl rfl) e₈
  -- the cache is kept through all that follows
  have hc₄ := (InlineCache.Beside.empty h₄).update ⟨300⟩ ⟨1, 0⟩ 0 none
  have hc₅ := hc₄.keep (.call (.deleteProperty ⟨1, 0⟩ ⟨300⟩)) e₅
  have hc₆ := hc₅.keep (.call (.compactProperties ⟨1, 0⟩)) e₆
  have hc₇ := hc₆.keep (.call (.retain ⟨0, 0⟩)) e₇
  have hc₈ := hc₇.keep (.call (.release ⟨1, 0⟩)) e₈
  have hs₈ : h₈.Lone ⟨0, 0⟩ := ⟨⟨t, Heap.shape?_iff_body?.mp ht, hhashed⟩, hcount⟩
  obtain ⟨hr, -, hc⟩ := hr₈.age hs₈ (by decide) hc₈ (2 ^ 32 - 4)
  have hr₉ := hr.next (.call (.newObjectFromShape ⟨0, 0⟩ .ordinary)) trivial (.of_owned (by decide) rfl rfl) e₉
  exact ⟨h₉, _, _, hr₉, hc.keep (.call (.newObjectFromShape ⟨0, 0⟩ .ordinary)) e₉,
    InlineCache.tidy_empty.hit_of_update hstamp hflags hlater, o, ho, hsize⟩

end Client

end ObjectMemory
