import ObjectMemory.Proofs.CacheRings
import ObjectMemory.Proofs.CallHistory
set_option autoImplicit false

/-!
# Reading and assigning through a cache

A cache answers from what it saw in an earlier heap.  It is right because a stamp seen again means a
layout unchanged in between (`Heap.Evolves.layout_of_stamp`): no operation edits a layout without
counting the edit, and no operation gives a slot to another cell without counting a free.  The counts
are stored in 32-bit words, so this holds until one of them wraps around.

`InlineCache.Reached` is the run of a heap together with a cache of a client who does anything at all, in any
order.
-/

namespace ObjectMemory

/-- The flags of the entry a property is found at are the flags it is found with. -/
theorem Shape.flagsAt?_of_find? {s : Shape} {atom : Atom} {i : Nat} {flags : Flags}
    (e : s.find? atom = some (i, flags)) : s.flagsAt? atom i = some flags := by
  unfold find? at e
  split at e
  · cases e
  · obtain ⟨j, _, hj⟩ := List.exists_of_findSome?_eq_some e
    obtain ⟨f, hf, heq⟩ := Option.map_eq_some_iff.mp hj
    cases heq
    exact hf

namespace Heap

/-- No slot was freed and no shape was changed as often as it takes its 32-bit word to come round. -/
structure Unwrapped (h : Heap) : Prop where
  frees : ∀ i, h.frees i < 2 ^ 32
  changes : ∀ r s, h.shape? r = some s → s.changes < 2 ^ 32

variable {h h₀ : Heap} {r r₀ p holder : Handle} {atom : Atom} {n : Nat} {s s₀ : Shape}

/-- Whether the words of one slot are far from coming round. -/
def isUnwrapped (s : Slot) : Bool :=
  s.frees < 2 ^ 32 && match s.cell with
    | some ⟨_, _, _, _, .shape layout⟩ => layout.changes < 2 ^ 32
    | _ => true

theorem unwrapped_of_all (hall : h.slots.toList.all isUnwrapped = true) : h.Unwrapped := by
  have hslot : ∀ i s, h.slots[i]? = some s → isUnwrapped s = true := fun i s hs =>
    List.all_eq_true.mp hall s (Array.mem_toList_iff.mpr (Array.mem_of_getElem? hs))
  refine ⟨fun i => ?_, fun r s hs => ?_⟩
  · unfold Heap.frees
    cases hi : h.slots[i]? with
    | none => decide
    | some s =>
      have := hslot i s hi
      simp only [isUnwrapped, Bool.and_eq_true, decide_eq_true_eq] at this
      exact this.1
  · obtain ⟨c, hc, hb⟩ := shape?_eq_some_iff.mp hs
    obtain ⟨t, ht, htc, _⟩ := slot_of_tenant (tenant?_of_cell? hc)
    have := hslot _ t ht
    obtain ⟨refCount, mark, place, size, body⟩ := c
    subst hb
    simp only [isUnwrapped, htc, Bool.and_eq_true, decide_eq_true_eq] at this
    exact this.2

/-! ## Stamps -/

theorem objectStamp?_eq_some_iff {stamp : ShapeStamp} : h.objectStamp? r = some stamp ↔
    ∃ o s, h.object? r = some o ∧ h.shape? o.shape = some s ∧ stamp = ⟨o.shape, s.version⟩ := by
  unfold objectStamp? shapeStamp?
  simp only [Option.bind_eq_some_iff, Option.map_eq_some_iff]
  constructor
  · rintro ⟨o, ho, s, hs, rfl⟩
    exact ⟨o, s, ho, hs, rfl⟩
  · rintro ⟨o, s, ho, hs, rfl⟩
    exact ⟨o, ho, s, hs, rfl⟩

theorem shapeOf?_eq_some_iff : h.shapeOf? r = some s ↔
    ∃ o, h.object? r = some o ∧ h.shape? o.shape = some s := by
  unfold shapeOf?
  exact Option.bind_eq_some_iff

theorem proto?_of_shapeOf? (hs : h.shapeOf? r = some s) : h.proto? r = s.proto := by
  simp [proto?, hs]

theorem findOwn?_of_shapeOf? (hs : h.shapeOf? r = some s) : h.findOwn? r atom = s.find? atom := by
  obtain ⟨o, ho, hs⟩ := shapeOf?_eq_some_iff.mp hs
  simp [findOwn?, findProperty?, ho, hs]

/-- A shape that is still there under its handle is the same cell all along. -/
theorem Evolves.follows_of_frees (e : Evolves n h₀ h) (hfrees : h.frees r.index < 2 ^ 32)
    (hs₀ : h₀.shape? r = some s₀) (hs : h.shape? r = some s) : s₀.Follows s := by
  obtain ⟨c₀, hc₀, hb₀⟩ := shape?_eq_some_iff.mp hs₀
  obtain ⟨c, hc, hb⟩ := shape?_eq_some_iff.mp hs
  obtain ⟨ht₀, hg₀⟩ := cell?_eq_some_iff.mp hc₀
  obtain ⟨ht, hg⟩ := cell?_eq_some_iff.mp hc
  have hsame : h.frees r.index = h₀.frees r.index := by
    have hle := e.frees r.index
    have hword := congrArg UInt32.toNat (hg.trans hg₀.symm)
    rw [UInt32.toNat_ofNat', UInt32.toNat_ofNat', Nat.mod_eq_of_lt hfrees,
      Nat.mod_eq_of_lt (by omega)] at hword
    exact hword
  obtain ⟨c', hc', hfollow⟩ := e.kept r.index c₀ ht₀ hsame
  rw [ht] at hc'
  cases hc'
  obtain ⟨s', hs', hss⟩ := hfollow.shape s₀ hb₀
  rw [hb] at hs'
  cases hs'
  exact hss

theorem Evolves.shape_follows (e : Evolves n h₀ h) (hw : h.Unwrapped) (hs₀ : h₀.shape? r = some s₀)
    (hs : h.shape? r = some s) : s₀.Follows s := e.follows_of_frees (hw.frees _) hs₀ hs

/-- A shape that is at the version it was at has the layout it had. -/
theorem Evolves.layout_of_version (e : Evolves n h₀ h) (hfrees : h.frees r.index < 2 ^ 32)
    (hchanges : s.changes < 2 ^ 32) (hs₀ : h₀.shape? r = some s₀) (hs : h.shape? r = some s)
    (hversion : s.version = s₀.version) : s₀.SameLayout s := by
  have hfollow := e.follows_of_frees hfrees hs₀ hs
  refine hfollow.layout ?_
  have hle := hfollow.changes
  have hword := congrArg UInt32.toNat hversion
  unfold Shape.version at hword
  rw [UInt32.toNat_ofNat', UInt32.toNat_ofNat', Nat.mod_eq_of_lt hchanges,
    Nat.mod_eq_of_lt (by omega)] at hword
  exact hword.symm

/-- An object that shows the stamp another one showed earlier has a shape of the same layout, as long as
the counts of this shape have not come round. -/
theorem Evolves.shape_of_stamp (e : Evolves n h₀ h) (hstamp : h.objectStamp? r = h₀.objectStamp? r₀)
    (hs₀ : h₀.shapeOf? r₀ = some s₀) : ∃ o s, h.object? r = some o ∧ h.shape? o.shape = some s ∧
      (h.frees o.shape.index < 2 ^ 32 → s.changes < 2 ^ 32 → s₀.SameLayout s) := by
  obtain ⟨o₀, ho₀, hs₀⟩ := shapeOf?_eq_some_iff.mp hs₀
  have hseen : h₀.objectStamp? r₀ = some ⟨o₀.shape, s₀.version⟩ :=
    objectStamp?_eq_some_iff.mpr ⟨o₀, s₀, ho₀, hs₀, rfl⟩
  obtain ⟨o, s, ho, hs, heq⟩ := objectStamp?_eq_some_iff.mp (hstamp.trans hseen)
  obtain ⟨hshape, hversion⟩ := ShapeStamp.mk.inj heq
  exact ⟨o, s, ho, hs, fun hfrees hchanges =>
    e.layout_of_version hfrees hchanges (hshape ▸ hs₀) hs hversion.symm⟩

/-- Two objects, one of an earlier heap, that show the same stamp have the same layout. -/
theorem Evolves.layout_of_stamp (e : Evolves n h₀ h) (hw : h.Unwrapped)
    (hstamp : h.objectStamp? r = h₀.objectStamp? r₀) (hs₀ : h₀.shapeOf? r₀ = some s₀) :
    ∃ s, h.shapeOf? r = some s ∧ s₀.SameLayout s := by
  obtain ⟨o, s, ho, hs, hlayout⟩ := e.shape_of_stamp hstamp hs₀
  exact ⟨s, shapeOf?_eq_some_iff.mpr ⟨o, ho, hs⟩, hlayout (hw.frees _) (hw.changes _ s hs)⟩

/-! ## Trails along prototypes -/

/-- The prototypes from `p` on, without the property, to the one that has it: what a recorded item
watches. -/
inductive Trail (h : Heap) (atom : Atom) (holder : Handle) (offset : Nat) (flags : Flags) :
    Option Handle → List Watchpoint → Prop where
  | here {s : Shape} {stamp : ShapeStamp} (hs : h.shapeOf? holder = some s)
      (hstamp : h.objectStamp? holder = some stamp) (hfind : s.find? atom = some (offset, flags)) :
      Trail h atom holder offset flags (some holder) [⟨holder, stamp, atom⟩]
  | further {p : Handle} {s : Shape} {stamp : ShapeStamp} {ws : List Watchpoint}
      (hs : h.shapeOf? p = some s) (hstamp : h.objectStamp? p = some stamp)
      (hfind : s.find? atom = none) (rest : Trail h atom holder offset flags s.proto ws) :
      Trail h atom holder offset flags (some p) (⟨p, stamp, atom⟩ :: ws)

variable {offset depth : Nat} {flags : Flags} {ws : List Watchpoint} {o? : Option Handle}

/-- A trail starts at some prototype. -/
theorem Trail.start (t : Trail h atom holder offset flags o? ws) : ∃ p, o? = some p := by
  cases t with
  | here => exact ⟨_, rfl⟩
  | further => exact ⟨_, rfl⟩

/-- A trail is the way a lookup goes. -/
theorem Trail.lookupFrom (t : Trail h atom holder offset flags o? ws) {p : Handle} (hp : o? = some p)
    (n depth : Nat) (hn : ws.length ≤ n) :
    ∃ d, h.lookupFrom atom n depth p = some ⟨holder, offset, flags, d⟩ := by
  induction t generalizing n depth p with
  | here hs _ hfind =>
    cases hp
    obtain ⟨n, rfl⟩ : ∃ m, n = m + 1 := ⟨n - 1, by simp at hn; omega⟩
    exact ⟨depth, by simp [Heap.lookupFrom, hs, hfind]⟩
  | @further q s _ ws hs _ hfind rest ih =>
    cases hp
    obtain ⟨n, rfl⟩ : ∃ m, n = m + 1 := ⟨n - 1, by simp at hn; omega⟩
    obtain ⟨q, hq⟩ := rest.start
    obtain ⟨d, hd⟩ := ih hq n (depth + 1) (by simpa using hn)
    exact ⟨d, by simp [Heap.lookupFrom, hs, hfind, hq, hd]⟩

/-- A trail whose watchpoints all hold leads to the same place in a later heap. -/
theorem Trail.later (t : Trail h₀ atom holder offset flags o? ws) (e : Evolves n h₀ h)
    (hw : h.Unwrapped) (hvalid : ∀ w ∈ ws, w.isValid h = true) :
    Trail h atom holder offset flags o? ws := by
  induction t with
  | @here s₀ stamp hs hstamp hfind =>
    have hnow : h.objectStamp? holder = some stamp := by
      simpa [Watchpoint.isValid] using hvalid _ (List.mem_singleton.mpr rfl)
    obtain ⟨s, hs', hlayout⟩ := e.layout_of_stamp hw (hnow.trans hstamp.symm) hs
    exact .here hs' hnow ((hlayout.find? atom).trans hfind)
  | @further p s₀ stamp ws hs hstamp hfind rest ih =>
    have hnow : h.objectStamp? p = some stamp := by
      simpa [Watchpoint.isValid] using hvalid _ (List.mem_cons_self ..)
    obtain ⟨s, hs', hlayout⟩ := e.layout_of_stamp hw (hnow.trans hstamp.symm) hs
    have hrest := ih fun w hmem => hvalid w (List.mem_cons_of_mem _ hmem)
    rw [← hlayout.proto] at hrest
    exact .further hs' hnow ((hlayout.find? atom).trans hfind) hrest

/-- A lookup ends at an object that has the property itself. -/
theorem find?_of_lookupFrom {l : Location} (hl : h.lookupFrom atom n depth p = some l) :
    ∃ s, h.shapeOf? l.holder = some s ∧ s.find? atom = some (l.offset, l.flags) := by
  induction n generalizing p depth with
  | zero => simp [Heap.lookupFrom] at hl
  | succ n ih =>
    cases hs : h.shapeOf? p with
    | none => simp [Heap.lookupFrom, hs] at hl
    | some s =>
      simp only [Heap.lookupFrom, hs] at hl
      cases hfind : s.find? atom with
      | some found =>
        obtain ⟨offset, flags⟩ := found
        simp only [hfind, Option.some.injEq] at hl
        subst hl
        exact ⟨s, hs, hfind⟩
      | none =>
        cases hproto : s.proto with
        | none => simp [hfind, hproto] at hl
        | some q => exact ih (by simpa [hfind, hproto] using hl)

theorem depth_le_of_lookupFrom {l : Location} (hl : h.lookupFrom atom n depth p = some l) :
    depth ≤ l.depth := by
  induction n generalizing p depth with
  | zero => simp [Heap.lookupFrom] at hl
  | succ n ih =>
    cases hs : h.shapeOf? p with
    | none => simp [Heap.lookupFrom, hs] at hl
    | some s =>
      simp only [Heap.lookupFrom, hs] at hl
      cases hfind : s.find? atom with
      | some found =>
        simp only [hfind, Option.some.injEq] at hl
        subst hl
        exact Nat.le_refl _
      | none =>
        cases hproto : s.proto with
        | none => simp [hfind, hproto] at hl
        | some q => exact Nat.le_of_succ_le (ih (by simpa [hfind, hproto] using hl))

/-- A property is found on the receiver itself or behind it. -/
theorem lookup?_cases {l : Location} (hl : h.lookup? r atom = some l) : ∃ s, h.shapeOf? r = some s ∧
    ((l.holder = r ∧ l.depth = 0 ∧ s.find? atom = some (l.offset, l.flags)) ∨
      (0 < l.depth ∧ s.find? atom = none ∧
        ∃ q, s.proto = some q ∧ h.lookupFrom atom h.slots.size 1 q = some l)) := by
  unfold lookup? at hl
  cases hs : h.shapeOf? r with
  | none => simp [Heap.lookupFrom, hs] at hl
  | some s =>
    refine ⟨s, rfl, ?_⟩
    simp only [Heap.lookupFrom, hs] at hl
    cases hfind : s.find? atom with
    | some found =>
      simp only [hfind, Option.some.injEq] at hl
      subst hl
      exact .inl ⟨rfl, rfl, rfl⟩
    | none =>
      cases hproto : s.proto with
      | none => simp [hfind, hproto] at hl
      | some q =>
        simp only [hfind, hproto, Nat.zero_add] at hl
        exact .inr ⟨depth_le_of_lookupFrom hl, rfl, q, rfl, hl⟩

theorem shapeOf?_of_findOwn? (hown : h.findOwn? r atom = some (offset, flags)) :
    ∃ t, h.shapeOf? r = some t ∧ t.find? atom = some (offset, flags) := by
  obtain ⟨o, ho, hfind⟩ := Option.bind_eq_some_iff.mp hown
  obtain ⟨t, ht, hfind⟩ := Option.bind_eq_some_iff.mp hfind
  exact ⟨t, shapeOf?_eq_some_iff.mpr ⟨o, ho, ht⟩, hfind⟩

theorem lookupFrom_of_findOwn? (hown : h.findOwn? r atom = some (offset, flags)) :
    h.lookupFrom atom (n + 1) depth r = some ⟨r, offset, flags, depth⟩ := by
  obtain ⟨t, ht, hfind⟩ := shapeOf?_of_findOwn? hown
  simp only [Heap.lookupFrom, ht, hfind]

theorem lookup?_of_findOwn? (hown : h.findOwn? r atom = some (offset, flags)) :
    h.lookup? r atom = some ⟨r, offset, flags, 0⟩ := lookupFrom_of_findOwn? hown

/-- The watchpoints recorded for a lookup are its trail. -/
theorem trail_of_lookupFrom {l : Location} {m : Nat}
    (hl : h.lookupFrom atom n depth p = some l)
    (hwatch : InlineCache.watch h atom l.holder m (some p) = some ws) :
    Trail h atom l.holder l.offset l.flags (some p) ws ∧ ws.length ≤ n := by
  induction n generalizing p depth m ws with
  | zero => simp [Heap.lookupFrom] at hl
  | succ n ih =>
    cases m with
    | zero => simp [InlineCache.watch] at hwatch
    | succ m =>
      simp only [InlineCache.watch] at hwatch
      cases hstamp : h.objectStamp? p with
      | none => simp [hstamp] at hwatch
      | some stamp =>
        obtain ⟨o, s, ho, hs, _⟩ := objectStamp?_eq_some_iff.mp hstamp
        have hsp : h.shapeOf? p = some s := shapeOf?_eq_some_iff.mpr ⟨o, ho, hs⟩
        simp only [hstamp] at hwatch
        simp only [Heap.lookupFrom, hsp] at hl
        cases hfind : s.find? atom with
        | some found =>
          obtain ⟨offset, flags⟩ := found
          simp only [hfind, Option.some.injEq] at hl
          subst hl
          rw [if_pos rfl] at hwatch
          cases hwatch
          exact ⟨.here hsp hstamp hfind, by simp⟩
        | none =>
          simp only [hfind] at hl
          cases hproto : s.proto with
          | none => simp [hproto] at hl
          | some q =>
            simp only [hproto] at hl
            -- the holder has the property and `p` has not
            have hne : p ≠ l.holder := by
              rintro rfl
              obtain ⟨s', hs', hfound⟩ := find?_of_lookupFrom hl
              rw [hsp] at hs'
              cases hs'
              rw [hfind] at hfound
              cases hfound
            rw [if_neg hne, proto?_of_shapeOf? hsp, hproto] at hwatch
            obtain ⟨ws', hws', rfl⟩ := Option.map_eq_some_iff.mp hwatch
            obtain ⟨htrail, hlen⟩ := ih hl hws'
            rw [← hproto] at htrail
            exact ⟨.further hsp hstamp hfind htrail, Nat.succ_le_succ hlen⟩

end Heap

/-! ## What a cache remembers -/

namespace CacheItem

/-- The item says where the receiver `r` had the property in the heap `h`. -/
structure Recorded (item : CacheItem) (h : Heap) (atom : Atom) (r : Handle) : Prop where
  stamp : item.stamp = h.objectStamp? r
  found : ∃ s, h.shapeOf? r = some s ∧
    match item.proto with
    | none => s.find? atom = some (item.offset, item.flags)
    | some holder => s.find? atom = none ∧ item.watchpoints.length ≤ h.slots.size ∧
      h.Trail atom holder item.offset item.flags s.proto item.watchpoints

variable {item : CacheItem} {h h₀ : Heap} {atom : Atom} {r r₀ : Handle} {n : Nat}

/-- An item whose stamp is seen again and whose watchpoints hold says where the property is now. -/
theorem Recorded.lookup?_eq (hrec : item.Recorded h₀ atom r₀) (e : h₀.Evolves n h) (hw : h.Unwrapped)
    (hstamp : item.stamp = h.objectStamp? r)
    (hvalid : ∀ w ∈ item.watchpoints, w.isValid h = true) :
    (∃ d, h.lookup? r atom = some ⟨item.proto.getD r, item.offset, item.flags, d⟩) ∧
      (item.proto = none → h.findOwn? r atom = some (item.offset, item.flags)) := by
  obtain ⟨s₀, hs₀, hfound⟩ := hrec.found
  obtain ⟨s, hs, hlayout⟩ := e.layout_of_stamp hw (hstamp.symm.trans hrec.stamp) hs₀
  unfold Heap.lookup?
  cases hproto : item.proto with
  | none =>
    simp only [hproto] at hfound
    have hfind := (hlayout.find? atom).trans hfound
    refine ⟨⟨0, ?_⟩, fun _ => (Heap.findOwn?_of_shapeOf? hs).trans hfind⟩
    simp [Heap.lookupFrom, hs, hfind]
  | some holder =>
    simp only [hproto] at hfound
    obtain ⟨hmiss, hlen, htrail⟩ := hfound
    have hnow := htrail.later e hw hvalid
    have hsize := e.size
    obtain ⟨q, hq⟩ := htrail.start
    obtain ⟨d, hd⟩ := hnow.lookupFrom hq h.slots.size 1 (by omega)
    refine ⟨⟨d, ?_⟩, nofun⟩
    simp [Heap.lookupFrom, hs, (hlayout.find? atom).trans hmiss, hlayout.proto.trans hq, hd]

end CacheItem

namespace InlineCache

/-- Of every item of the cache `P` tells how it came from some earlier heap, of which `h` is a later state. -/
structure Traces (P : CacheItem → Heap → Atom → Handle → Prop) (c : InlineCache) (h : Heap) : Prop where
  tidy : c.Tidy
  recorded : ∀ atom s, c.ring? atom = some s → ∀ i : Fin ringSize, (s.item i).stamp ≠ none →
    ∃ n h₀ r₀, Heap.Evolves n h₀ h ∧ P (s.item i) h₀ atom r₀

/-- Every item of the cache is what some earlier heap, of which `h` is a later state, had. -/
abbrev Remembers (c : InlineCache) (h : Heap) : Prop := Traces CacheItem.Recorded c h

/-- What is recorded where a lookup found a property is traced too. -/
def Recordable (P : CacheItem → Heap → Atom → Handle → Prop) : Prop :=
  ∀ c h r atom (l : Location), Traces P c h → h.lookup? r atom = some l →
    Traces P (c.update h atom r l.offset (if l.depth > 0 then some l.holder else none)).2 h

variable {P : CacheItem → Heap → Atom → Handle → Prop} {c : InlineCache} {h h' : Heap} {r : Handle}
  {atom : Atom} {n : Nat}

namespace Traces

theorem empty (h : Heap) : Traces P .empty h :=
  ⟨tidy_empty, fun atom s hs => by simp [InlineCache.empty, ring?] at hs⟩

theorem later (hc : c.Traces P h) (e : h.Evolves n h') : c.Traces P h' := by
  refine ⟨hc.tidy, fun atom s hs i hi => ?_⟩
  obtain ⟨m, h₀, r₀, e₀, hrec⟩ := hc.recorded atom s hs i hi
  exact ⟨m + n, h₀, r₀, e₀.trans e, hrec⟩

/-- The counters have no part in what is remembered. -/
theorem of_counters (hc : c.Traces P h) (stats : CacheStats) :
    Traces P { c with stats := stats } h :=
  ⟨hc.tidy, hc.recorded⟩

/-- A ring may lose items. -/
theorem modifyRing (hc : c.Traces P h) (atom : Atom) {f : CacheRing → CacheRing}
    (hf : ∀ s, (f s).atom = s.atom)
    (hitems : ∀ s (i : Fin ringSize), ((f s).item i).stamp ≠ none → (f s).item i = s.item i) :
    (c.modifyRing atom f).Traces P h := by
  refine ⟨hc.tidy.modifyRing atom fun s _ => hf s, fun b t ht i hi => ?_⟩
  rw [hc.tidy.ring?_modifyRing] at ht
  split at ht
  · rename_i hab
    subst hab
    obtain ⟨s, hs, rfl⟩ := Option.map_eq_some_iff.mp ht
    have hsame := hitems s i hi
    rw [hsame] at hi ⊢
    exact hc.recorded atom s hs i hi
  · exact hc.recorded b t ht i hi

theorem invalidate (hc : c.Traces P h) (atom : Atom) : (c.invalidate atom).Traces P h :=
  hc.modifyRing atom (fun _ => rfl) fun s i hi => absurd (CacheRing.stamp_empty s.atom i) hi

theorem clear (c : InlineCache) (h : Heap) : c.clear.Traces P h := by
  refine ⟨tidy_clear c, fun atom s hs => ?_⟩
  rw [ring?_clear] at hs
  cases hs

theorem enter (hc : c.Traces P h) {item : CacheItem} (hrec : P item h atom r)
    (shape : Handle) : (c.enter atom shape item).Traces P h := by
  refine ⟨hc.tidy.enter atom shape item, fun b t ht i hi => ?_⟩
  rw [hc.tidy.ring?_enter] at ht
  split at ht
  · rename_i hab
    subst hab
    cases ht
    rcases CacheRing.items_put ((c.ring? atom).getD (.empty atom)) shape item i with hput | hput
    · rw [hput]
      exact ⟨0, h, r, .refl h, hrec⟩
    · rw [hput] at hi ⊢
      cases hs : c.ring? atom with
      | none =>
        rw [hs] at hi
        exact absurd (CacheRing.stamp_empty atom i) hi
      | some s => exact hc.recorded atom s hs i (by simpa [hs] using hi)
  · exact hc.recorded b t ht i hi

/-- What is recorded by hand is entered only if the property is there, behind watchpoints. -/
theorem update (hc : c.Traces P h) {offset : Nat} {proto : Option Handle}
    (hrec : ∀ stamp flags ws, h.objectStamp? r = some stamp →
      flagsAt? h atom (proto.getD r) offset = some flags → watchpoints? h atom r proto = some ws →
      P ⟨some stamp, proto, offset, flags, ws⟩ h atom r) :
    (c.update h atom r offset proto).2.Traces P h := by
  unfold InlineCache.update
  cases hstamp : h.objectStamp? r with
  | none => exact hc
  | some stamp =>
    dsimp only
    split
    · exact hc
    · rename_i flags hflags
      split
      · exact hc
      · rename_i ws hws
        exact hc.enter (hrec stamp flags ws hstamp hflags hws) stamp.shape

theorem lookup (hc : c.Traces P h) (atom : Atom) (r : Handle) : (c.lookup h atom r).2.Traces P h := by
  have hprobe : (c.probe h atom r).2.Traces P h := by
    unfold probe
    split
    · split
      · dsimp only
        split
        · exact hc
        · refine hc.modifyRing atom (fun _ => rfl) fun s j hj => ?_
          rw [CacheRing.items_set] at hj ⊢
          split
          · rename_i hij
            rw [if_pos hij] at hj
            exact absurd rfl hj
          · rfl
      · exact hc
    · exact hc
  unfold InlineCache.lookup
  split
  · rename_i hit c' he
    rw [he] at hprobe
    exact hprobe.of_counters _
  · rename_i c' he
    rw [he] at hprobe
    exact hprobe.of_counters _

/-- A hit is an item that shows the stamp of the receiver and whose watchpoints hold. -/
theorem of_hit (hc : c.Traces P h) {hit : CacheHit} (ehit : (c.lookup h atom r).1 = some hit) :
    ∃ item n h₀ r₀, Heap.Evolves n h₀ h ∧ P item h₀ atom r₀ ∧ item.stamp = h.objectStamp? r ∧
      (∀ w ∈ item.watchpoints, w.isValid h = true) ∧ hit = ⟨item.offset, item.proto, item.flags⟩ := by
  have hprobe : (c.probe h atom r).1 = some hit := by
    unfold InlineCache.lookup at ehit
    split at ehit
    · rename_i hit' c' he
      rw [he]
      exact ehit
    · cases ehit
  unfold probe at hprobe
  split at hprobe
  · rename_i stamp s hstamp hs
    split at hprobe
    · rename_i i hi
      have hseen := CacheRing.stamp_of_find? hi
      obtain ⟨n, h₀, r₀, e, hrec⟩ := hc.recorded atom s hs i (by rw [hseen]; nofun)
      dsimp only at hprobe
      split at hprobe
      · rename_i hvalid
        cases hprobe
        exact ⟨s.item i, n, h₀, r₀, e, hrec, hseen.trans hstamp.symm, List.all_eq_true.mp hvalid, rfl⟩
      · cases hprobe
    · cases hprobe
  · cases hprobe

end Traces

/-- A property is remembered where a lookup found it. -/
theorem recordable_recorded : Recordable CacheItem.Recorded := by
  intro c h r atom l hc hl
  obtain ⟨s, hs, hcases⟩ := Heap.lookup?_cases hl
  obtain ⟨t, ht, hfound⟩ := Heap.find?_of_lookupFrom hl
  refine hc.update fun stamp flags ws hstamp hflags hws => ⟨hstamp.symm, s, hs, ?_⟩
  rcases hcases with ⟨hr, hdepth, hfind⟩ | ⟨hdepth, hmiss, q, hq, hfrom⟩
  · rw [if_neg (by omega), Option.getD_none, flagsAt?, hs, Option.bind_some,
      Shape.flagsAt?_of_find? hfind] at hflags
    cases hflags
    rw [if_neg (by omega)]
    exact hfind
  · rw [if_pos hdepth, Option.getD_some, flagsAt?, ht, Option.bind_some,
      Shape.flagsAt?_of_find? hfound] at hflags
    cases hflags
    rw [if_pos hdepth, watchpoints?, Heap.proto?_of_shapeOf? hs, hq] at hws
    obtain ⟨htrail, hlen⟩ := Heap.trail_of_lookupFrom hfrom hws
    rw [if_pos hdepth]
    exact ⟨hmiss, hlen, hq ▸ htrail⟩

/-- A hit tells where the property is. -/
theorem Remembers.lookup?_of_hit (hc : c.Remembers h) (hw : h.Unwrapped) {hit : CacheHit}
    (ehit : (c.lookup h atom r).1 = some hit) :
    (∃ d, h.lookup? r atom = some ⟨hit.proto.getD r, hit.offset, hit.flags, d⟩) ∧
      (hit.proto = none → h.findOwn? r atom = some (hit.offset, hit.flags)) := by
  obtain ⟨item, n, h₀, r₀, e, hrec, hstamp, hvalid, rfl⟩ := hc.of_hit ehit
  exact hrec.lookup?_eq e hw hstamp hvalid

end InlineCache

/-! ## Reading -/

namespace HeapM

variable {P : CacheItem → Heap → Atom → Handle → Prop} {c c' : InlineCache} {h h' : Heap} {r : Handle}
  {atom : Atom}

/-- Reading and recording reads what reading alone does. -/
theorem getRecording_eq (c : InlineCache) (r : Handle) (atom : Atom) (h : Heap) :
    (getRecording c r atom h).map (fun p => (p.1.1, p.2)) = getProperty r atom h := by
  unfold getRecording getProperty
  rw [get_bind, get_bind]
  cases hl : h.lookup? r atom with
  | none => rfl
  | some l =>
    dsimp only
    rw [bind_apply, bind_apply]
    cases readSlot l.holder l.offset h with
    | error e => rfl
    | ok p => rfl

/-- A slot that stands for nothing is read without a trace. -/
theorem readSlot_eq_none {offset : Nat} (e : readSlot r offset h = .ok (none, h')) : h' = h := by
  unfold readSlot at e
  rw [get_bind] at e
  cases ho : h.object? r with
  | none =>
    rw [ho] at e
    exact (pure_eq_ok e).2
  | some o =>
    rw [ho] at e
    dsimp only at e
    cases hp : o.properties[offset]? with
    | none =>
      rw [hp] at e
      exact (pure_eq_ok e).2
    | some p =>
      rw [hp] at e
      cases p with
      | value v =>
        obtain ⟨w, h₁, _, e⟩ := bind_eq_ok e
        cases e
      | captured x =>
        obtain ⟨w, h₁, _, e⟩ := bind_eq_ok e
        cases e
      | accessor getter setter => exact (pure_eq_ok e).2

/-- Reading through a cache that remembers reads what reading alone does. -/
theorem getCached_eq (hc : c.Remembers h) (hw : h.Unwrapped) (r : Handle) (atom : Atom) :
    (getCached c r atom h).map (fun p => (p.1.1, p.2)) = getProperty r atom h := by
  unfold getCached
  rw [get_bind]
  cases hhit : (c.lookup h atom r).1 with
  | none =>
    have he : c.lookup h atom r = (none, (c.lookup h atom r).2) := by rw [← hhit]
    rw [he]
    exact getRecording_eq _ r atom h
  | some hit =>
    have he : c.lookup h atom r = (some hit, (c.lookup h atom r).2) := by rw [← hhit]
    obtain ⟨⟨d, hl⟩, _⟩ := hc.lookup?_of_hit hw hhit
    rw [he]
    dsimp only
    rw [bind_apply]
    -- the slot read is the slot the lookup would lead to
    have hread : getProperty r atom h =
        ((readSlot (hit.proto.getD r) hit.offset) >>= fun v => pure (v.getD .undefined)) h := by
      unfold getProperty
      rw [get_bind, hl]
    cases hslot : readSlot (hit.proto.getD r) hit.offset h with
    | error e =>
      rw [hread, bind_apply, hslot]
      rfl
    | ok p =>
      obtain ⟨v?, h₁⟩ := p
      cases v? with
      | some v =>
        rw [hread, bind_apply, hslot]
        rfl
      | none =>
        rw [readSlot_eq_none hslot]
        exact getRecording_eq _ r atom h

/-- What was traced in a cache still is when it was read through. -/
theorem traces_getRecording (hP : InlineCache.Recordable P) (hc : c.Traces P h) {v : Value}
    (e : getRecording c r atom h = .ok ((v, c'), h')) : c'.Traces P h' := by
  unfold getRecording at e
  rw [get_bind] at e
  cases hl : h.lookup? r atom with
  | none =>
    rw [hl] at e
    obtain ⟨hv, rfl⟩ := pure_eq_ok e
    cases hv
    exact hc
  | some l =>
    rw [hl] at e
    obtain ⟨v?, h₁, hread, e⟩ := bind_eq_ok e
    obtain ⟨hv, rfl⟩ := pure_eq_ok e
    cases hv
    refine InlineCache.Traces.later ?_ (Shifting.readSlot l.holder l.offset _ _ _ hread).evolves
    split
    · exact hP _ _ _ _ _ hc hl
    · exact hc

theorem traces_getCached (hP : InlineCache.Recordable P) (hc : c.Traces P h) {v : Value}
    (e : getCached c r atom h = .ok ((v, c'), h')) : c'.Traces P h' := by
  have hlookup := hc.lookup atom r
  unfold getCached at e
  rw [get_bind] at e
  generalize c.lookup h atom r = answer at e hlookup
  obtain ⟨hit?, c₁⟩ := answer
  dsimp only at e hlookup
  cases hit? with
  | none => exact traces_getRecording hP hlookup e
  | some hit =>
    obtain ⟨v?, h₁, hread, e⟩ := bind_eq_ok e
    have hlater := hlookup.later (Shifting.readSlot _ _ _ _ _ hread).evolves
    cases v? with
    | some w =>
      obtain ⟨hv, rfl⟩ := pure_eq_ok e
      cases hv
      exact hlater
    | none => exact traces_getRecording hP hlater e

end HeapM

/-! ## Assigning -/

namespace AllocM

open HeapM

variable {P : CacheItem → Heap → Atom → Handle → Prop} {c c' : InlineCache} {h h' : Heap} {r : Handle}
  {atom : Atom}

/-- Assigning and recording assigns as assigning alone does. -/
theorem setRecording_eq (c : InlineCache) (r : Handle) (atom : Atom) (v : Value) (h : Heap) :
    ((setRecording c r atom v).run h).map (fun p => (p.1.map (·.1), p.2)) =
      (setProperty r atom v).run h := by
  unfold setRecording
  rw [bind_apply]
  cases hset : (setProperty r atom v).run h with
  | error e => rfl
  | ok p =>
    obtain ⟨res, h₁⟩ := p
    cases res with
    | error e => rfl
    | ok done =>
      cases done with
      | false => rfl
      | true =>
        simp only [if_true, AllocM.get_bind]
        cases h₁.findOwn? r atom with
        | none => rfl
        | some found =>
          dsimp only
          split
          · rfl
          · rfl

/-- Assigning directly is what assigning to an own plain writable property comes to. -/
theorem setProperty_of_plain {offset : Nat} {flags : Flags} (v : Value)
    (hown : h.findOwn? r atom = some (offset, flags)) (hflags : flags.isPlainWritable = true) :
    (setProperty r atom v).run h =
      ((do writeSlot r offset v; return true : AllocM Bool)).run h := by
  have hkinds : (!flags.contains .writable || flags.kind == .accessor) = false ∧
      (flags.kind == .captured) = false := by
    obtain ⟨hdata, hwritable⟩ := Bool.and_eq_true_iff.mp hflags
    have hkind : flags.kind = ⟨0⟩ := congrArg Flags.mk (by simpa [Flags.isData] using hdata)
    rw [hwritable, hkind]
    decide
  unfold setProperty
  rw [get_bind, hown]
  dsimp only
  rw [hkinds.1, hkinds.2]
  rfl

theorem setAnswered_eq (hc : c.Remembers h) (hw : h.Unwrapped) (r : Handle) (atom : Atom) (v : Value)
    (c' : InlineCache) :
    ((setAnswered (c.lookup h atom r).1 c' r atom v).run h).map (fun p => (p.1.map (·.1), p.2)) =
      (setProperty r atom v).run h := by
  unfold setAnswered
  cases hhit : (c.lookup h atom r).1 with
  | none => exact setRecording_eq c' r atom v h
  | some hit =>
    obtain ⟨offset, proto, flags⟩ := hit
    cases proto with
    | some p => exact setRecording_eq c' r atom v h
    | none =>
      obtain ⟨_, hown⟩ := hc.lookup?_of_hit hw hhit
      dsimp only
      split
      · rename_i hflags
        rw [setProperty_of_plain v (hown rfl) hflags]
        rw [lift_bind_apply, lift_bind_apply]
        cases writeSlot r offset v h with
        | error e => rfl
        | ok p => rfl
      · exact setRecording_eq c' r atom v h

theorem setCached_eq (hc : c.Remembers h) (hw : h.Unwrapped) (r : Handle) (atom : Atom) (v : Value) :
    (setCached c r atom v h).map (fun p => (p.1.1, p.2)) = (setProperty r atom v).run h := by
  rw [← setAnswered_eq hc hw r atom v (c.lookup h atom r).2]
  unfold setCached
  rw [HeapM.get_bind]
  generalize c.lookup h atom r = answer
  obtain ⟨hit?, c₁⟩ := answer
  dsimp only
  rw [HeapM.bind_apply]
  cases (setAnswered hit? c₁ r atom v).run h with
  | error e => rfl
  | ok p =>
    obtain ⟨res, h₁⟩ := p
    cases res with
    | ok done => rfl
    | error e => rfl

/-- What was traced in a cache still is when it was assigned through. -/
theorem traces_setRecording (hP : InlineCache.Recordable P) (hc : c.Traces P h) {v : Value}
    {res : Except OutOfMemory (Bool × InlineCache)}
    (e : (setRecording c r atom v).run h = .ok (res, h')) :
    c.Traces P h' ∧ ∀ done c', res = .ok (done, c') → c'.Traces P h' := by
  unfold setRecording at e
  rcases bind_eq_ok e with ⟨done, h₁, hset, e⟩ | ⟨err, hset, rfl⟩
  · have hlater := hc.later (tracks_setProperty r atom v _ _ _ hset)
    cases done with
    | false =>
      obtain ⟨rfl, rfl⟩ := pure_eq_ok e
      exact ⟨hlater, fun done c' he => by cases he; exact hlater⟩
    | true =>
      rw [if_pos rfl, get_bind] at e
      cases hown : h₁.findOwn? r atom with
      | none =>
        rw [hown] at e
        obtain ⟨rfl, rfl⟩ := pure_eq_ok e
        exact ⟨hlater, fun done c' he => by cases he; exact hlater⟩
      | some found =>
        obtain ⟨offset, flags⟩ := found
        rw [hown] at e
        dsimp only at e
        split at e
        · obtain ⟨rfl, rfl⟩ := pure_eq_ok e
          refine ⟨hlater, fun done c' he => ?_⟩
          cases he
          exact hP _ _ _ _ ⟨r, offset, flags, 0⟩ hlater (Heap.lookup?_of_findOwn? hown)
        · obtain ⟨rfl, rfl⟩ := pure_eq_ok e
          exact ⟨hlater, fun done c' he => by cases he; exact hlater⟩
  · exact ⟨hc.later (tracks_setProperty r atom v _ _ _ hset), nofun⟩

theorem traces_setAnswered (hP : InlineCache.Recordable P) (hc : c.Traces P h) {v : Value} {hit? : Option CacheHit}
    {res : Except OutOfMemory (Bool × InlineCache)}
    (e : (setAnswered hit? c r atom v).run h = .ok (res, h')) :
    c.Traces P h' ∧ ∀ done c', res = .ok (done, c') → c'.Traces P h' := by
  unfold setAnswered at e
  cases hit? with
  | none => exact traces_setRecording hP hc e
  | some hit =>
    obtain ⟨offset, proto, flags⟩ := hit
    cases proto with
    | some p => exact traces_setRecording hP hc e
    | none =>
      dsimp only at e
      split at e
      · obtain ⟨_, h₁, hwrite, e⟩ := lift_bind_eq_ok e
        obtain ⟨rfl, rfl⟩ := pure_eq_ok e
        have hlater := hc.later (HeapM.Shifting.writeSlot r offset v _ _ _ hwrite).evolves
        exact ⟨hlater, fun done c' he => by cases he; exact hlater⟩
      · exact traces_setRecording hP hc e

theorem traces_setCached (hP : InlineCache.Recordable P) (hc : c.Traces P h) {v : Value} {res : Except OutOfMemory Bool}
    (e : setCached c r atom v h = .ok ((res, c'), h')) : c'.Traces P h' := by
  have hlookup := hc.lookup atom r
  unfold setCached at e
  rw [HeapM.get_bind] at e
  generalize c.lookup h atom r = answer at e hlookup
  obtain ⟨hit?, c₁⟩ := answer
  dsimp only at e hlookup
  obtain ⟨out, h₁, hset, e⟩ := HeapM.bind_eq_ok e
  obtain ⟨hkept, hnew⟩ := traces_setAnswered hP hlookup hset
  cases out with
  | ok p =>
    obtain ⟨done, c₂⟩ := p
    cases e
    exact hnew _ _ rfl
  | error err =>
    cases e
    exact hkept

end AllocM

/-! ## Runs -/

namespace InlineCache

/-- The states that a new heap with a new cache can come to: any calls of the heap, any reads and
assignments through the cache, any questions to the cache, in any order and with any arguments. -/
inductive Reached (config : Config) : Heap → InlineCache → Prop where
  | start : Reached config (.new config) .empty
  | call {h h' : Heap} {c : InlineCache} {reply : Reply} (call : Call) (hr : Reached config h c)
      (e : call.perform h = .ok (reply, h')) : Reached config h' c
  | get {h h' : Heap} {c c' : InlineCache} {r : Handle} {atom : Atom} {v : Value}
      (hr : Reached config h c) (e : HeapM.getCached c r atom h = .ok ((v, c'), h')) :
      Reached config h' c'
  | set {h h' : Heap} {c c' : InlineCache} {r : Handle} {atom : Atom} {v : Value}
      {res : Except OutOfMemory Bool} (hr : Reached config h c)
      (e : AllocM.setCached c r atom v h = .ok ((res, c'), h')) : Reached config h' c'
  | lookup {h : Heap} {c : InlineCache} (atom : Atom) (r : Handle) (hr : Reached config h c) :
      Reached config h (c.lookup h atom r).2
  | invalidate {h : Heap} {c : InlineCache} (atom : Atom) (hr : Reached config h c) :
      Reached config h (c.invalidate atom)
  | clear {h : Heap} {c : InlineCache} (hr : Reached config h c) : Reached config h c.clear

variable {config : Config} {h : Heap} {c : InlineCache}

/-- In every state a cache remembers what an earlier heap had. -/
theorem Reached.remembers (hr : Reached config h c) : c.Remembers h := by
  induction hr with
  | start => exact .empty _
  | call call _ e ih => exact ih.later (call.evolves e)
  | get _ e ih => exact HeapM.traces_getCached recordable_recorded ih e
  | set _ e ih => exact AllocM.traces_setCached recordable_recorded ih e
  | lookup atom r _ ih => exact ih.lookup atom r
  | invalidate atom _ ih => exact ih.invalidate atom
  | clear _ _ => exact .clear _ _

/-- A cache is never seen: until a 32-bit count comes round, reading and assigning through it give the
outcome, the heap and the fault that reading and assigning in the heap give. -/
theorem cached_access_agrees (hr : Reached config h c) (hw : h.Unwrapped) (r : Handle) (atom : Atom) :
    (HeapM.getCached c r atom h).map (fun p => (p.1.1, p.2)) = HeapM.getProperty r atom h ∧
      ∀ v : Value, (AllocM.setCached c r atom v h).map (fun p => (p.1.1, p.2)) =
        (AllocM.setProperty r atom v).run h :=
  ⟨HeapM.getCached_eq hr.remembers hw r atom,
    fun v => AllocM.setCached_eq hr.remembers hw r atom v⟩

/-- An object is made and given a property through the cache, which then knows the property. -/
theorem cached_access_agrees_hit : ∃ h c, Reached .default h c ∧ h.Unwrapped ∧
    (c.lookup h ⟨300⟩ ⟨1, 0⟩).1 = some ⟨0, none, .ordinary⟩ ∧
    (HeapM.getCached c ⟨1, 0⟩ ⟨300⟩ h).map (fun p => (p.1.1, p.2)) =
      HeapM.getProperty ⟨1, 0⟩ ⟨300⟩ h ∧
    ∀ v : Value, (AllocM.setCached c ⟨1, 0⟩ ⟨300⟩ v h).map (fun p => (p.1.1, p.2)) =
      (AllocM.setProperty ⟨1, 0⟩ ⟨300⟩ v).run h := by
  obtain ⟨⟨reply, h₁⟩, hmake, hset⟩ := ok_of_test
    (x := (Call.newObject none).perform (.new .default))
    (t := fun p => passes ((AllocM.setProperty ⟨1, 0⟩ ⟨300⟩ (.smi 7)).run p.2) fun q =>
      decide (q.1.toOption = some true ∧ q.2.findOwn? ⟨1, 0⟩ ⟨300⟩ = some (0, .ordinary) ∧
        q.2.objectStamp? ⟨1, 0⟩ = some ⟨⟨0, 0⟩, 1⟩ ∧
        flagsAt? q.2 ⟨300⟩ ⟨1, 0⟩ 0 = some .ordinary ∧ q.2.slots.toList.all Heap.isUnwrapped))
    (by decide +kernel)
  obtain ⟨⟨res, h₂⟩, hset, hfacts⟩ := ok_of_test hset
  obtain ⟨hres, hown, hstamp, hflags, hall⟩ := of_decide_eq_true hfacts
  obtain rfl : res = .ok true := by
    cases res with
    | ok done => exact congrArg Except.ok (Option.some.inj hres)
    | error e => cases hres
  -- the cache is asked in vain, and what was assigned is recorded
  have hmiss : InlineCache.empty.lookup h₁ ⟨300⟩ ⟨1, 0⟩ =
      (none, ⟨∅, #[], ⟨0, 1, 0, 0⟩⟩) := by
    simp [lookup, probe, ring?, empty]
  have hupdate : (update ⟨∅, #[], ⟨0, 1, 0, 0⟩⟩ h₂ ⟨300⟩ ⟨1, 0⟩ 0 none).2 =
      enter ⟨∅, #[], ⟨0, 1, 0, 0⟩⟩ ⟨300⟩ ⟨0, 0⟩ ⟨some ⟨⟨0, 0⟩, 1⟩, none, 0, .ordinary, []⟩ := by
    simp [update, hstamp, hflags, watchpoints?]
  have hrecord : AllocM.setCached .empty ⟨1, 0⟩ ⟨300⟩ (.smi 7) h₁ = .ok ((.ok true,
      enter ⟨∅, #[], ⟨0, 1, 0, 0⟩⟩ ⟨300⟩ ⟨0, 0⟩ ⟨some ⟨⟨0, 0⟩, 1⟩, none, 0, .ordinary, []⟩), h₂) := by
    unfold AllocM.setCached
    rw [HeapM.get_bind, hmiss]
    dsimp only
    rw [HeapM.bind_apply]
    unfold AllocM.setAnswered AllocM.setRecording
    rw [AllocM.bind_apply, hset, ← hupdate]
    dsimp only
    rw [if_pos rfl, AllocM.get_bind, hown]
    rfl
  have hreached := Reached.start.call (.newObject none) hmake |>.set hrecord
  have hw := Heap.unwrapped_of_all hall
  refine ⟨_, _, hreached, hw, ?_, cached_access_agrees hreached hw ⟨1, 0⟩ ⟨300⟩⟩
  have htidy : Tidy ⟨∅, #[], ⟨0, 1, 0, 0⟩⟩ := fun a i hi => by simp at hi
  have hring := htidy.ring?_enter ⟨300⟩ ⟨300⟩ ⟨0, 0⟩ ⟨some ⟨⟨0, 0⟩, 1⟩, none, 0, .ordinary, []⟩
  have hnone : ring? ⟨∅, #[], ⟨0, 1, 0, 0⟩⟩ ⟨300⟩ = none := by simp [ring?]
  rw [if_pos rfl, hnone, Option.getD_none] at hring
  simp only [lookup, probe, hstamp, hring]
  rfl

end InlineCache

end ObjectMemory
