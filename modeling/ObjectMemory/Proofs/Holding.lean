import ObjectMemory.Proofs.Collection
set_option autoImplicit false

/-!
# Taking and giving up references

What the operations that only move references do to a sound heap.  Each moves references between the
ledger and the heap, and leaves every cell that is left with the body it had (`Heap.Keeps`).

Making a cell takes two steps: setting a slot and bytes apart, which may collect, and putting the cell
there, whose references come from the ledger and which the ledger owns then.
-/

namespace ObjectMemory

namespace Heap

variable {x y z : Ledger} {n m k : Nat} {h h₁ h' : Heap} {r s : Handle} {c c' : Cell} {u : Unit}

/-! ## Cells that are left -/

/-- Every cell that is there after was there before, with the same body. -/
def Keeps (h h' : Heap) : Prop :=
  ∀ r c', h'.cell? r = some c' → ∃ c, h.cell? r = some c ∧ c'.body = c.body

namespace Keeps

theorem refl (h : Heap) : Keeps h h := fun _ c hc => ⟨c, hc, rfl⟩

theorem trans (e₁ : Keeps h h₁) (e₂ : Keeps h₁ h') : Keeps h h' := by
  intro r c' hc'
  obtain ⟨c₁, hc₁, hb₁⟩ := e₂ r c' hc'
  obtain ⟨c, hc, hb⟩ := e₁ r c₁ hc₁
  exact ⟨c, hc, hb₁.trans hb⟩

theorem of_same (e : SameCells h h') : Keeps h h' := by
  intro r c' hc'
  rw [e.cell] at hc'
  exact ⟨c', hc', rfl⟩

theorem of_slots (hs : h'.slots = h.slots) : Keeps h h' := .of_same (.of_slots hs)

theorem of_updates (hu : Updates s (some c') h h') (hc : h.cell? s = some c) (hb : c'.body = c.body) :
    Keeps h h' := by
  intro r d hd
  rw [hu.cell] at hd
  split at hd
  · rename_i hr
    cases hd
    exact ⟨c, hr ▸ hc, hb⟩
  · exact ⟨d, hd, rfl⟩

theorem body? (e : Keeps h h') {b : Body} (hb : h'.body? r = some b) : h.body? r = some b := by
  obtain ⟨c', hc', rfl⟩ := body?_eq_some_iff.mp hb
  obtain ⟨c, hc, he⟩ := e r c' hc'
  exact body?_eq_some_iff.mpr ⟨c, hc, he.symm⟩

end Keeps

theorem Decays.keeps (hd : Decays h h') (hs : h'.Sound y m) : Keeps h h' := by
  intro r c' hc'
  obtain ⟨c, hc, hb, _⟩ := hd.kept hs hc'
  exact ⟨c, hc, hb⟩

/-! ## Changes that keep a heap sound -/

/-- Nothing has changed but what is outside the cells and the books. -/
theorem Sound.of_same (hs : h.Sound x n) (he : SameCells h h') (hf : h'.frames = h.frames)
    (ht : h'.table = h.table) (hd : h'.dropped = h.dropped) (hu : h'.used + n = h.used + m)
    (hl : h'.liveCells = h.liveCells) (hp : h'.phase = h.phase) (hz : h'.zeroRefs = h.zeroRefs) :
    h'.Sound x m := by
  refine ⟨hs.coherent.of_same he hf ht hd hu hl, hp.trans hs.idle, by rw [hz]; exact hs.noneWaiting,
    fun i c hc => ?_⟩
  rw [he.tenant] at hc
  exact hs.settled i c hc

/-- A sound heap may be read with another ledger that says the same. -/
theorem Sound.of_eq (hs : h.Sound x n) (he : ∀ r, x r = y r) : h.Sound y n := by
  have : x = y := funext he
  rwa [← this]

/-- A cell at rest may be edited. -/
theorem Sound.edit (hs : h.Sound x n) (hu : Updates s (some c') h h') (hb : SameBooks h h')
    (hc : h.cell? s = some c) (hkind : c'.body.kind = c.body.kind)
    (hframe : c'.body.frame? = c.body.frame?) (hhash : c'.body.hash? = c.body.hash?)
    (hnames : h.Names c'.body.typedRefs) (hrest : c'.body.Rested)
    (hself : c'.refCount + x s + c.body.refs.count s = c.refCount + y s + c'.body.refs.count s)
    (hbal : ∀ r, r ≠ s → y r + c'.body.refs.count r = x r + c.body.refs.count r)
    (hused : h'.used + n + c.size = h.used + m + c'.size) (hlive : h'.liveCells = h.liveCells)
    (hset : c'.Settled) (hp : h'.phase = h.phase) (hz : h'.zeroRefs = h.zeroRefs) : h'.Sound y m := by
  refine ⟨hs.coherent.edit hu hb hc hkind hframe hhash hnames hrest hself hbal hused hlive,
    hp.trans hs.idle, by rw [hz]; exact hs.noneWaiting, hu.forall_tenants (fun d hd => ?_) hs.settled⟩
  cases hd
  exact hset

/-- A body may be replaced: what it held passes to the ledger, and what the new one holds comes from
there. -/
theorem Sound.rebody (hs : h.Sound x n) (hc : h.cell? s = some c) {f : Body → Body}
    (hkind : (f c.body).kind = c.body.kind) (hz : (f c.body).isZombie = false)
    (hframe : (f c.body).frame? = c.body.frame?) (hhash : (f c.body).hash? = c.body.hash?)
    (hnames : h.Names (f c.body).typedRefs) (hrest : (f c.body).Rested)
    (hbal : ∀ r, y r + (f c.body).refs.count r = x r + c.body.refs.count r) :
    (h.modifyBody s.index f).Sound y n := by
  have hu : Updates s (some { c with body := f c.body }) h (h.modifyBody s.index f) :=
    .modifyCell hc fun c => { c with body := f c.body }
  have hself := hbal s
  exact hs.edit hu ⟨rfl, rfl, rfl⟩ hc hkind hframe hhash hnames hrest (by dsimp only; omega)
    (fun r _ => hbal r) (by dsimp only; rfl) rfl
    ((hs.settled _ c (tenant?_of_cell? hc)).rebody hz hframe) rfl rfl

/-! ## Counts -/

/-- One more reference is one more in the ledger. -/
theorem Sound.retain (hs : h.Sound x n) (e : HeapM.retain r h = .ok (u, h')) :
    h'.Sound (x.plus [r]) n ∧ Keeps h h' ∧ h.contains r = true := by
  unfold HeapM.retain at e
  cases hc : h.cell? r with
  | none =>
    rw [hc] at e
    cases e
  | some c =>
    rw [hc] at e
    cases e
    have hu : Updates r (some { c with refCount := c.refCount + 1 }) h
        (h.modifyCell r.index fun c => { c with refCount := c.refCount + 1 }) :=
      .modifyCell hc fun c => { c with refCount := c.refCount + 1 }
    have ht := tenant?_of_cell? hc
    refine ⟨hs.edit hu ⟨rfl, rfl, rfl⟩ hc rfl rfl rfl (hs.coherent.counted.bodies r c hc)
      (hs.coherent.rested r c hc) ?_ (fun s hsr => ?_) rfl rfl ((hs.settled _ c ht).recount (by simp)) rfl
      rfl, .of_updates hu hc rfl, contains_of_cell? hc⟩
    · simp only [Ledger.plus_apply, List.count_singleton_self]
      omega
    · simp [Ne.symm hsr]

theorem Sound.retainOption {o : Option Handle} (hs : h.Sound x n)
    (e : HeapM.retainOption o h = .ok (u, h')) :
    h'.Sound (x.plus o.toList) n ∧ Keeps h h' ∧ ∀ r ∈ o, h.contains r = true := by
  cases o with
  | none =>
    obtain ⟨_, rfl⟩ := HeapM.pure_eq_ok e
    exact ⟨by simpa using hs, .refl _, by simp⟩
  | some r =>
    obtain ⟨hs', hk, hr⟩ := hs.retain e
    exact ⟨hs', hk, by simpa using hr⟩

theorem exists_retain (hr : h.contains r = true) : ∃ h', HeapM.retain r h = .ok ((), h') := by
  obtain ⟨c, hc⟩ := contains_iff.mp hr
  unfold HeapM.retain
  rw [hc]
  exact ⟨_, rfl⟩

theorem exists_retainOption {o : Option Handle} (ho : ∀ r ∈ o, h.contains r = true) :
    ∃ h', HeapM.retainOption o h = .ok ((), h') := by
  cases o with
  | none => exact ⟨h, rfl⟩
  | some r => exact exists_retain (ho r rfl)

theorem exists_dupValue {v : Value} (hv : ∀ r ∈ v.ref?, h.contains r = true) :
    ∃ h', HeapM.dupValue v h = .ok (v, h') := by
  obtain ⟨h', e⟩ := exists_retainOption hv
  refine ⟨h', ?_⟩
  unfold HeapM.dupValue
  rw [HeapM.bind_apply, e]
  rfl

theorem Sound.dupValue {v v' : Value} (hs : h.Sound x n) (e : HeapM.dupValue v h = .ok (v', h')) :
    v' = v ∧ h'.Sound (x.plus v.ref?.toList) n ∧ Keeps h h' ∧ ∀ r ∈ v.ref?, h.contains r = true := by
  obtain ⟨_, h₁, e, ep⟩ := HeapM.bind_eq_ok e
  obtain ⟨rfl, rfl⟩ := HeapM.pure_eq_ok ep
  exact ⟨rfl, hs.retainOption e⟩

/-- A reference of the ledger can be given up. -/
theorem Sound.release (hs : h.Sound (x.plus [r]) n) :
    ∃ h', HeapM.release r h = .ok ((), h') ∧ h'.Sound x n ∧ Decays h h' := by
  obtain ⟨h', hrun, hs', hd, _⟩ := Sound.run [r] hs
  exact ⟨h', HeapM.change_apply hrun, hs', hd⟩

/-- References of the ledger can be given up one after the other. -/
theorem Sound.releaseAll {rs : List Handle} (hs : h.Sound (x.plus rs) n) :
    ∃ h', HeapM.releaseAll rs h = .ok ((), h') ∧ h'.Sound x n ∧ Decays h h' := by
  induction rs generalizing h with
  | nil => exact ⟨h, rfl, by simpa using hs, .refl h⟩
  | cons r rest ih =>
    rw [Ledger.plus_cons, Ledger.plus_comm] at hs
    obtain ⟨h₁, hok₁, hs₁, hd₁⟩ := hs.release
    obtain ⟨h', hok, hs', hd⟩ := ih hs₁
    refine ⟨h', ?_, hs', hd₁.trans hd⟩
    unfold HeapM.releaseAll
    rw [HeapM.bind_apply, hok₁]
    exact hok

/-- What giving up references leaves. -/
theorem Sound.of_releaseAll {rs : List Handle} (hs : h.Sound (x.plus rs) n)
    (e : HeapM.releaseAll rs h = .ok (u, h')) : h'.Sound x n ∧ Keeps h h' := by
  obtain ⟨h₁, hok, hs', hd⟩ := hs.releaseAll
  rw [hok] at e
  cases e
  exact ⟨hs', hd.keeps hs'⟩

/-- Giving up references leaves what is outside the cells. -/
theorem Sound.calm_of_releaseAll {rs : List Handle} (hs : h.Sound (x.plus rs) n)
    (e : HeapM.releaseAll rs h = .ok (u, h')) : Calm h h' := by
  obtain ⟨h₁, hok, _, hd⟩ := hs.releaseAll
  rw [hok] at e
  cases e
  exact hd.calm

theorem Sound.of_release (hs : h.Sound (x.plus [r]) n) (e : HeapM.release r h = .ok (u, h')) :
    h'.Sound x n ∧ Keeps h h' := by
  obtain ⟨h₁, hok, hs', hd⟩ := hs.release
  rw [hok] at e
  cases e
  exact ⟨hs', hd.keeps hs'⟩

theorem Sound.of_freeValue {v : Value} (hs : h.Sound (x.plus v.ref?.toList) n)
    (e : HeapM.freeValue v h = .ok (u, h')) : h'.Sound x n ∧ Keeps h h' := hs.of_releaseAll e

theorem Sound.of_freeValues {vs : Array Value}
    (hs : h.Sound (x.plus (vs.toList.filterMap Value.ref?)) n)
    (e : HeapM.freeValues vs h = .ok (u, h')) : h'.Sound x n ∧ Keeps h h' := hs.of_releaseAll e

/-! ## Dropped roots and collections -/

/-- The references of dropped roots pass to the ledger. -/
theorem Sound.takeDropped (hs : h.Sound x n) :
    ({ h with dropped := .empty } : Heap).Sound (x.plus h.dropped.toList) n := by
  have hx := hs.coherent
  refine ⟨⟨?_, hx.bound.of_same (fun _ => rfl) rfl, hx.tabled.of_same (fun _ => rfl) rfl,
    ⟨hx.accounted.used, hx.accounted.cells⟩, hx.rested⟩, hs.idle, hs.noneWaiting, hs.settled⟩
  refine hx.counted.of_same (.of_slots rfl) (fun r => ?_) (fun r hr => ?_) hx.counted.locals
    fun r hr => by cases hr
  · have hnil : (Queue.empty : Queue Handle).toList = [] := rfl
    have hframes : ({ h with dropped := .empty } : Heap).heldByFrames r = h.heldByFrames r := rfl
    simp only [Ledger.plus_apply, hnil, hframes, List.count_nil]
    omega
  · simp only [Ledger.plus_apply] at hr
    by_cases hxr : 0 < x r
    · exact hx.counted.owned r hxr
    · exact hx.counted.roots r (List.count_pos_iff.mp (by omega))

/-- The roots dropped so far can be released. -/
theorem Sound.flushRoots (hs : h.Sound x n) :
    ∃ h', HeapM.flushRoots h = .ok ((), h') ∧ h'.Sound x n ∧
      Decays { h with dropped := .empty } h' := by
  obtain ⟨h', hok, hs', hd⟩ := hs.takeDropped.releaseAll
  refine ⟨h', ?_, hs', hd⟩
  unfold HeapM.flushRoots
  rw [HeapM.get_bind, HeapM.bind_apply]
  exact hok

theorem Sound.of_flushRoots (hs : h.Sound x n) (e : HeapM.flushRoots h = .ok (u, h')) :
    h'.Sound x n ∧ Keeps h h' := by
  obtain ⟨h₁, hok, hs', hd⟩ := hs.flushRoots
  rw [hok] at e
  cases e
  exact ⟨hs', hd.keeps hs'⟩

theorem collect_eq (hidle : h.phase = .idle) (hflush : HeapM.flushRoots h = .ok ((), h₁))
    (hok : h₁.collectCycles = .ok h') : HeapM.collect h = .ok (h'.collected - h₁.collected, h') := by
  have hidle : ¬ h.phase ≠ .idle := fun hne => hne hidle
  unfold HeapM.collect
  rw [HeapM.get_bind, if_neg hidle, HeapM.bind_apply, hflush]
  dsimp only
  rw [HeapM.get_bind, HeapM.bind_apply, HeapM.change_apply hok]
  rfl

/-- The collector can be run, and answers how many objects and functions went. -/
theorem Sound.collect (hs : h.Sound x n) : ∃ k h₁ h', HeapM.collect h = .ok (k, h') ∧
    HeapM.flushRoots h = .ok ((), h₁) ∧ h₁.Sound x n ∧ Decays { h with dropped := .empty } h₁ ∧
    h'.Sound x n ∧ Collected x h₁ h' ∧ k = h'.collected - h₁.collected := by
  obtain ⟨h₁, hflush, hs₁, hd₁⟩ := hs.flushRoots
  obtain ⟨h', hok, hs', hcol⟩ := hs₁.collectCycles
  exact ⟨h'.collected - h₁.collected, h₁, h', collect_eq hs.idle hflush hok, hflush, hs₁, hd₁, hs', hcol, rfl⟩

theorem Sound.of_collect (hs : h.Sound x n) (e : HeapM.collect h = .ok (k, h')) :
    h'.Sound x n ∧ Keeps h h' := by
  obtain ⟨k, h₁, h₂, hok, _, hs₁, hd₁, hs', hcol, _⟩ := hs.collect
  rw [hok] at e
  cases e
  exact ⟨hs', Keeps.trans (hd₁.keeps hs₁) (hcol.decays.keeps hs')⟩

theorem Sound.of_collectIfDue (hs : h.Sound x n) (e : HeapM.collectIfDue h = .ok (u, h')) :
    h'.Sound x n ∧ Keeps h h' := by
  unfold HeapM.collectIfDue at e
  rw [HeapM.get_bind] at e
  split at e
  · obtain ⟨k, h₁, e₁, e⟩ := HeapM.bind_eq_ok e
    obtain ⟨hs₁, hk⟩ := hs.of_collect e₁
    cases HeapM.modify_eq_ok e
    exact ⟨hs₁.of_same (.of_slots rfl) rfl rfl rfl rfl rfl rfl rfl, hk.trans (.of_slots rfl)⟩
  · obtain ⟨_, rfl⟩ := HeapM.pure_eq_ok e
    exact ⟨hs, .refl _⟩

/-! ## Setting apart -/

/-- Bytes put on the account are set apart. -/
theorem Sound.charged (hs : h.Sound x n) (k : Nat) : { h with used := h.used + k }.Sound x (n + k) := by
  refine hs.of_same (.of_slots rfl) rfl rfl rfl ?_ rfl rfl rfl
  dsimp only
  omega

/-- The bytes of a frame are set apart, or nothing has changed. -/
theorem Sound.of_reserveFrame {res : Except OutOfMemory Unit} (hs : h.Sound x n)
    (e : (AllocM.reserveFrame k).run h = .ok (res, h')) :
    SameCells h h' ∧ ((res = .ok () ∧ h'.Sound x (n + k)) ∨ (∃ err, res = .error err) ∧ h' = h) := by
  obtain ⟨-, hrun⟩ | ⟨err, hrun⟩ := reserveFrame_cases k h
  · rw [hrun] at e
    cases e
    exact ⟨.of_slots rfl, .inl ⟨rfl, hs.charged k⟩⟩
  · rw [hrun] at e
    cases e
    exact ⟨.of_slots rfl, .inr ⟨⟨err, rfl⟩, rfl⟩⟩

/-- Taking a slot changes only the slots. -/
theorem takeSlot_rest {i : Nat} (e : h.takeSlot = .ok (i, h')) :
    h' = { h with slots := h'.slots, freeSlots := h'.freeSlots } := by
  unfold takeSlot at e
  split at e
  · cases e
    rfl
  · split at e
    · cases e
      rfl
    · cases e

/-- A slot and bytes are set apart, or memory runs out; a collection may come first. -/
theorem Sound.of_reserve {size : Nat} {arrays : Nat → List Request} {failure : OutOfMemory}
    {res : Except OutOfMemory Reservation} (hs : h.Sound x n)
    (e : (AllocM.reserve size arrays failure).run h = .ok (res, h')) : Keeps h h' ∧
      ((∃ p, res = .ok p ∧ p.size = size ∧ h'.Sound x (n + size)) ∨
        (∃ err, res = .error err) ∧ h'.Sound x n) := by
  obtain ⟨h₁, h₂, e₁, e₂, hend⟩ := reserve_eq_ok e
  obtain ⟨hs₁, hk₁⟩ := hs.of_flushRoots e₁
  obtain ⟨hs₂, hk₂⟩ := hs₁.of_collectIfDue e₂
  have hk := hk₁.trans hk₂
  obtain ⟨p, rfl, hsize, e₃⟩ | ⟨hres, rfl | rfl⟩ := hend
  · have hsame := SameCells.takeSlot e₃
    have hrest := takeSlot_rest e₃
    have hcharge : Keeps h₂ { h₂ with used := h₂.used + size } := .of_slots rfl
    refine ⟨hk.trans (hcharge.trans (.of_same hsame)), .inl ⟨_, rfl, hsize, ?_⟩⟩
    exact (hs₂.charged size).of_same hsame (by rw [hrest]) (by rw [hrest]) (by rw [hrest])
      (by rw [hrest]) (by rw [hrest]) (by rw [hrest]) (by rw [hrest])
  · exact ⟨hk, .inr ⟨hres, hs₂⟩⟩
  · have hsame := SameCells.widen h₂
    exact ⟨hk.trans (.of_same hsame), .inr ⟨hres, hs₂.of_same hsame rfl rfl rfl rfl rfl rfl rfl⟩⟩

/-- Setting a slot apart ends, unless there are as many slots as can be. -/
theorem Sound.reserve_ends (hs : h.Sound x n) (size : Nat) (arrays : Nat → List Request)
    (failure : OutOfMemory) : (∃ p, (AllocM.reserve size arrays failure).run h = .ok p) ∨
      (AllocM.reserve size arrays failure).run h = .error .tooManySlots := by
  obtain ⟨h₁, hflush, hs₁, _⟩ := hs.flushRoots
  obtain ⟨h₂, hdue⟩ : ∃ h₂, HeapM.collectIfDue h₁ = .ok ((), h₂) := by
    unfold HeapM.collectIfDue
    rw [HeapM.get_bind]
    split
    · obtain ⟨k, _, h₂, hcollect, _⟩ := hs₁.collect
      exact ⟨_, HeapM.bind_of_ok hcollect⟩
    · exact ⟨h₁, rfl⟩
  unfold AllocM.reserve
  rw [AllocM.lift_bind_of_ok hflush, AllocM.lift_bind_of_ok hdue]
  obtain ⟨p, h₃, -, -, -, hrun⟩ | ⟨err, h₃, -, hrun⟩ | ⟨-, hrun⟩ := claimSlot_cases size arrays failure h₂
  · exact .inl ⟨_, hrun⟩
  · exact .inl ⟨_, hrun⟩
  · exact .inr hrun

/-! ## Making a cell -/

/-- Every cell that is there after, but for the one under `s`, was there before with the same body. -/
structure Makes (s : Handle) (b : Body) (h h' : Heap) : Prop where
  fresh : h.cell? s = none
  body : h'.body? s = some b
  count : h'.refCount? s = some 1
  others : ∀ r c', r ≠ s → h'.cell? r = some c' → ∃ c, h.cell? r = some c ∧ c'.body = c.body
  olds : ∀ r, h.contains r = true → h'.contains r = true

theorem putCell_rest {p : Reservation} {body : Body} {listed : Bool}
    (e : h.putCell p body listed = .ok (r, h')) : SameBooks h h' ∧ h'.used = h.used ∧
      h'.liveCells = h.liveCells + 1 ∧ h'.phase = h.phase ∧ h'.zeroRefs = h.zeroRefs := by
  unfold putCell at e
  split at e
  · cases e
  · split at e
    · cases e
    · cases listed <;> cases e <;> exact ⟨⟨rfl, rfl, rfl⟩, rfl, rfl, rfl, rfl⟩

theorem Makes.of_updates {b : Body} (hfresh : h.cell? s = none) (hu : Updates s (some c) h h')
    (hb : c.body = b) (hone : c.refCount = 1) : Makes s b h h' := by
  refine ⟨hfresh, hb ▸ hu.body_self, refCount?_eq_some_iff.mpr ⟨c, hu.cell_self, hone⟩,
    fun r d hrs hd => ?_, fun r hr => ?_⟩
  · rw [hu.cell_other hrs] at hd
    exact ⟨d, hd, rfl⟩
  · obtain ⟨d, hd⟩ := contains_iff.mp hr
    by_cases hrs : r = s
    · rw [hrs]
      exact contains_of_cell? hu.cell_self
    · exact contains_of_cell? ((hu.cell_other hrs).trans hd)

/-- A cell is made of references and bytes of the ledger, which owns the cell then. -/
theorem Sound.install {p : Reservation} (body : Body) (hs : h.Sound (z.plus body.refs) (n + p.size))
    (hnames : h.Names body.typedRefs) (hrest : body.Rested) (hz : body.isZombie = false)
    (hframe : body.frame? = none) (hhash : body.hash? = none)
    (e : HeapM.install p body true h = .ok (r, h')) :
    h'.Sound (z.plus [r]) n ∧ Makes r body h h' := by
  have e : h.putCell p body true = .ok (r, h') := e
  obtain ⟨hfresh, hu⟩ := Updates.putCell e
  rw [if_pos rfl] at hu
  obtain ⟨hb, hused, hlive, hphase, hwait⟩ := putCell_rest e
  refine ⟨⟨hs.coherent.put hu hb hfresh rfl hnames hrest hframe hhash hused hlive, hphase.trans hs.idle,
    by rw [hwait]; exact hs.noneWaiting, hu.forall_tenants (fun d hd => ?_) hs.settled⟩,
    .of_updates hfresh hu rfl rfl⟩
  cases hd
  exact ⟨by simp, rfl, hz, by rw [hframe]; rfl, fun hf => by rw [hframe] at hf; cases hf⟩

/-- A slot is set apart, or memory runs out and what was owned is given up. -/
theorem Sound.of_reserveOr {size : Nat} {owned : List Handle} {arrays : Nat → List Request}
    {res : Except OutOfMemory Reservation} (hs : h.Sound (x.plus owned) n)
    (e : (AllocM.reserveOr size owned arrays).run h = .ok (res, h')) :
    Keeps h h' ∧ ((∃ p, res = .ok p ∧ p.size = size ∧ h'.Sound (x.plus owned) (n + size)) ∨
      (∃ err, res = .error err) ∧ h'.Sound x n) := by
  unfold AllocM.reserveOr at e
  rcases AllocM.tryCatch_eq_ok e with ⟨p, e₁, rfl⟩ | ⟨err, h₁, e₁, e⟩
  · obtain ⟨hk, ⟨q, he, hsize, hs'⟩ | ⟨⟨err, he⟩, _⟩⟩ := hs.of_reserve e₁
    · cases he
      exact ⟨hk, .inl ⟨p, rfl, hsize, hs'⟩⟩
    · cases he
  · obtain ⟨hk, ⟨q, he, _⟩ | ⟨_, hs₁⟩⟩ := hs.of_reserve e₁
    · cases he
    · obtain ⟨_, h₂, e₂, e⟩ := AllocM.lift_bind_eq_ok e
      obtain ⟨rfl, rfl⟩ := AllocM.throw_eq_ok e
      obtain ⟨hs₂, hk₂⟩ := hs₁.of_releaseAll e₂
      exact ⟨hk.trans hk₂, .inr ⟨⟨_, rfl⟩, hs₂⟩⟩

end Heap

end ObjectMemory
