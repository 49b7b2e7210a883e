import ObjectMemory.Proofs.Shifts
import ObjectMemory.Heap.Objects
set_option autoImplicit false

/-!
# How a heap may change

`Heap.Evolves n h h'` says what every operation keeps to, whoever calls it and whatever it is handed:
slots are never given back, the number of cells freed in a slot never falls, and a cell that was not
freed is still there with a body of the same kind.  A shape that was not freed has been changed at
least as often as before, and if it has not been changed since, its layout is the same.  At most `n`
cells were put into any one slot.
-/

namespace ObjectMemory

namespace Shape

/-- The same prototype, the same entries, found by the same chains. -/
structure SameLayout (s t : Shape) : Prop where
  proto : t.proto = s.proto
  entries : t.entries = s.entries
  chains : t.toChains = s.toChains

namespace SameLayout

theorem refl (s : Shape) : SameLayout s s := ⟨rfl, rfl, rfl⟩

theorem trans {s t u : Shape} (h₁ : SameLayout s t) (h₂ : SameLayout t u) : SameLayout s u :=
  ⟨h₂.proto.trans h₁.proto, h₂.entries.trans h₁.entries, h₂.chains.trans h₁.chains⟩

/-- A layout decides where a property is found. -/
theorem find? {s t : Shape} (h : SameLayout s t) (atom : Atom) : t.find? atom = s.find? atom := by
  unfold Shape.find? flagsAt?
  rw [h.entries, h.chains]

end SameLayout

/-- `t` is `s` after any number of changes: not fewer than before, and none if there are no more. -/
structure Follows (s t : Shape) : Prop where
  changes : s.changes ≤ t.changes
  layout : s.changes = t.changes → SameLayout s t

namespace Follows

theorem refl (s : Shape) : Follows s s := ⟨Nat.le_refl _, fun _ => .refl s⟩

theorem trans {s t u : Shape} (h₁ : Follows s t) (h₂ : Follows t u) : Follows s u := by
  refine ⟨Nat.le_trans h₁.changes h₂.changes, fun he => ?_⟩
  have hst := h₁.changes
  have htu := h₂.changes
  exact (h₁.layout (by omega)).trans (h₂.layout (by omega))

/-- A counted change may do anything to the layout. -/
theorem of_lt {s t : Shape} (h : s.changes < t.changes) : Follows s t :=
  ⟨Nat.le_of_lt h, fun he => absurd he (Nat.ne_of_lt h)⟩

end Follows

end Shape

namespace Body

/-- A body of the same kind; a shape follows the shape that was there. -/
structure Follows (b b' : Body) : Prop where
  kind : b'.kind = b.kind
  shape : ∀ s, b = .shape s → ∃ s', b' = .shape s' ∧ s.Follows s'

namespace Follows

theorem refl (b : Body) : Follows b b := ⟨rfl, fun s hs => ⟨s, hs, .refl s⟩⟩

theorem trans {a b c : Body} (h₁ : Follows a b) (h₂ : Follows b c) : Follows a c := by
  refine ⟨h₂.kind.trans h₁.kind, fun s hs => ?_⟩
  obtain ⟨t, ht, hst⟩ := h₁.shape s hs
  obtain ⟨u, hu, htu⟩ := h₂.shape t ht
  exact ⟨u, hu, hst.trans htu⟩

/-- A body that is no shape may become any other of its kind. -/
theorem of_kind {b b' : Body} (hk : b'.kind = b.kind) (hs : b.kind ≠ .shape) : Follows b b' :=
  ⟨hk, fun s h => absurd (by rw [h]; rfl) hs⟩

end Follows

end Body

namespace Heap

/-- The number of cells that were ever put into a slot. -/
def tenures (h : Heap) (i : Nat) : Nat := h.frees i + (h.tenant? i).isSome.toNat

/-- `h'` may come after `h`, with at most `n` cells more in any one slot. -/
structure Evolves (n : Nat) (h h' : Heap) : Prop where
  size : h.slots.size ≤ h'.slots.size
  frees : ∀ i, h.frees i ≤ h'.frees i
  tenures : ∀ i, h'.tenures i ≤ h.tenures i + n
  kept : ∀ i c, h.tenant? i = some c → h'.frees i = h.frees i →
    ∃ c', h'.tenant? i = some c' ∧ c.body.Follows c'.body

variable {h h₁ h' : Heap} {i n m : Nat} {c : Cell} {r : Handle}

namespace Evolves

theorem refl (h : Heap) : Evolves 0 h h :=
  ⟨Nat.le_refl _, fun _ => Nat.le_refl _, fun _ => Nat.le_refl _, fun _ c hc _ => ⟨c, hc, .refl _⟩⟩

theorem trans (e₁ : Evolves n h h₁) (e₂ : Evolves m h₁ h') : Evolves (n + m) h h' := by
  refine ⟨Nat.le_trans e₁.size e₂.size, fun i => Nat.le_trans (e₁.frees i) (e₂.frees i),
    fun i => ?_, fun i c hc hf => ?_⟩
  · have h1 := e₁.tenures i
    have h2 := e₂.tenures i
    omega
  · have h1 := e₁.frees i
    have h2 := e₂.frees i
    obtain ⟨c₁, hc₁, hb₁⟩ := e₁.kept i c hc (by omega)
    obtain ⟨c', hc', hb'⟩ := e₂.kept i c₁ hc₁ (by omega)
    exact ⟨c', hc', hb₁.trans hb'⟩

theorem mono (e : Evolves n h h') (hn : n ≤ m) : Evolves m h h' :=
  ⟨e.size, e.frees, fun i => Nat.le_trans (e.tenures i) (Nat.add_le_add_left hn _), e.kept⟩

/-- Slots may be added as long as all cells are where they were. -/
theorem of_tenants (hsize : h.slots.size ≤ h'.slots.size) (hf : ∀ i, h'.frees i = h.frees i)
    (ht : ∀ i, h'.tenant? i = h.tenant? i) : Evolves 0 h h' := by
  refine ⟨hsize, fun i => Nat.le_of_eq (hf i).symm, fun i => ?_, fun i c hc _ => ?_⟩
  · unfold Heap.tenures
    rw [ht, hf]
    exact Nat.le_refl _
  · exact ⟨c, by rw [ht, hc], .refl _⟩

/-- What happens outside the slots does not matter. -/
theorem of_slots (hs : h'.slots = h.slots) : Evolves 0 h h' :=
  .of_tenants (Nat.le_of_eq (by rw [hs])) (fun i => by unfold Heap.frees; rw [hs])
    fun i => by unfold tenant?; rw [hs]

theorem then_slots (e : Evolves n h h₁) (hs : h'.slots = h₁.slots) : Evolves n h h' :=
  e.trans (.of_slots hs)

/-- A cell may get any body that follows the one it has. -/
theorem modifyCell (h : Heap) (i : Nat) (f : Cell → Cell)
    (hf : ∀ c, h.tenant? i = some c → c.body.Follows (f c).body) : Evolves 0 h (h.modifyCell i f) := by
  refine ⟨by simp, fun j => by simp, fun j => ?_, fun j c hc _ => ?_⟩
  · unfold Heap.tenures
    rw [frees_modifyCell, tenant?_modifyCell]
    split <;> simp
  · rw [tenant?_modifyCell]
    split
    · rename_i hij
      subst hij
      exact ⟨f c, by rw [hc]; rfl, hf c hc⟩
    · exact ⟨c, hc, .refl _⟩

/-- A cell may change in everything but its body. -/
theorem modifyCell_same (h : Heap) (i : Nat) (f : Cell → Cell) (hf : ∀ c, (f c).body = c.body) :
    Evolves 0 h (h.modifyCell i f) :=
  modifyCell h i f fun c _ => by rw [hf]; exact .refl _

theorem setPlace (h : Heap) (i : Nat) (old new : Place) : Evolves 0 h (h.setPlace i old new) :=
  (modifyCell_same h i (fun c => { c with place := new }) fun _ => rfl).then_slots rfl

theorem joinLive (h : Heap) (i : Nat) (old : Place) : Evolves 0 h (h.joinLive i old) :=
  (setPlace h i old (.live h.nextTicket)).then_slots rfl

theorem free (hf : h.free i = .ok h') : Evolves 0 h h' := by
  obtain ⟨c, hc, _, _, he⟩ := free_eq_ok_iff.mp hf
  have ht := tenant?_free hf
  have hn := frees_free hf
  refine ⟨by rw [he]; simp, fun j => ?_, fun j => ?_, fun j d hd hj => ?_⟩
  · rw [hn]
    split <;> omega
  · unfold Heap.tenures
    rw [hn, ht]
    split
    · rename_i hij
      subst hij
      simp [hc]
    · simp
  · rw [hn] at hj
    split at hj
    · omega
    · rename_i hij
      exact ⟨d, by rw [ht, if_neg hij, hd], .refl _⟩

end Evolves

/-! ## Handles through a history -/

/-- A handle that named a cell and still does names the same cell all along: nothing else can have
come into its slot under the same generation. -/
theorem Evolves.tenant_of_live (e₁ : Evolves n h h₁) (e₂ : Evolves m h₁ h')
    (hc : (h.cell? r).isSome) (hc' : (h'.cell? r).isSome) (hnm : n + m < 4294967295) :
    ∃ c₁, h₁.cell? r = some c₁ := by
  obtain ⟨c, hc⟩ := Option.isSome_iff_exists.mp hc
  obtain ⟨c', hc'⟩ := Option.isSome_iff_exists.mp hc'
  obtain ⟨ht, hg⟩ := cell?_eq_some_iff.mp hc
  obtain ⟨ht', hg'⟩ := cell?_eq_some_iff.mp hc'
  have hle := e₁.frees r.index
  have hle' := e₂.frees r.index
  have hten := (e₁.trans e₂).tenures r.index
  simp only [Heap.tenures, ht, ht', Option.isSome_some, Bool.toNat_true] at hten
  -- the two generations agree, and fewer than 2^32 cells came in between
  have hmod : h.frees r.index % 4294967296 = h'.frees r.index % 4294967296 := by
    have := congrArg UInt32.toNat (hg.trans hg'.symm)
    simpa using this
  have hsame : h'.frees r.index = h.frees r.index := by omega
  obtain ⟨c₁, hc₁, _⟩ := e₁.kept r.index c ht (by omega)
  exact ⟨c₁, cell?_eq_some_iff.mpr ⟨hc₁, by rw [← hg]; congr 1; omega⟩⟩

/-- Nothing was freed in the slot of a handle that still names a cell. -/
theorem Evolves.frees_of_live (e : Evolves n h h') {c' : Cell} (hc : h.cell? r = some c)
    (hc' : h'.cell? r = some c') (hn : n < 4294967295) : h'.frees r.index = h.frees r.index := by
  obtain ⟨ht, hg⟩ := cell?_eq_some_iff.mp hc
  obtain ⟨ht', hg'⟩ := cell?_eq_some_iff.mp hc'
  have hle := e.frees r.index
  have hten := e.tenures r.index
  simp only [Heap.tenures, ht, ht', Option.isSome_some, Bool.toNat_true] at hten
  have hmod : h.frees r.index % 4294967296 = h'.frees r.index % 4294967296 := by
    have := congrArg UInt32.toNat (hg.trans hg'.symm)
    simpa using this
  omega

/-- A handle that still names a cell names one of the same kind. -/
theorem Evolves.follows_of_live (e : Evolves n h h') {c' : Cell} (hc : h.cell? r = some c)
    (hc' : h'.cell? r = some c') (hn : n < 4294967295) : c.body.Follows c'.body := by
  obtain ⟨d, hd, hb⟩ := e.kept r.index c (cell?_eq_some_iff.mp hc).1 (e.frees_of_live hc hc' hn)
  rw [(cell?_eq_some_iff.mp hc').1] at hd
  cases hd
  exact hb

/-! ## Freeing and collecting -/

theorem Shift.evolves (e : Shift h h') : Evolves 0 h h' := by
  cases e with
  | aside hslots _ _ => exact .of_slots hslots
  | touch i hf _ => exact .modifyCell_same h i _ hf
  | relist i _ _ => exact .setPlace h i _ _
  | join i _ => exact .joinLive h i _
  | rewrite i hf =>
    refine .modifyCell h i _ fun c hc => ?_
    rcases hf c hc with hsame | ⟨hguard, hkind⟩
    · dsimp only
      rw [hsame]
      exact .refl _
    · refine .of_kind hkind fun hshape => ?_
      rw [hshape] at hguard
      cases hguard
  | free hf => exact .free hf
  | widen => exact .of_tenants (by simp) (frees_widen h) (tenant?_widen h)
  | close i r => exact .of_slots rfl

/-- Changes that make no cell are a stretch of the history. -/
theorem Shifts.evolves (e : Shifts h h') : Evolves 0 h h' := by
  induction e with
  | refl => exact .refl h
  | tail _ hlast ih => exact ih.trans hlast.evolves

end Heap

end ObjectMemory
