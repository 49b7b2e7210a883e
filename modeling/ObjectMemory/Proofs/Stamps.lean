import ObjectMemory.Proofs.CacheAgreement
import ObjectMemory.Proofs.Operation
set_option autoImplicit false

/-!
# Stamps

A stamp is a handle of a shape and the shape's version, as seen at one moment.  A stamp that is seen
twice tells that the layout was the same both times, whoever did what in between: every edit of a layout
is counted by the shape, and a slot that was given to another shape has another generation.  Both counts
are kept in 32 bits, so this holds until one of them comes round.
-/

namespace ObjectMemory

/-! ## Runs -/

namespace Heap

variable {h₀ h₁ h : Heap} {n : Nat} {stamp : ShapeStamp}

/-- Any operations of anyone, one after the other, with any arguments. -/
inductive Steps (h₀ : Heap) : Heap → Prop where
  | none : Steps h₀ h₀
  | next {h h' : Heap} {reply : Reply} (hrun : Steps h₀ h) (op : Operation)
      (e : op.perform h = .ok (reply, h')) : Steps h₀ h'

theorem Steps.evolves (hrun : Steps h₀ h) : ∃ n, h₀.Evolves n h := by
  induction hrun with
  | none => exact ⟨0, .refl _⟩
  | next _ op e ih =>
    obtain ⟨n, hn⟩ := ih
    exact ⟨n + 11, hn.trans (op.evolves e)⟩

/-! ## What a stamp tells -/

/-- The stamp is what the heap answers now, for a shape or for an object of the shape. -/
def Shows (h : Heap) (stamp : ShapeStamp) : Prop :=
  (∃ r, h.shapeStamp? r = some stamp) ∨ ∃ r, h.objectStamp? r = some stamp

theorem Shows.shape (hs : h.Shows stamp) :
    ∃ s, h.shape? stamp.shape = some s ∧ s.version = stamp.version := by
  rcases hs with ⟨r, hr⟩ | ⟨r, hr⟩
  · obtain ⟨s, hs, rfl⟩ := Option.map_eq_some_iff.mp hr
    exact ⟨s, hs, rfl⟩
  · obtain ⟨o, s, _, hs, rfl⟩ := objectStamp?_eq_some_iff.mp hr
    exact ⟨s, hs, rfl⟩

/-- Counts below `2 ^ 32` are told apart by their words. -/
theorem changes_eq_of_version {s t : Shape} (hs : s.changes < 2 ^ 32) (ht : t.changes < 2 ^ 32)
    (hv : s.version = t.version) : s.changes = t.changes := by
  have hword := congrArg UInt32.toNat hv
  simp only [Shape.version, Nat.toUInt32, UInt32.toNat_ofNat'] at hword
  omega

/-- A stamp that is shown at two moments of a run stands for one prototype and one list of entries,
holes included. -/
theorem stamp_determines_layout (hrun : Steps h₀ h) (hw : h.Unwrapped) (hs₀ : h₀.Shows stamp)
    (hs : h.Shows stamp) : ∃ s₀ s, h₀.shape? stamp.shape = some s₀ ∧ h.shape? stamp.shape = some s ∧
      s.proto = s₀.proto ∧ s.entries = s₀.entries := by
  obtain ⟨n, hev⟩ := hrun.evolves
  obtain ⟨s₀, hshape₀, hversion₀⟩ := hs₀.shape
  obtain ⟨s, hshape, hversion⟩ := hs.shape
  have hfollows := hev.shape_follows hw hshape₀ hshape
  have hlt := hw.changes _ _ hshape
  have hle := hfollows.changes
  have hsame := changes_eq_of_version (by omega) hlt (hversion₀.trans hversion.symm)
  have hlayout := hfollows.layout hsame
  exact ⟨s₀, s, hshape₀, hshape, hlayout.proto, hlayout.entries⟩

/-- The stamp of an object with one property is the same after another object was made and given two
properties of its own. -/
theorem stamp_determines_layout_later : ∃ h₀ h, Steps (.new .default) h₀ ∧ Steps h₀ h ∧ h.Unwrapped ∧
    h₀.Shows ⟨⟨0, 0⟩, 1⟩ ∧ h.Shows ⟨⟨0, 0⟩, 1⟩ ∧
    ∃ s₀ s, h₀.shape? ⟨0, 0⟩ = some s₀ ∧ h.shape? ⟨0, 0⟩ = some s ∧ s.proto = s₀.proto ∧
      s.entries = s₀.entries := by
  obtain ⟨⟨_, h₁⟩, e₁, hrest⟩ := ok_of_test (x := (Call.newObject none).perform (.new .default))
    (t := fun p => passes ((Call.setProperty ⟨1, 0⟩ ⟨300⟩ (.smi 7)).perform p.2) fun p =>
      decide (p.2.objectStamp? ⟨1, 0⟩ = some ⟨⟨0, 0⟩, 1⟩) &&
      passes ((Call.newObject none).perform p.2) fun p =>
      passes ((Call.setProperty ⟨3, 0⟩ ⟨400⟩ (.smi 8)).perform p.2) fun p =>
      passes ((Call.setProperty ⟨3, 0⟩ ⟨300⟩ (.smi 9)).perform p.2) fun p =>
      decide (p.2.objectStamp? ⟨1, 0⟩ = some ⟨⟨0, 0⟩, 1⟩ ∧ p.2.slots.toList.all isUnwrapped))
    (by decide +kernel)
  obtain ⟨⟨_, h₂⟩, e₂, hrest⟩ := ok_of_test hrest
  obtain ⟨hstamp₂, hrest⟩ := Bool.and_eq_true_iff.mp hrest
  obtain ⟨⟨_, h₃⟩, e₃, hrest⟩ := ok_of_test hrest
  obtain ⟨⟨_, h₄⟩, e₄, hrest⟩ := ok_of_test hrest
  obtain ⟨⟨_, h₅⟩, e₅, hrest⟩ := ok_of_test hrest
  obtain ⟨hstamp₅, hall⟩ := of_decide_eq_true hrest
  have hrun₀ : Steps (.new .default) h₂ :=
    (Steps.none.next (.call (.newObject none)) e₁).next (.call (.setProperty _ _ _)) e₂
  have hrun : Steps h₂ h₅ := ((Steps.none.next (.call (.newObject none)) e₃).next
    (.call (.setProperty _ _ _)) e₄).next (.call (.setProperty _ _ _)) e₅
  have hw := unwrapped_of_all hall
  have hs₂ : h₂.Shows ⟨⟨0, 0⟩, 1⟩ := .inr ⟨_, of_decide_eq_true hstamp₂⟩
  have hs₅ : h₅.Shows ⟨⟨0, 0⟩, 1⟩ := .inr ⟨_, hstamp₅⟩
  exact ⟨h₂, h₅, hrun₀, hrun, hw, hs₂, hs₅, stamp_determines_layout hrun hw hs₂ hs₅⟩

end Heap

end ObjectMemory
