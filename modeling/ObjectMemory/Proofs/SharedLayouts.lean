import ObjectMemory.Proofs.Turns
set_option autoImplicit false

/-!
# Layouts that are shared

An operation edits a layout in place only if it is the layout of its own object, or the one it was handed,
and nobody else refers to it (`Operation.edits`).  The count is asked once, before the first edit; what the
operation frees or collects after that can only take owners away from other layouts.

The main statement is that a layout with two references or more is left as it is, by any operation on the
heap of a client, as long as it is left at all (`Client.shared_layouts_last`).
-/

namespace ObjectMemory

namespace Heap

variable {x : Ledger} {n : Nat} {T : Nat → Prop} {h h' : Heap} {r s s' : Handle} {t t' : Shape}

/-- Handles of one slot that are both live are the same. -/
theorem eq_of_index {c c' : Cell} (hr : h.cell? r = some c) (hs : h.cell? s = some c')
    (hi : r.index = s.index) : r = s := by
  by_contra hne
  rw [Updates.cell?_eq_none_of_index hs hi hne] at hr
  cases hr

/-- A layout that was not freed is what it was, unless it is in a slot of `T`. -/
theorem Lasts.shape? (e : Lasts T h h') (ht : h.shape? s = some t) (hT : ¬ T s.index)
    (hfrees : h'.frees s.index = h.frees s.index) : h'.shape? s = some t := by
  obtain ⟨hat, hg⟩ := body?_iff_bodyAt?.mp (shape?_iff_body?.mp ht)
  obtain ⟨b, hb, hsame⟩ := e.kept s.index _ hat hfrees
  rw [hsame t rfl hT] at hb
  exact shape?_iff_body?.mpr (body?_iff_bodyAt?.mpr ⟨hb, hfrees ▸ hg⟩)

/-- A shape that was taken over for changes is in nobody else's hands and not in the table. -/
theorem Sound.unshared_of_prepareUpdate (hs : h.Sound x n)
    (e : (AllocM.prepareUpdate s).run h = .ok (.ok s', h')) : ∃ t t', h.shape? s = some t ∧
      h'.shape? s' = some t' ∧ Unshared t t' ∧ h'.refCount? s' = some 1 := by
  rcases hs.of_prepareUpdate e with ⟨new, t₀, t', hres, hun, hone, hrep⟩ | ⟨t₀, t', hres, hun, hone, _, hre⟩ |
      ⟨⟨_, hres⟩, _⟩
  · cases hres
    have hbefore := hrep.before
    obtain ⟨h₁, t, _, _, _, hcon, _⟩ := hrep
    exact ⟨t₀, t', shape?_iff_body?.mpr hbefore, shape?_iff_body?.mpr hcon.after, hun, hone⟩
  · cases hres
    exact ⟨t₀, t', shape?_iff_body?.mpr hre.before, shape?_iff_body?.mpr hre.after, hun, hone⟩
  · cases hres

end Heap

namespace Client

open Heap

variable {config : Config} {h h' : Heap} {x : Ledger} {reply : Reply}

/-- No operation on the heap of a client edits a layout that has two references or more: if it is left, it
is what it was, with its prototype, its entries, its holes, its version, its hash and its place in the
table.  A layout that was edited is the one the operation was about, and had one reference.  One that was
made ready for changes has one reference, is not in the table, and has the prototype and the entries of
the one that was handed in. -/
theorem shared_layouts_last (hr : Reached (fun _ => True) config h x) (op : Operation)
    (e : op.perform h = .ok (reply, h')) :
    (∀ s t k, h.shape? s = some t → h.refCount? s = some k → 2 ≤ k → h'.contains s = true →
      h'.shape? s = some t) ∧
    (∀ s t t', h.shape? s = some t → h'.shape? s = some t' → t' ≠ t →
      op.layout? h = some s ∧ h.refCount? s = some 1) ∧
    ∀ s s', op = .call (.prepareUpdate s) → reply = .handle s' → ∃ t t', h.shape? s = some t ∧
      h'.shape? s' = some t' ∧ t'.proto = t.proto ∧ t'.entries = t.entries ∧ t'.isHashed = false ∧
      h'.refCount? s' = some 1 := by
  obtain ⟨lost, _, hv⟩ := hr.valid
  have hturns := hv.turns hr.kept.2 op e
  have hkept : ∀ s t, h.shape? s = some t → h'.contains s = true → ¬ op.edits h s.index →
      h'.shape? s = some t := by
    intro s t ht hlive hT
    obtain ⟨c, hc, _⟩ := shape?_eq_some_iff.mp ht
    obtain ⟨c', hc'⟩ := contains_iff.mp hlive
    exact hturns.lasts.shape? ht hT ((op.evolves e).frees_of_live hc hc' (by decide))
  have hown : ∀ s t, h.shape? s = some t → op.edits h s.index →
      op.layout? h = some s ∧ h.refCount? s = some 1 := by
    rintro s t ht ⟨q, hq, hi, hone⟩
    obtain ⟨c, hc, _⟩ := shape?_eq_some_iff.mp ht
    obtain ⟨d, hd, _⟩ := Option.map_eq_some_iff.mp hone
    obtain rfl := eq_of_index hd hc hi
    exact ⟨hq, hone⟩
  refine ⟨fun s t k ht hk htwo hlive => hkept s t ht hlive fun hi => ?_, fun s t t' ht ht' hne => ?_, ?_⟩
  · have hone := (hown s t ht hi).2
    rw [hk] at hone
    cases hone
    omega
  · by_contra hnot
    refine hne ?_
    obtain ⟨c', hc', _⟩ := shape?_eq_some_iff.mp ht'
    have hsame := hkept s t ht (contains_of_cell? hc') fun hi => hnot (hown s t ht hi)
    rw [ht'] at hsame
    exact Option.some.inj hsame
  · rintro s s' rfl rfl
    rcases Call.attempt_eq_ok e with ⟨_, e, hreply⟩ | ⟨_, _, hreply⟩
    · cases hreply
      obtain ⟨t, t', ht, ht', hun, hone⟩ := hv.sound.unshared_of_prepareUpdate e
      exact ⟨t, t', ht, ht', hun.proto, hun.entries, hun.isHashed, hone⟩
    · cases hreply

/-- The client has the empty shape twice and makes one of the two ready for changes: it gets another, and
the one that it still has stays as it was. -/
theorem shared_layouts_last_copied : ∃ h h' x t t', Reached (fun _ => True) .default h x ∧
    (Call.prepareUpdate ⟨0, 0⟩).perform h = .ok (.handle ⟨1, 0⟩, h') ∧ h.shape? ⟨0, 0⟩ = some t ∧
    h.refCount? ⟨0, 0⟩ = some 2 ∧ h'.shape? ⟨0, 0⟩ = some t ∧ t.isHashed = true ∧
    h'.shape? ⟨1, 0⟩ = some t' ∧ t'.isHashed = false ∧ t'.entries = t.entries ∧
    h'.refCount? ⟨1, 0⟩ = some 1 := by
  obtain ⟨h₁, e₁, hrest⟩ := ok_of_answers (x := (Call.shapeForNewObject none).perform (.new .default))
    (a := .handle ⟨0, 0⟩)
    (t := fun h => answers ((Call.shapeForNewObject none).perform h) (.handle ⟨0, 0⟩) fun h =>
      decide (h.refCount? ⟨0, 0⟩ = some 2 ∧ ∃ t ∈ h.shape? ⟨0, 0⟩, t.isHashed = true) &&
      answers ((Call.prepareUpdate ⟨0, 0⟩).perform h) (.handle ⟨1, 0⟩) fun h => h.contains ⟨0, 0⟩)
    (by decide +kernel)
  obtain ⟨h₂, e₂, hrest⟩ := ok_of_answers hrest
  obtain ⟨hbefore, hrest⟩ := Bool.and_eq_true_iff.mp hrest
  obtain ⟨htwo, t, ht, hhashed⟩ := of_decide_eq_true hbefore
  obtain ⟨h₃, e₃, hlive⟩ := ok_of_answers hrest
  have hstart : Reached (fun _ => True) .default (.new .default) .empty := .start
  have hr₁ := hstart.next (.call (.shapeForNewObject none)) trivial
    ⟨fun r => by simp [Operation.consumed, Call.consumed], nofun⟩ e₁
  have hr₂ := hr₁.next (.call (.shapeForNewObject none)) trivial
    ⟨fun r => by simp [Operation.consumed, Call.consumed], nofun⟩ e₂
  obtain ⟨hshared, _, hready⟩ := shared_layouts_last hr₂ (.call (.prepareUpdate ⟨0, 0⟩)) e₃
  obtain ⟨t₀, t', ht₀, ht', _, hentries, hout, hone⟩ := hready _ _ rfl rfl
  rw [ht] at ht₀
  cases ht₀
  exact ⟨h₂, h₃, _, t, t', hr₂, e₃, ht, htwo, hshared _ _ _ ht htwo (Nat.le_refl 2) hlive, hhashed, ht', hout,
    hentries, hone⟩

end Client

end ObjectMemory
