import ObjectMemory.Proofs.Accounts
set_option autoImplicit false

/-!
# Layouts with one more property

A property is added to a layout in one of several ways.  The extended layout may be found in the table, the
layout may be copied and the copy extended, or it is extended in place because nobody else has it; on the
way the room for entries and the number of buckets may grow.  Which way it was cannot be seen in the layout
that results: its entries are those of the old layout and the new one, and everything that was found before
is found at the same place.

`Client.extension_exact` says so of every heap a client can bring about, and that of the references to both
layouts none is lost and none is left over.
-/

namespace ObjectMemory

namespace Shape

variable {t t' : Shape} {atom other : Atom} {flags : Flags}

/-- The entry that was added is found, whatever entries the atom had before. -/
theorem Wired.find?_added (hw' : t'.Wired) (hnull : atom.isNull = false)
    (hentries : t'.entries = t.entries.push ⟨atom, flags⟩) :
    t'.find? atom = some (t.entries.size, flags) := by
  refine (hw'.find?_eq_some_iff hnull).mpr ⟨by rw [hentries, Array.getElem?_push_size], fun j e hj he => ?_⟩
  have hlt := (Array.getElem?_eq_some_iff.mp he).1
  rw [hentries, Array.size_push] at hlt
  omega

/-- What is found for another atom does not change. -/
theorem Wired.find?_other (hw : t.Wired) (hw' : t'.Wired) (hne : other ≠ atom)
    (hentries : t'.entries = t.entries.push ⟨atom, flags⟩) : t'.find? other = t.find? other := by
  cases hnull : other.isNull with
  | true => simp [find?, hnull]
  | false =>
    -- the entries of the other atom are the same in both layouts
    have hsame : ∀ (j : Nat) (f : Flags),
        t'.entries[j]? = some ⟨other, f⟩ ↔ t.entries[j]? = some ⟨other, f⟩ := by
      intro j f
      rw [hentries, Array.getElem?_push]
      split
      · rename_i hj
        simp [hj, Ne.symm hne]
      · exact Iff.rfl
    have hlast : ∀ (s : Shape) (i : Nat),
        (∀ (j : Nat) (e : Entry), i < j → s.entries[j]? = some e → e.atom ≠ other) ↔
          ∀ (j : Nat) (f : Flags), i < j → ¬ s.entries[j]? = some ⟨other, f⟩ := fun s i =>
      ⟨fun h j f hj he => h j _ hj he rfl, fun h j e hj he ha => h j e.flags hj (by rw [he, ← ha])⟩
    refine Option.ext fun p => ?_
    obtain ⟨i, f⟩ := p
    rw [hw'.find?_eq_some_iff hnull, hw.find?_eq_some_iff hnull]
    simp only [hlast, hsame]

end Shape

namespace Client

variable {config : Config} {allowed : Operation → Prop} {h h' : Heap} {x : Ledger} {old new : Handle}
  {atom : Atom} {flags : Flags} {index : Nat}

/-- A property is added to a shape that the client owns, and for that shape it owns the result: one with the
same prototype, the entries of the old one followed by the new one, and in the table if the old one was.
The index is the number of entries there were.  The property is found there, every other atom where it was
found before.  The result was there already, or the client alone has it; other shapes are what they were or
gone.  All counts are exact before and after, with what array lengths were written over besides. -/
theorem extension_exact (hr : Reached allowed config h x) (howned : 0 < x old) (hnull : atom.isNull = false)
    (e : (AllocM.addProperty old atom flags).run h = .ok (.ok (new, index), h')) :
    ∃ s s' : Shape, h.shape? old = some s ∧ h'.shape? new = some s' ∧ s'.proto = s.proto ∧
      s'.entries = s.entries.push ⟨atom, flags⟩ ∧ s'.isHashed = s.isHashed ∧ index = s.entries.size ∧
      h'.findProperty? new atom = some (index, flags) ∧
      (∀ other, other ≠ atom → h'.findProperty? new other = h.findProperty? old other) ∧
      (h.shape? new = some s' ∨ h'.refCount? new = some 1) ∧
      (∀ q t, q ≠ new → h'.shape? q = some t → h.shape? q = some t) ∧
      ∃ lost : List Handle, ((∀ op, allowed op → op.isPush = false) → lost = []) ∧
        h.Counted (x.plus lost) ∧ h'.Counted (((x.minus [old]).plus [new]).plus lost) := by
  obtain ⟨lost, hlost, hv⟩ := hr.valid
  have hsplit : x.plus lost = ((x.minus [old]).plus lost).plus [old] := by
    have hle : ∀ r, [old].count r ≤ x r := fun r => by
      rw [List.count_singleton]
      split
      · rename_i hq
        rw [← beq_iff_eq.mp hq]
        exact howned
      · exact Nat.zero_le _
    rw [Ledger.plus_comm, Ledger.minus_plus hle]
  rw [hsplit] at hv
  obtain ⟨s, s', hold, hindex, hext, hnew⟩ := hv.provides_of_addProperty e
  have hs := Heap.shape?_iff_body?.mpr hold
  have hs' := Heap.shape?_iff_body?.mpr hnew.shape
  have hw := (hv.laid.shapes old s hold).wired
  have hw' := ((hnew.laid hv.laid).shapes new s' hnew.shape).wired
  refine ⟨s, s', hs, hs', hext.proto, hext.entries, hext.isHashed, hindex, ?_, fun other hne => ?_, ?_,
    fun q t hq ht => ?_, lost, hlost, ?_, ?_⟩
  · rw [Heap.findProperty?, hs', hindex]
    exact hw'.find?_added hnull hext.entries
  · rw [Heap.findProperty?, Heap.findProperty?, hs, hs']
    exact hw.find?_other hw' hne hext.entries
  · rw [Heap.shape?_iff_body?]
    exact hnew.sole
  · exact Heap.shape?_iff_body?.mpr (hnew.spares.bodies q _ (by simpa using hq) (Heap.shape?_iff_body?.mp ht))
  · rw [hsplit]
    exact hv.sound.coherent.counted
  · have hcounted := hnew.sound.coherent.counted
    rwa [Ledger.plus_comm] at hcounted

/-- The client adds the same property to the empty layout twice.  The first time the layout is copied, since
the client has it twice; the second time the result is there, and the client is handed another reference
to it. -/
theorem extension_exact_reused : ∃ h x h', Reached (fun _ => True) .default h x ∧ x ⟨0, 0⟩ = 1 ∧ x ⟨1, 0⟩ = 1 ∧
    (AllocM.addProperty ⟨0, 0⟩ ⟨300⟩ .ordinary).run h = .ok (.ok (⟨1, 0⟩, 0), h') ∧
    ∃ s s' : Shape, h.shape? ⟨0, 0⟩ = some s ∧ h'.shape? ⟨1, 0⟩ = some s' ∧ s'.proto = s.proto ∧
      s'.entries = s.entries.push ⟨⟨300⟩, .ordinary⟩ ∧ s'.isHashed = s.isHashed ∧
      h'.findProperty? ⟨1, 0⟩ ⟨300⟩ = some (0, .ordinary) ∧
      h'.findProperty? ⟨1, 0⟩ ⟨301⟩ = h.findProperty? ⟨0, 0⟩ ⟨301⟩ := by
  obtain ⟨h₁, e₁, hrest⟩ := ok_of_answers (x := (Call.shapeForNewObject none).perform (.new .default))
    (a := .handle ⟨0, 0⟩) (t := fun h =>
      answers ((Call.shapeForNewObject none).perform h) (.handle ⟨0, 0⟩) fun h =>
      answers ((Call.addProperty ⟨0, 0⟩ ⟨300⟩ .ordinary).perform h) (.extended ⟨1, 0⟩ 0) fun h =>
      answers ((AllocM.addProperty ⟨0, 0⟩ ⟨300⟩ .ordinary).run h) (.ok (⟨1, 0⟩, 0)) fun _ => true)
    (by decide +kernel)
  obtain ⟨h₂, e₂, hrest⟩ := ok_of_answers hrest
  obtain ⟨h₃, e₃, hrest⟩ := ok_of_answers hrest
  obtain ⟨h₄, e₄, -⟩ := ok_of_answers hrest
  have hstart : Reached (fun _ => True) .default (.new .default) .empty := .start
  have hr₁ := hstart.next (.call (.shapeForNewObject none)) trivial (.of_nothing rfl rfl) e₁
  have hr₂ := hr₁.next (.call (.shapeForNewObject none)) trivial (.of_nothing rfl rfl) e₂
  have hr₃ := hr₂.next (.call (.addProperty ⟨0, 0⟩ ⟨300⟩ .ordinary)) trivial
    (.of_owned (Operation.settle_pos _ (List.mem_singleton_self _)) rfl rfl) e₃
  obtain ⟨s, s', hs, hs', hproto, hentries, hshared, _, hfind, hother, _⟩ :=
    extension_exact hr₃ (by decide) rfl e₄
  exact ⟨h₃, _, h₄, hr₃, by decide, by decide, e₄, s, s', hs, hs', hproto, hentries, hshared, hfind,
    hother ⟨301⟩ (by decide)⟩

end Client

end ObjectMemory
