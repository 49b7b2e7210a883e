import ObjectMemory.Proofs.Clients
set_option autoImplicit false

/-!
# The table of shared shapes

Whatever a client that keeps its books has done, the table lists exactly the shapes that say they are
shared, and of two shared shapes with the same prototype no two have the same entries
(`Client.shape_table_exact`).

A shape is made or extended only after the table was asked for it, and shapes that are edited otherwise
are not in the table.  A collection between the question and the answer does no harm: it only takes
shapes away.
-/

namespace ObjectMemory.Heap

variable {x : Ledger} {h : Heap} {r s : Handle} {t t' : Shape}

/-- The table lists the shared shapes, each under its hash. -/
theorem Tabled.mem_iff_shape (htab : h.Tabled) (hash : UInt32) (r : Handle) :
    (hash, r) ∈ h.table.toList ↔ ∃ t, h.shape? r = some t ∧ t.isHashed = true ∧ t.hash = hash := by
  rw [htab.mem_iff, hashOf?, Option.bind_eq_some_iff]
  constructor
  · rintro ⟨b, hb, hhash⟩
    cases b with
    | shape t =>
      simp only [Body.hash?, Option.ite_none_right_eq_some, Option.some.injEq] at hhash
      exact ⟨t, shape?_iff_body?.mpr hb, hhash⟩
    | _ => cases hhash
  · rintro ⟨t, ht, hreg, rfl⟩
    exact ⟨_, shape?_iff_body?.mp ht, by simp [Body.hash?, hreg]⟩

/-- No shape is listed twice: it has only one hash. -/
theorem Tabled.nodup_handles (htab : h.Tabled) : (h.table.toList.map (·.2)).Nodup := by
  refine htab.nodup.map_on ?_
  rintro ⟨hash, r⟩ he ⟨hash', r'⟩ he' hr
  obtain rfl : r = r' := hr
  rw [htab.mem_iff] at he he'
  cases he.symm.trans he'
  rfl

/-- Shared shapes that look the same are the same. -/
theorem Laid.eq_of_shared (hl : h.Laid) (ht : h.shape? r = some t) (ht' : h.shape? s = some t')
    (hreg : t.isHashed = true) (hreg' : t'.isHashed = true) (hproto : t.proto = t'.proto)
    (hentries : t.entries = t'.entries) : r = s := by
  by_contra hne
  exact (hl.shapes s t' (shape?_iff_body?.mp ht')).sole hreg' r t hne (shape?_iff_body?.mp ht) hreg hproto
    hentries

end ObjectMemory.Heap

namespace ObjectMemory.Client

open Heap

variable {config : Config} {h : Heap} {x : Ledger}

/-- The table lists exactly the shared shapes, each once and in the bucket of its hash; it counts them
and is at most half full.  A shared shape has the hash of its layout and no deleted entry, and no other
shared shape has its prototype and its entries. -/
theorem shape_table_exact (hr : Reached (fun _ => True) config h x) :
    (∀ hash r, (hash, r) ∈ h.table.toList ↔
      ∃ t, h.shape? r = some t ∧ t.isHashed = true ∧ t.hash = hash) ∧
    (h.table.toList.map (·.2)).Nodup ∧ h.table.count = h.table.toList.length ∧
    (∀ k b, h.table.buckets[k]? = some b → ∀ e ∈ b, ShapeTable.bucketIndex e.1 h.table.bits = k) ∧
    h.table.buckets.size = 2 ^ h.table.bits ∧ 2 * h.table.count ≤ 2 ^ h.table.bits ∧
    (∀ r t, h.shape? r = some t → t.isHashed = true → t.hash = t.layoutHash ∧ t.holes = 0) ∧
    ∀ r r' t t', h.shape? r = some t → h.shape? r' = some t' → t.isHashed = true → t'.isHashed = true →
      t.proto = t'.proto → t.entries = t'.entries → r = r' := by
  obtain ⟨lost, _, hv⟩ := hr.valid
  have htab := hv.sound.coherent.tabled
  have hsize : h.table.buckets.size = 2 ^ h.table.bits := by
    rw [htab.tidy.placed.size, Nat.one_shiftLeft]
  refine ⟨htab.mem_iff_shape, htab.nodup_handles, htab.tidy.count, htab.tidy.placed.home, hsize,
    hsize ▸ htab.tidy.room, fun r t ht hreg => ?_, fun r r' t t' => hv.laid.eq_of_shared⟩
  have hcons := (hv.laid.shapes r t (shape?_iff_body?.mp ht)).consed hreg
  exact ⟨hcons.hash, hcons.whole⟩

/-- Of two objects made alike the second got a property, and with it a shape of its own, which is shared
as well. -/
theorem shape_table_exact_two : ∃ h x, Reached (fun _ => True) .default h x ∧ h.table.count = 2 ∧
    h.table.toList.length = 2 ∧ ∃ t, h.shape? ⟨3, 0⟩ = some t ∧ t.isHashed = true ∧
      t.hash = t.layoutHash ∧ t.holes = 0 := by
  obtain ⟨⟨reply₁, h₁⟩, e₁, hrest⟩ := ok_of_test (x := (Call.newObject none).perform (.new .default))
    (t := fun p => passes ((Call.newObject none).perform p.2) fun p =>
      passes ((Call.setProperty ⟨2, 0⟩ ⟨300⟩ .undefined).perform p.2) fun p =>
        decide (p.2.table.count = 2) && (p.2.shape? ⟨3, 0⟩).any (·.isHashed))
    (by decide +kernel)
  obtain ⟨⟨reply₂, h₂⟩, e₂, hrest⟩ := ok_of_test hrest
  obtain ⟨⟨reply₃, h₃⟩, e₃, hrest⟩ := ok_of_test hrest
  obtain ⟨hcount, hshape⟩ := Bool.and_eq_true_iff.mp hrest
  obtain ⟨t, ht, hreg⟩ := (Option.any_eq_true _ _).mp hshape
  have hstart : Reached (fun _ => True) .default (.new .default) .empty := .start
  have hr₁ := hstart.next (.call (.newObject none)) trivial (.of_nothing rfl rfl) e₁
  have hr₂ := hr₁.next (.call (.newObject none)) trivial (.of_nothing rfl rfl) e₂
  have hr₃ := hr₂.next (.call (.setProperty ⟨2, 0⟩ ⟨300⟩ .undefined)) trivial (.of_nothing rfl rfl) e₃
  obtain ⟨_, _, hlength, _, _, _, hconsed, _⟩ := shape_table_exact hr₃
  have hcount := of_decide_eq_true hcount
  exact ⟨h₃, _, hr₃, hcount, hlength ▸ hcount, t, ht, hreg, hconsed _ t ht hreg⟩

end ObjectMemory.Client
