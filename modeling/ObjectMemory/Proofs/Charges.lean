import ObjectMemory.Proofs.Budgets
import ObjectMemory.Proofs.Reshaping
set_option autoImplicit false

/-!
# Charging for shapes

Actions are followed part by part: an action *stays* under the terms `b` if it keeps `Heap.Pays b n`
for every `n` and does not end in a subtraction below zero (`HeapM.Stays`, `AllocM.Stays`).  An action
that sets bytes apart, or uses them up, says so by its own lemma.

A shape that grows is charged before it has the room, so the two steps are followed together
(`AllocM.Stays.growShape`).  An entry is added only where there is room for it; the accounts tell that
there is after a shape that was full has grown (`AllocM.Stays.extendShape`).
-/

namespace ObjectMemory

open Heap (Terms Pays)

/-! ## Sequences -/

namespace HeapM

variable {α β : Type} {strict : Prop} {h : Heap} {b : Terms}

theorem clears_bind {x : HeapM α} {f : α → HeapM β} {R : α × Heap → Prop} {S : β × Heap → Prop}
    (hx : Clears strict R (x h)) (hf : ∀ a h₁, R (a, h₁) → Clears strict S (f a h₁)) :
    Clears strict S ((x >>= f) h) := by
  rw [bind_apply]
  split
  · rename_i e
    exact hf _ _ (hx.of_ok e)
  · rename_i e
    exact hx.of_error e

theorem clears_read {f : Heap → Except Fault α} {R : α → Prop} (hf : Clears strict R (f h)) :
    Clears strict (fun p => R p.1 ∧ p.2 = h) (read f h) := by
  unfold read
  split
  · rename_i e
    exact ⟨hf.of_ok e, rfl⟩
  · rename_i e
    exact hf.of_error e

/-- The action keeps the accounts under the terms. -/
def Stays (b : Terms) (act : HeapM α) : Prop :=
  ∀ n h, h.Pays b n → Clears b.strict (fun p => p.2.Pays b n) (act h)

namespace Stays

theorem pure (a : α) : Stays b (pure a : HeapM α) := fun _ _ hp => hp

theorem bind {x : HeapM α} {f : α → HeapM β} (hx : Stays b x) (hf : ∀ a, Stays b (f a)) :
    Stays b (x >>= f) := fun n h hp => clears_bind (hx n h hp) fun a h₁ hp₁ => hf a n h₁ hp₁

theorem get_bind {f : Heap → HeapM β} (hf : ∀ h, Stays b (f h)) :
    Stays b ((get : HeapM Heap) >>= f) := fun n h hp => hf h n h hp

theorem read {f : Heap → Except Fault α} (hf : ∀ h, Clears b.strict (fun _ => True) (f h)) :
    Stays b (read f) := by
  intro n h hp
  refine (clears_read (hf h)).mono fun p hread => ?_
  rw [hread.2]
  exact hp

theorem fault {cause : Fault} (hcause : cause.isLapse = false) : Stays b (fault cause : HeapM α) :=
  fun _ _ _ => .fault hcause

/-- Where mismatches are not barred they may come about. -/
theorem mismatch {cause : Fault} (hcause : cause ≠ .arithmetic) (hloose : ¬ b.strict) :
    Stays b (HeapM.fault cause : HeapM α) := fun _ _ _ => ⟨hcause, fun hs => absurd hs hloose⟩

theorem modify {f : Heap → Heap} (hf : ∀ n h, h.Pays b n → (f h).Pays b n) :
    Stays b (modify f : HeapM Unit) := fun n h hp => hf n h hp

theorem change {f : Heap → Except Fault Heap} (hf : ∀ n h, h.Pays b n → Clears b.strict (Pays b n) (f h)) :
    Stays b (change f) := by
  intro n h hp
  have hchange := hf n h hp
  unfold HeapM.change
  split
  · rename_i e
    exact hchange.of_ok e
  · rename_i e
    exact hchange.of_error e

end Stays

end HeapM

namespace AllocM

variable {α β : Type} {strict : Prop} {h : Heap} {b : Terms}

theorem clears_bind {x : AllocM α} {f : α → AllocM β} {R : Except OutOfMemory α × Heap → Prop}
    {S : Except OutOfMemory β × Heap → Prop} (hx : Clears strict R (x.run h))
    (hf : ∀ a h₁, R (.ok a, h₁) → Clears strict S ((f a).run h₁))
    (he : ∀ err h₁, R (.error err, h₁) → S (.error err, h₁)) : Clears strict S ((x >>= f).run h) := by
  rw [bind_apply]
  split
  · rename_i e
    exact hf _ _ (hx.of_ok e)
  · rename_i e
    exact he _ _ (hx.of_ok e)
  · rename_i e
    exact hx.of_error e

theorem clears_lift {x : HeapM α} {R : Except OutOfMemory α × Heap → Prop}
    (hx : Clears strict (fun p => R (.ok p.1, p.2)) (x h)) : Clears strict R ((liftM x : AllocM α).run h) := by
  rw [lift_apply]
  split
  · rename_i e
    exact hx.of_ok e
  · rename_i e
    exact hx.of_error e

theorem clears_lift_bind {x : HeapM α} {f : α → AllocM β} {R : α × Heap → Prop}
    {S : Except OutOfMemory β × Heap → Prop} (hx : Clears strict R (x h))
    (hf : ∀ a h₁, R (a, h₁) → Clears strict S ((f a).run h₁)) :
    Clears strict S (((liftM x : AllocM α) >>= f).run h) := by
  rw [lift_bind_apply]
  split
  · rename_i e
    exact hf _ _ (hx.of_ok e)
  · rename_i e
    exact hx.of_error e

theorem clears_fault_bind {cause : Fault} {S : Except OutOfMemory β × Heap → Prop}
    (hcause : cause.isLapse = false) (f : α → AllocM β) :
    Clears strict S (((liftM (HeapM.fault cause : HeapM α) : AllocM α) >>= f).run h) :=
  clears_lift_bind (R := fun _ => False) (.fault hcause) fun _ _ hno => hno.elim

theorem clears_tryCatch {x : AllocM α} {c : OutOfMemory → AllocM α}
    {R S : Except OutOfMemory α × Heap → Prop} (hx : Clears strict R (x.run h))
    (hok : ∀ a h₁, R (.ok a, h₁) → S (.ok a, h₁))
    (hc : ∀ err h₁, R (.error err, h₁) → Clears strict S ((c err).run h₁)) :
    Clears strict S ((tryCatch x c).run h) := by
  simp only [tryCatch, tryCatchThe, MonadExceptOf.tryCatch, ExceptT.tryCatch]
  refine HeapM.clears_bind (R := R) hx fun res h₁ hres => ?_
  cases res with
  | ok a => exact hok a h₁ hres
  | error err => exact hc err h₁ hres

/-- The action keeps the accounts under the terms, also if memory runs out. -/
def Stays (b : Terms) (act : AllocM α) : Prop := HeapM.Stays b act.run

namespace Stays

theorem pure (a : α) : Stays b (pure a : AllocM α) := HeapM.Stays.pure (Except.ok a)

theorem throw (err : OutOfMemory) : Stays b (throw err : AllocM α) := HeapM.Stays.pure (Except.error err)

theorem bind {x : AllocM α} {f : α → AllocM β} (hx : Stays b x) (hf : ∀ a, Stays b (f a)) :
    Stays b (x >>= f) := fun n h hp =>
  clears_bind (hx n h hp) (fun a h₁ hp₁ => hf a n h₁ hp₁) fun _ _ hp₁ => hp₁

theorem get_bind {f : Heap → AllocM β} (hf : ∀ h, Stays b (f h)) :
    Stays b ((get : AllocM Heap) >>= f) := fun n h hp => hf h n h hp

theorem lift {x : HeapM α} (hx : x.Stays b) : Stays b (liftM x : AllocM α) :=
  fun n h hp => clears_lift (hx n h hp)

theorem fault {cause : Fault} (hcause : cause.isLapse = false) :
    Stays b (liftM (HeapM.fault cause : HeapM α) : AllocM α) := .lift (.fault hcause)

theorem mismatch {cause : Fault} (hcause : cause ≠ .arithmetic) (hloose : ¬ b.strict) :
    Stays b (liftM (HeapM.fault cause : HeapM α) : AllocM α) := .lift (.mismatch hcause hloose)

theorem tryCatch {x : AllocM α} {c : OutOfMemory → AllocM α} (hx : Stays b x)
    (hc : ∀ err, Stays b (c err)) : Stays b (tryCatch x c) := fun n h hp =>
  clears_tryCatch (hx n h hp) (fun _ _ hp₁ => hp₁) fun err h₁ hp₁ => hc err n h₁ hp₁

end Stays

end AllocM

/-! ## References -/

namespace HeapM.Stays

variable {b : Terms}

theorem retain (r : Handle) : Stays b (retain r) := by
  intro n h hp
  unfold HeapM.retain
  split
  · exact hp.of_modifyCell_same r.index fun _ => ⟨rfl, rfl⟩
  · exact .fault rfl

theorem retainOption (r : Option Handle) : Stays b (retainOption r) := by
  cases r with
  | none => exact .pure ()
  | some r => exact .retain r

theorem release (r : Handle) : Stays b (release r) := .change fun _ _ hp => hp.run [.release r]

theorem releaseAll (rs : List Handle) : Stays b (releaseAll rs) := by
  induction rs with
  | nil => exact .pure ()
  | cons r rest ih => exact .bind (.release r) fun _ => ih

theorem dupValue (v : Value) : Stays b (dupValue v) := .bind (.retainOption v.ref?) fun _ => .pure v

theorem freeValue (v : Value) : Stays b (freeValue v) := .releaseAll _

theorem freeValues (vs : Array Value) : Stays b (freeValues vs) := .releaseAll _

theorem flushRoots : Stays b flushRoots :=
  .get_bind fun _ => .bind (.modify fun _ _ hp => hp.of_same rfl rfl rfl rfl rfl) fun _ => .releaseAll _

theorem collect : Stays b collect := by
  refine .get_bind fun h => ?_
  split
  · exact .pure 0
  · refine .bind .flushRoots fun _ => .get_bind fun _ => ?_
    exact .bind (.change fun _ _ hp => hp.collectCycles) fun _ => .get_bind fun _ => .pure _

theorem collectIfDue : Stays b collectIfDue := by
  refine .get_bind fun h => ?_
  split
  · exact .bind .collect fun _ => .modify fun _ _ hp => hp.of_same rfl rfl rfl rfl rfl
  · exact .pure ()

theorem root (r : Handle) : Stays b (root r) := by
  refine .get_bind fun h => ?_
  split
  · exact .pure _
  · exact .fault rfl

theorem cloneRoot (x : Root) : Stays b (cloneRoot x) := .bind (.retain _) fun _ => .root _

theorem dropRoot (x : Root) : Stays b (dropRoot x) :=
  .modify fun _ _ hp => hp.of_same rfl rfl rfl rfl rfl

end HeapM.Stays

/-! ## Allocating -/

namespace AllocM

variable {h h' : Heap} {b : Terms} {n : Nat}

/-- The outcome of a reservation: `size` bytes are set apart, or nothing is. -/
def SetsApart (b : Terms) (n size : Nat) : Except OutOfMemory Reservation × Heap → Prop
  | (.ok p, h) => h.Pays b (n + size) ∧ p.size = size
  | (.error _, h) => h.Pays b n

/-- A slot that is taken leaves the accounts as they are. -/
theorem pays_takeSlot {i : Nat} (hp : h.Pays b n) (e : h.takeSlot = .ok (i, h')) : h'.Pays b n := by
  obtain ⟨_, hfrees, htenant⟩ := Heap.takeSlot_eq_ok e
  have hrest := Heap.takeSlot_rest e
  exact hp.of_views (by rw [hrest]) (by rw [hrest]) (by rw [hrest]) (by rw [hrest]) hfrees htenant

theorem clears_claimSlot (hp : h.Pays b n) (size : Nat) (arrays : Nat → List Request) (failure : OutOfMemory) :
    Clears b.strict (SetsApart b n size) ((claimSlot size arrays failure).run h) := by
  obtain ⟨p, h', hok, hsize, htake, hrun⟩ | ⟨err, h', hsame, hrun⟩ | ⟨-, hrun⟩ :=
    Heap.claimSlot_cases size arrays failure h
  · rw [hrun]
    exact ⟨pays_takeSlot (hp.of_charge hok) htake, hsize⟩
  · rw [hrun]
    obtain rfl | rfl := hsame
    · exact hp
    · exact hp.of_views rfl rfl rfl rfl (Heap.frees_widen h) (Heap.tenant?_widen h)
  · rw [hrun]
    exact .fault rfl

theorem clears_reserve {arrays : Nat → List Request} {failure : OutOfMemory} (hp : h.Pays b n) (size : Nat) :
    Clears b.strict (SetsApart b n size) ((reserve size arrays failure).run h) := by
  refine clears_lift_bind (HeapM.Stays.flushRoots n h hp) fun _ h₁ hp₁ => ?_
  refine clears_lift_bind (HeapM.Stays.collectIfDue n h₁ hp₁) fun _ h₂ hp₂ => ?_
  exact clears_claimSlot hp₂ size arrays failure

theorem clears_reserveOr {arrays : Nat → List Request} (hp : h.Pays b n) (size : Nat) (owned : List Handle) :
    Clears b.strict (SetsApart b n size) ((reserveOr size owned arrays).run h) :=
  clears_tryCatch (clears_reserve hp size) (fun _ _ hp₁ => hp₁) fun _ h₁ hp₁ =>
    clears_lift_bind (HeapM.Stays.releaseAll owned n h₁ hp₁) fun _ _ hp₂ => hp₂

end AllocM

namespace Heap

variable {h h' : Heap} {b : Terms} {n : Nat} {p : Reservation} {body : Body} {listed : Bool} {r : Handle}

theorem putCell_config (e : h.putCell p body listed = .ok (r, h')) : h'.config = h.config := by
  unfold putCell at e
  split at e
  · cases e
  · split at e
    · cases e
    · cases listed <;> cases e <;> rfl

/-- A new cell takes no account but its own, and an object in it has paid for its properties only. -/
theorem Carries.putCell (e : h.putCell p body listed = .ok (r, h'))
    (hobject : ∀ o, body = .object o → p.size = Size.object o.capacity) : Carries h h' := by
  obtain ⟨hvac, _, _, _, hfrees, htenant⟩ := putCell_eq_ok e
  obtain ⟨_, hused, _⟩ := putCell_rest e
  refine ⟨putCell_config e, .inl (Nat.le_of_eq hused), fun i => Nat.le_of_eq (hfrees i).symm,
    fun i c hc _ => ?_, fun i c' o' hc' ho' hnew => ?_⟩
  · rw [htenant]
    split
    · rename_i hi
      rw [← hi, hvac] at hc
      cases hc
    · exact ⟨c, hc, .of_same rfl rfl⟩
  · rw [htenant] at hc'
    split at hc'
    · cases hc'
      exact hobject o' ho'
    · rcases hnew with hnone | hne
      · rw [hnone] at hc'
        cases hc'
      · exact absurd (hfrees i) hne

/-- The bytes set apart become the size of the new cell. -/
theorem Pays.install (hp : h.Pays b (n + p.size))
    (hshape : ∀ s, body = .shape s → b.shapes p.index p.size s)
    (hobject : ∀ o, body = .object o → b.objects p.index p.size o ∧ p.size = Size.object o.capacity) :
    Clears b.strict (fun q => q.2.Pays b n) (HeapM.install p body listed h) := by
  unfold HeapM.install
  cases e : h.putCell p body listed with
  | ok q =>
    obtain ⟨hvac, _, _, _, hfrees, htenant⟩ := putCell_eq_ok e
    obtain ⟨hbooks, hused, hlive, _⟩ := putCell_rest e
    have hother : ∀ j, j ≠ p.index → q.2.tenant? j = h.tenant? j := fun j hj => by
      rw [htenant, if_neg (Ne.symm hj)]
    have htotal : ∀ f : Cell → Nat, q.2.total f = h.total f + f ⟨1, false,
        if listed then .live h.nextTicket else .unlisted, p.size, body⟩ := fun f => by
      have hchange := total_of_change (f := f) hother
      rw [hvac, htenant, if_pos rfl] at hchange
      exact hchange
    refine ⟨?_, ?_, fun i c hc => ?_, hp.since.trans (.putCell e fun o ho => (hobject o ho).2)⟩
    · have hcovered := hp.covered
      rw [htotal, hbooks.frames, hused]
      dsimp only
      omega
    · rw [htotal, hlive, hp.count]
    · rw [htenant] at hc
      split at hc
      · rename_i hi
        subst hi
        cases hc
        exact ⟨hshape, fun o ho => (hobject o ho).1⟩
      · exact hp.cells i c hc
  | error err =>
    unfold Heap.putCell at e
    split at e
    · cases e
      exact .fault rfl
    · split at e
      · cases e
        exact .fault rfl
      · cases listed <;> cases e

end Heap

/-! ## Shapes -/

namespace Shape

variable {exact : Prop} {size : Nat} {s t : Shape}

theorem Sized.of_same (hs : s.Sized exact size) (hcapacity : t.capacity = s.capacity)
    (hbuckets : t.buckets.size = s.buckets.size) (hentries : t.entries.size = s.entries.size)
    (hholes : t.holes = s.holes) (hnulls : t.nulls = s.nulls) : t.Sized exact size := by
  refine ⟨?_, ?_, ?_, ?_, ?_, ?_, fun he => ?_⟩
  · rw [hcapacity, hbuckets]
    exact hs.bytes
  · rw [hcapacity]
    exact hs.floor
  · rw [hcapacity, hentries]
    exact hs.room
  · rw [hcapacity, hbuckets]
    exact hs.reach
  · rw [hbuckets]
    exact hs.power
  · rw [hholes, hnulls]
    exact hs.holes
  · rw [hholes, hnulls]
    exact hs.all he

theorem sized_initial (proto : Option Handle) :
    (initial proto).Sized exact (Size.shape initialCapacity initialBuckets) :=
  ⟨by simp [initial, Chains.unlinked], Nat.le_refl _, Nat.zero_le _, Nat.le_add_right 2 2, ⟨2, rfl⟩,
    Nat.le_refl _, fun _ => rfl⟩

theorem nulls_push (s : Shape) (atom : Atom) (flags : Flags) :
    (s.push atom flags).nulls = s.nulls + atom.isNull.toNat := by
  unfold nulls push
  dsimp only
  rw [Array.toList_push, List.countP_append]
  cases hnull : atom.isNull <;> simp [hnull]

theorem nulls_setFlags (s : Shape) (i : Nat) (flags : Flags) : (s.setFlags i flags).nulls = s.nulls := by
  unfold nulls setFlags
  dsimp only
  rw [Array.toList_modify]
  induction s.entries.toList generalizing i with
  | nil => simp
  | cons e rest ih =>
    cases i with
    | zero => simp [List.countP_cons]
    | succ i =>
      simp only [List.modify_succ_cons, List.countP_cons, ih]

/-- One more entry, where there is room for it; the null atom makes an entry that is no hole. -/
theorem Sized.push {atom : Atom} {flags : Flags} (hs : s.Sized exact size)
    (hroom : s.entries.size < s.capacity) (hatom : exact → atom.isNull = false) :
    (s.push atom flags).Sized exact size := by
  have hnulls := s.nulls_push atom flags
  have hholes := hs.holes
  have hbuckets := s.size_buckets_push atom flags
  refine ⟨?_, hs.floor, ?_, ?_, ?_, ?_, fun he => ?_⟩
  · rw [hs.bytes, hbuckets]
    rfl
  · rw [Shape.push, Array.size_push]
    exact hroom
  · rw [hbuckets]
    exact hs.reach
  · rw [hbuckets]
    exact hs.power
  · change s.holes ≤ _
    omega
  · rw [hnulls, hatom he]
    exact hs.all he

/-- A shape that grows is worth as much more as room was made. -/
theorem Sized.grow {capacity : Nat} (hs : s.Sized exact size) (hle : s.capacity ≤ capacity) :
    (s.grow capacity).Sized exact (size + ((capacity - s.capacity) * Size.entry +
      (s.grownBuckets capacity - s.buckets.size) * Size.bucket)) := by
  have hbuckets : s.buckets.size ≤ s.grownBuckets capacity := le_doubleTo _ _ _
  have hgrown : (s.grow capacity).capacity = capacity ∧
      (s.grow capacity).buckets.size = s.grownBuckets capacity := by
    unfold Shape.grow
    dsimp only
    split
    · rename_i hsame
      exact ⟨rfl, hsame.symm⟩
    · exact ⟨rfl, size_rebuild _ _ _⟩
  obtain ⟨_, hentries, _, _, hholes⟩ := s.grow_fields capacity
  have hnulls : (s.grow capacity).nulls = s.nulls := by rw [nulls, hentries, nulls]
  obtain ⟨k, hpower⟩ := hs.power
  refine ⟨?_, ?_, ?_, ?_, ?_, ?_, fun he => ?_⟩
  · rw [hgrown.1, hgrown.2, hs.bytes]
    unfold Size.shape Size.entry Size.bucket
    omega
  · rw [hgrown.1]
    exact Nat.le_trans hs.floor hle
  · rw [hgrown.1, hentries]
    exact Nat.le_trans hs.room hle
  · have hpos : 0 < s.buckets.size := hpower ▸ Nat.two_pow_pos k
    rw [hgrown.1, hgrown.2]
    exact target_le_doubleTo _ _ _ hpos (Nat.le_add_left _ _)
  · rw [hgrown.2, grownBuckets, hpower]
    exact doubleTo_two_pow _ _ _
  · rw [hholes, hnulls]
    exact hs.holes
  · rw [hholes, hnulls]
    exact hs.all he

theorem Sized.capacity_le_grown (hs : s.Sized exact size) (count : Nat) :
    s.capacity ≤ s.grownCapacity count := by
  have hfloor : 2 ≤ s.capacity := hs.floor
  unfold grownCapacity
  omega

end Shape

namespace HeapM

variable {strict exact : Prop} {h start : Heap} {objects : Nat → Nat → Object → Prop} {n : Nat} {r : Handle}

theorem clears_shape (strict : Prop) (h : Heap) (r : Handle) :
    Clears strict (fun p => h.shape? r = some p.1 ∧ p.2 = h) (shape r h) := by
  refine clears_read (R := fun s => h.shape? r = some s) ?_
  split
  · rename_i s hs
    exact hs
  · exact .fault rfl

theorem clears_modifyShape {f : Shape → Shape} (hp : h.Pays (.sized strict start exact objects) n)
    (hf : ∀ s size, h.shape? r = some s → s.Sized exact size → (f s).Sized exact size) :
    Clears strict (fun p => p.2.Pays (.sized strict start exact objects) n ∧
      ∀ s, h.shape? r = some s → p.2.shape? r = some (f s)) (modifyShape r f h) := by
  cases e : modifyShape r f h with
  | error err =>
    unfold modifyShape at e
    split at e
    · cases e
    · cases e
      exact .fault rfl
  | ok p =>
    obtain ⟨t, c, hc, hb, he⟩ := Heap.modifyShape_eq_ok e
    have ht : h.shape? r = some t := Heap.shape?_eq_some_iff.mpr ⟨c, hc, hb⟩
    have hu := Heap.Updates.modifyShapeAt hc hb f
    refine ⟨?_, fun s hs => ?_⟩
    · rw [he]
      refine hp.of_modifyCell r.index fun d hd => ?_
      rw [Heap.tenant?_of_cell? hc] at hd
      cases hd
      rw [hb]
      refine ⟨rfl, ⟨fun s hs => ?_, nofun⟩, .of_other nofun⟩
      cases hs
      exact hf t _ ht ((hp.cells _ c (Heap.tenant?_of_cell? hc)).shape t hb)
    · rw [ht] at hs
      cases hs
      rw [he]
      exact Heap.shape?_eq_some_iff.mpr ⟨_, hu.cell_self, rfl⟩

/-- The shape under `r` has room for one more entry. -/
def HasRoom (r : Handle) (h : Heap) : Prop := ∃ s, h.shape? r = some s ∧ s.entries.size < s.capacity

/-- An edit of what is not the layout. -/
theorem clears_edit {f : Shape → Shape} (hp : h.Pays (.sized strict start exact objects) n)
    (hf : ∀ s : Shape, (f s).capacity = s.capacity ∧ (f s).buckets = s.buckets ∧
      (f s).entries = s.entries ∧ (f s).holes = s.holes) :
    Clears strict (fun p => p.2.Pays (.sized strict start exact objects) n ∧
      ∀ s, h.shape? r = some s → p.2.shape? r = some (f s)) (modifyShape r f h) := by
  refine clears_modifyShape hp fun s size _ hs => ?_
  obtain ⟨hcapacity, hbuckets, hentries, hholes⟩ := hf s
  exact hs.of_same hcapacity (by rw [hbuckets]) (by rw [hentries]) hholes (by
    rw [Shape.nulls, hentries, Shape.nulls])

theorem Stays.edit (r : Handle) {f : Shape → Shape}
    (hf : ∀ s : Shape, (f s).capacity = s.capacity ∧ (f s).buckets = s.buckets ∧
      (f s).entries = s.entries ∧ (f s).holes = s.holes) :
    Stays (.sized strict start exact objects) (modifyShape r f) :=
  fun _ _ hp => (clears_edit hp hf).mono fun _ hmod => hmod.1

/-- Entering the table or leaving it is an edit of what is not the layout. -/
theorem pays_retabled {s : Shape} (hashed : Bool) (table : ShapeTable)
    (hp : h.Pays (.sized strict start exact objects) n) (hs : h.shape? r = some s) :
    Pays (.sized strict start exact objects) n
        { h.modifyShapeAt r.index fun s => { s with isHashed := hashed } with table := table } ∧
      Heap.shape? { h.modifyShapeAt r.index fun s => { s with isHashed := hashed } with table := table } r =
        some { s with isHashed := hashed } := by
  have hmod : modifyShape r (fun s => { s with isHashed := hashed }) h =
      .ok ((), h.modifyShapeAt r.index fun s => { s with isHashed := hashed }) := by
    unfold modifyShape
    rw [hs]
  obtain ⟨hp', hs'⟩ := (clears_edit (f := fun s => { s with isHashed := hashed }) hp
    fun _ => ⟨rfl, rfl, rfl, rfl⟩).of_ok hmod
  exact ⟨hp'.of_same rfl rfl rfl rfl rfl, hs' s hs⟩

theorem clears_register (hp : h.Pays (.sized strict start exact objects) n) (r : Handle) :
    Clears strict (fun p => p.2.Pays (.sized strict start exact objects) n ∧
      ∀ s, h.shape? r = some s → p.2.shape? r = some { s with isHashed := true }) (register r h) := by
  unfold register
  split
  · exact .fault rfl
  · rename_i s hs
    split
    · exact .fault rfl
    · obtain ⟨hp', hs'⟩ := pays_retabled true (h.table.insert s.hash r) hp hs
      refine ⟨hp', fun t ht => ?_⟩
      rw [hs] at ht
      cases ht
      exact hs'

theorem clears_unregister (hp : h.Pays (.sized strict start exact objects) n) (r : Handle) :
    Clears strict (fun p => p.2.Pays (.sized strict start exact objects) n ∧
      ∀ s, h.shape? r = some s → p.2.shape? r = some { s with isHashed := false }) (unregister r h) := by
  unfold unregister
  split
  · exact .fault rfl
  · rename_i s hs
    split
    · split
      · rename_i table _
        obtain ⟨hp', hs'⟩ := pays_retabled false table hp hs
        refine ⟨hp', fun t ht => ?_⟩
        rw [hs] at ht
        cases ht
        exact hs'
      · exact .fault rfl
    · exact .fault rfl

namespace Stays

theorem modifyShape (r : Handle) {f : Shape → Shape}
    (hf : ∀ s size, s.Sized exact size → (f s).Sized exact size) :
    Stays (.sized strict start exact objects) (modifyShape r f) :=
  fun _ _ hp => (clears_modifyShape hp fun s size _ => hf s size).mono fun _ hmod => hmod.1

theorem setFlags (r : Handle) (i : Nat) (flags : Flags) :
    Stays (.sized strict start exact objects) (HeapM.modifyShape r (·.setFlags i flags)) :=
  .modifyShape r fun s _ hs => hs.of_same rfl rfl (by simp [Shape.setFlags]) rfl (s.nulls_setFlags i flags)

theorem shape (r : Handle) : Stays (.sized strict start exact objects) (shape r) := by
  refine .read fun h => ?_
  split
  · trivial
  · exact .fault rfl

theorem register (r : Handle) : Stays (.sized strict start exact objects) (register r) :=
  fun _ _ hp => (clears_register hp r).mono fun _ hreg => hreg.1

theorem unregister (r : Handle) : Stays (.sized strict start exact objects) (unregister r) :=
  fun _ _ hp => (clears_unregister hp r).mono fun _ hreg => hreg.1

end Stays

end HeapM

namespace AllocM

open HeapM

variable {strict exact : Prop} {h start : Heap} {objects : Nat → Nat → Object → Prop} {n : Nat} {r : Handle}
  {atom : Atom} {flags : Flags}

/-- A cell that is charged for what it gains still pays. -/
theorem pays_charged {b : Terms} {c : Cell} {i k : Nat} {f : Cell → Cell} (hp : h.Pays b n)
    (hc : h.tenant? i = some c) (hok : h.config.allows (h.used + k) = true)
    (hsize : (f c).size = c.size + k) (hmeets : (f c).Meets (b.shapes i) (b.objects i))
    (hcarry : c.Carries (f c)) : ({ h with used := h.used + k }.modifyCell i f).Pays b n := by
  refine hp.of_change hc (.modifyAccount hc f _) ?_ (.inr hok) hcarry hmeets
  rw [hsize]
  change h.used + k + c.size = _
  omega

/-- A shape is charged for its room, and then it has the room. -/
theorem clears_growShape (hp : h.Pays (.sized strict start exact objects) n) (r : Handle) (count : Nat) :
    Clears strict (fun p => p.2.Pays (.sized strict start exact objects) n ∧
      ∀ s, p.1 = .ok () → h.shape? r = some s → p.2.shape? r = some (s.grow (s.grownCapacity count)))
      ((growShape r count).run h) := by
  refine clears_lift_bind (clears_shape _ h r) fun s h₁ hs => ?_
  obtain ⟨hs, rfl⟩ := hs
  obtain ⟨c, hc, hb⟩ := Heap.shape?_eq_some_iff.mp hs
  have ht := Heap.tenant?_of_cell? hc
  dsimp only
  rw [bind_apply]
  generalize hk : (s.grownCapacity count - s.capacity) * Size.entry +
    (s.grownBuckets (s.grownCapacity count) - s.buckets.size) * Size.bucket = k
  obtain ⟨hok, hrun⟩ | ⟨err, hrun⟩ := Heap.growCell_cases ht k _
  · rw [hrun]
    have hc₂ := (Heap.Updates.modifyCell (h := { h₁ with used := h₁.used + k }) (s := r) hc
      fun c => { c with size := c.size + k }).cell_self
    refine clears_lift ?_
    unfold modifyShape
    rw [Heap.shape?_eq_some_iff.mpr ⟨_, hc₂, hb⟩]
    refine ⟨?_, fun s' _ hs' => ?_⟩
    · have hsized := (hp.cells _ c ht).shape s hb
      unfold Heap.modifyShapeAt Heap.modifyBody
      rw [Heap.modifyCell_modifyCell]
      refine pays_charged hp ht hok rfl ⟨fun t htb => ?_, fun o ho => ?_⟩ (.of_other fun o ho => ?_)
      · simp only [Function.comp_apply, hb] at htb
        cases htb
        exact hk ▸ hsized.grow (hsized.capacity_le_grown count)
      · simp [hb] at ho
      · simp [hb] at ho
    · rw [hs] at hs'
      cases hs'
      exact Heap.shape?_eq_some_iff.mpr ⟨_, (Heap.Updates.modifyShapeAt hc₂ hb _).cell_self, rfl⟩
  · rw [hrun]
    exact ⟨hp, nofun⟩

/-- The last step of an extension adds the entry, for which there is room. -/
theorem clears_push (hp : h.Pays (.sized strict start exact objects) n) (hroom : HasRoom r h)
    (hatom : exact → atom.isNull = false) :
    Clears strict (fun p => p.2.Pays (.sized strict start exact objects) n)
      (modifyShape r (·.push atom flags) h) := by
  obtain ⟨t, ht, hlt⟩ := hroom
  refine (clears_modifyShape hp fun s size hs hsized => ?_).mono fun _ hmod => hmod.1
  rw [ht] at hs
  cases hs
  exact hsized.push hlt hatom

/-- A shape with room goes back into the table if it was there, and then gets its entry. -/
theorem clears_finish (hp : h.Pays (.sized strict start exact objects) n) (hroom : HasRoom r h)
    (hatom : exact → atom.isNull = false) (isHashed : Bool) (hash : UInt32) (count : Nat) :
    Clears strict (fun p => p.2.Pays (.sized strict start exact objects) n) ((do
      if isHashed then
        modifyShape r fun s => { s with hash := hash }
        register r
      modifyShape r (·.push atom flags)
      return count : AllocM Nat).run h) := by
  cases isHashed with
  | false =>
    exact clears_lift_bind (clears_push hp hroom hatom) fun _ h₁ hp₁ => hp₁
  | true =>
    obtain ⟨s, hs, hlt⟩ := hroom
    refine clears_lift_bind (clears_edit (f := fun s => { s with hash := hash }) hp
      fun _ => ⟨rfl, rfl, rfl, rfl⟩) fun _ h₁ hedit => ?_
    obtain ⟨hp₁, hs₁⟩ := hedit
    refine clears_lift_bind (clears_register hp₁ r) fun _ h₂ hregister => ?_
    obtain ⟨hp₂, hs₂⟩ := hregister
    exact clears_lift_bind (clears_push hp₂ ⟨_, hs₂ _ (hs₁ s hs), hlt⟩ hatom) fun _ _ hp₃ => hp₃

/-- A full shape grows; if that fails it goes back into the table. -/
theorem clears_makeRoom {s : Shape} (hp : h.Pays (.sized strict start exact objects) n)
    (hs : h.shape? r = some s) (isHashed : Bool) :
    Clears strict (fun p => p.2.Pays (.sized strict start exact objects) n ∧ (p.1 = .ok () → HasRoom r p.2))
      ((tryCatch (growShape r (s.entries.size + 1)) fun e => do
        if isHashed then register r
        throw e).run h) := by
  refine clears_tryCatch (clears_growShape hp r _) (fun u h₁ hgrow => ?_) fun err h₁ hgrow => ?_
  · refine ⟨hgrow.1, fun _ => ⟨_, hgrow.2 s rfl hs, ?_⟩⟩
    obtain ⟨_, hentries, _⟩ := s.grow_fields (s.grownCapacity (s.entries.size + 1))
    have hcapacity : (s.grow (s.grownCapacity (s.entries.size + 1))).capacity =
        s.grownCapacity (s.entries.size + 1) := by
      unfold Shape.grow
      dsimp only
      split <;> rfl
    rw [hentries, hcapacity]
    exact Nat.lt_of_lt_of_le (Nat.lt_succ_self _) (Nat.le_max_left _ _)
  · cases isHashed with
    | false => exact ⟨hgrow.1, nofun⟩
    | true => exact clears_lift_bind (HeapM.Stays.register r n h₁ hgrow.1) fun _ h₂ hp₂ => ⟨hp₂, nofun⟩

/-- The part of an extension that the shape spends out of the table.  Its layout is the one that was read
before. -/
theorem clears_extend {s t : Shape} (hp : h.Pays (.sized strict start exact objects) n)
    (ht : h.shape? r = some t) (hentries : t.entries = s.entries) (hcapacity : t.capacity = s.capacity)
    (hatom : exact → atom.isNull = false) (isHashed : Bool) (hash : UInt32) :
    Clears strict (fun p => p.2.Pays (.sized strict start exact objects) n) ((do
      if s.entries.size ≥ s.capacity then
        try growShape r (s.entries.size + 1)
        catch e =>
          if isHashed then register r
          throw e
      if isHashed then
        modifyShape r fun s => { s with hash := hash }
        register r
      modifyShape r (·.push atom flags)
      return s.entries.size : AllocM Nat).run h) := by
  by_cases hfull : s.entries.size ≥ s.capacity
  · simp only [if_pos hfull]
    rw [← hentries]
    refine clears_bind (clears_makeRoom hp ht isHashed) (fun _ h₁ hgrow => ?_) fun _ _ hgrow => hgrow.1
    exact clears_finish hgrow.1 (hgrow.2 rfl) hatom isHashed hash _
  · simp only [if_neg hfull]
    exact clears_finish hp ⟨t, ht, by rw [hentries, hcapacity]; omega⟩ hatom isHashed hash _

namespace Stays

theorem extendShape (r : Handle) (hatom : exact → atom.isNull = false) :
    Stays (.sized strict start exact objects) (extendShape r atom flags) := by
  intro n h hp
  refine clears_lift_bind (clears_shape _ h r) fun s h₁ hread => ?_
  obtain ⟨hs, rfl⟩ := hread
  cases hashed : s.isHashed with
  | false =>
    simp only [Bool.false_eq_true, if_false]
    exact clears_extend hp hs rfl rfl hatom false 0
  | true =>
    simp only [if_true]
    refine clears_lift_bind (clears_unregister hp r) fun _ h₂ hout => ?_
    exact clears_extend hout.1 (hout.2 s hs) rfl rfl hatom true _

/-- What is set apart for a cell is used up by the rest of the action. -/
theorem make {b : Terms} {α : Type} {size : Nat} {x : AllocM Reservation} {k : Reservation → AllocM α}
    (hx : ∀ n h, h.Pays b n → Clears b.strict (SetsApart b n size) (x.run h))
    (hk : ∀ p n h, h.Pays b (n + p.size) → p.size = size →
      Clears b.strict (fun q => q.2.Pays b n) ((k p).run h)) : Stays b (x >>= k) := by
  intro n h hp
  refine clears_bind (hx n h hp) (fun p h₁ hres => ?_) fun _ _ hres => hres
  exact hk p n h₁ (hres.2 ▸ hres.1) hres.2

theorem newShape (proto : Option Handle) : Stays (.sized strict start exact objects) (newShape proto) := by
  refine .make (fun _ _ hp => clears_reserve hp _) fun p n h hp hsize => ?_
  refine clears_lift_bind (HeapM.Stays.retainOption proto _ h hp) fun _ h₁ hp₁ => ?_
  refine clears_lift_bind (hp₁.install (fun s hs => ?_) nofun) fun r h₂ hp₂ => ?_
  · cases hs
    rw [hsize]
    exact Shape.sized_initial proto
  · exact Stays.bind (.lift (.register r)) (fun _ => .pure r) n h₂ hp₂

theorem shapeForNewObject (proto : Option Handle) :
    Stays (.sized strict start exact objects) (shapeForNewObject proto) := by
  refine .get_bind fun h => ?_
  split
  · exact .bind (.lift (.retain _)) fun _ => .pure _
  · exact .newShape proto

/-- The room of the copy is that of the shape read before the reservation, and the shape that is copied is
read after it.  Between the two only cells are freed. -/
theorem cloneShape (r : Handle) : Stays (.sized strict start exact objects) (cloneShape r) := by
  intro n h hp
  refine clears_lift_bind (clears_shape _ h r) fun s h₁ hread => ?_
  obtain ⟨hs, rfl⟩ := hread
  obtain ⟨c, hc, hb⟩ := Heap.shape?_eq_some_iff.mp hs
  have ht := Heap.tenant?_of_cell? hc
  have hwatch : h₁.Pays
      ⟨strict, start, fun i size t => t.Sized exact size ∧ (i = r.index → t = s), objects⟩ n := by
    refine hp.narrow rfl (fun i d t hd hdb hsized => ⟨hsized, fun hi => ?_⟩) fun _ _ _ _ _ ho => ho
    rw [hi, ht] at hd
    cases hd
    rw [hb] at hdb
    cases hdb
    rfl
  refine clears_bind (clears_reserve hwatch _) (fun p h₂ hres => ?_) fun _ _ hp₂ =>
    hp₂.narrow rfl (fun _ _ _ _ _ ht => ht.1) fun _ _ _ _ _ ho => ho
  obtain ⟨hp₂, hsize⟩ := hres
  refine clears_lift_bind (clears_shape _ h₂ r) fun s' h₃ hread => ?_
  obtain ⟨hs', rfl⟩ := hread
  obtain ⟨c', hc', hb'⟩ := Heap.shape?_eq_some_iff.mp hs'
  obtain ⟨hsized, hsame⟩ := (hp₂.cells _ c' (Heap.tenant?_of_cell? hc')).shape s' hb'
  obtain rfl := hsame rfl
  have hp₃ : h₃.Pays (.sized strict start exact objects) (n + p.size) := by
    rw [hsize]
    exact hp₂.narrow rfl (fun _ _ _ _ _ ht => ht.1) fun _ _ _ _ _ ho => ho
  refine clears_lift_bind (HeapM.Stays.retainOption _ _ h₃ hp₃) fun _ h₄ hp₄ => clears_lift ?_
  refine hp₄.install (fun t htb => ?_) nofun
  cases htb
  rw [hsize]
  exact ⟨rfl, hsized.floor, hsized.room, hsized.reach, hsized.power, hsized.holes, hsized.all⟩

theorem addProperty (r : Handle) (hatom : exact → atom.isNull = false) :
    Stays (.sized strict start exact objects) (addProperty r atom flags) := by
  refine .bind (.lift (.shape r)) fun s => .get_bind fun h => ?_
  dsimp only
  generalize (if s.isHashed = true then h.sharedTransition? s atom flags else none) = found
  cases found with
  | some next =>
    exact .bind (.lift (.retain next)) fun _ => .bind (.lift (.release r)) fun _ =>
      .bind (.lift (.shape next)) fun _ => .pure _
  | none =>
    refine .get_bind fun h => ?_
    split
    · refine .bind (.cloneShape r) fun clone => .bind ?_ fun index => ?_
      · exact .tryCatch (.extendShape clone hatom) fun _ => .bind (.lift (.release clone)) fun _ => .throw _
      · refine .bind (.lift (.release r)) fun _ => ?_
        split
        · exact .bind (.lift (.edit clone fun _ => ⟨rfl, rfl, rfl, rfl⟩)) fun _ =>
            .bind (.lift (.register clone)) fun _ => .pure _
        · exact .pure _
    · exact .bind (.extendShape r hatom) fun _ => .pure _

theorem prepareUpdate (r : Handle) : Stays (.sized strict start exact objects) (prepareUpdate r) := by
  have hbump : ∀ x, Stays (.sized strict start exact objects) (liftM (modifyShape x (·.bump)) : AllocM Unit) :=
    fun x => .lift (.edit x fun _ => ⟨rfl, rfl, rfl, rfl⟩)
  refine .get_bind fun h => ?_
  split
  · exact .bind (.cloneShape r) fun clone => .bind (.lift (.release r)) fun _ =>
      .bind (hbump clone) fun _ => .pure _
  · refine .bind (.lift (.shape r)) fun s => ?_
    dsimp only
    split
    · exact .bind (.lift (.unregister r)) fun _ => .bind (hbump r) fun _ => .pure _
    · exact .bind (hbump r) fun _ => .pure _

end Stays

end AllocM

end ObjectMemory
