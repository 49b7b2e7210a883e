import ObjectMemory.Proofs.Coherence
set_option autoImplicit false

/-!
# Paying for what is there

Every cell and every frame has its bytes on the account, so nothing that is given back can be missing.
`Heap.Pays` says so: the account covers the sizes of all cells and frames and `n` bytes set apart, and
what is asked of every shape and every object holds, as a rule that its size covers what room is made in
it (`Shape.Sized`, `Object.Sized`).  `Heap.Carries` says what an action does to the accounts: the limit
holds for every growth, an object that stays pays for what room it gained for its properties, and a new
object has paid for its properties and nothing else.

Both are kept through every step of freeing and of a collection (`Heap.Pays.run`,
`Heap.Pays.collectCycles`), and none of them ends in a subtraction below zero (`Clears`).
-/

namespace ObjectMemory

/-! ## Results without lapses -/

namespace Fault

/-- A property is not stored the way its entry says. -/
def isMismatch : Fault → Bool
  | notPlain _ _ | notCaptured _ => true
  | _ => false

/-- A subtraction below zero, or a property that is not stored the way its entry says. -/
def isLapse (e : Fault) : Bool := e = arithmetic || e.isMismatch

end Fault

/-- The computation does not end in a subtraction below zero, nor in a mismatch if `strict`, and if it
ends well, `R` holds of what it gives. -/
def Clears {α : Type} (strict : Prop) (R : α → Prop) : Except Fault α → Prop
  | .ok a => R a
  | .error e => e ≠ .arithmetic ∧ (strict → e.isMismatch = false)

namespace Clears

variable {α β : Type} {strict : Prop} {R : α → Prop} {S : β → Prop} {x : Except Fault α}

theorem ne_arithmetic (hx : Clears strict R x) : x ≠ .error .arithmetic := by
  rintro rfl
  exact hx.1 rfl

theorem of_ok {a : α} (hx : Clears strict R x) (e : x = .ok a) : R a := by
  subst e
  exact hx

/-- A fault that comes about may come about anywhere. -/
theorem of_error {err : Fault} (hx : Clears strict R x) (e : x = .error err) :
    Clears strict S (.error err) := by
  subst e
  exact hx

/-- A fault that is let pass is no mismatch if those are barred. -/
theorem not_mismatch {err : Fault} (hx : Clears True R x) (e : x = .error err) : err.isMismatch = false := by
  rw [e] at hx
  exact hx.2 trivial

/-- Other faults are let pass. -/
theorem fault {err : Fault} (herr : err.isLapse = false) : Clears strict R (.error err) := by
  unfold Fault.isLapse at herr
  obtain ⟨hne, hmatch⟩ := Bool.or_eq_false_iff.mp herr
  exact ⟨by simpa using hne, fun _ => hmatch⟩

theorem mono {R' : α → Prop} (hx : Clears strict R x) (himp : ∀ a, R a → R' a) : Clears strict R' x := by
  cases x with
  | ok a => exact himp a hx
  | error e => exact hx

theorem bind {f : α → Except Fault β} (hx : Clears strict R x) (hf : ∀ a, R a → Clears strict S (f a)) :
    Clears strict S (x >>= f) := by
  cases x with
  | ok a => exact hf a hx
  | error e => exact hx

/-- What no step of a fold breaks, the fold does not break. -/
theorem foldlM {σ : Type} {P : σ → Prop} {f : σ → α → Except Fault σ}
    (hstep : ∀ s a, P s → Clears strict P (f s a)) (xs : List α) {s : σ} (hs : P s) :
    Clears strict P (xs.foldlM f s) := by
  induction xs generalizing s with
  | nil => exact hs
  | cons a rest ih =>
    rw [List.foldlM_cons]
    exact (hstep s a hs).bind fun _ hs' => ih hs'

end Clears

/-! ## Sizes of cells -/

namespace Shape

/-- Number of entries that are no property. -/
def nulls (s : Shape) : Nat := s.entries.toList.countP (·.atom.isNull)

/-- The shape is worth `size` bytes and its entries fit; there is a bucket for each, and a power of two of
them.  It counts no more holes than it has, and just as many if `exact`. -/
structure Sized (exact : Prop) (size : Nat) (s : Shape) : Prop where
  bytes : size = Size.shape s.capacity s.buckets.size
  floor : initialCapacity ≤ s.capacity
  room : s.entries.size ≤ s.capacity
  reach : s.capacity ≤ s.buckets.size
  power : ∃ k, s.buckets.size = 2 ^ k
  holes : s.holes ≤ s.nulls
  all : exact → s.holes = s.nulls

end Shape

namespace Payload

/-- Number of elements room is accounted for. -/
def room : Payload → Nat
  | array _ capacity => capacity
  | _ => 0

end Payload

namespace Object

/-- The properties of the object fit, and `size` bytes pay for their room. -/
structure Sized (size : Nat) (o : Object) : Prop where
  bytes : Size.object o.capacity ≤ size
  floor : Shape.initialCapacity ≤ o.capacity
  room : o.properties.size ≤ o.capacity

end Object

namespace Cell

/-- What is asked of shapes and of objects holds of the size of the cell and its body. -/
structure Meets (shapes : Nat → Shape → Prop) (objects : Nat → Object → Prop) (c : Cell) : Prop where
  shape : ∀ s, c.body = .shape s → shapes c.size s
  object : ∀ o, c.body = .object o → objects c.size o

/-- If the cell holds an object in the end it has held one all along, of the same room for elements,
and the size has changed by what the room for properties has. -/
def Carries (c c' : Cell) : Prop := ∀ o', c'.body = .object o' → ∃ o, c.body = .object o ∧
  o'.payload.room = o.payload.room ∧ c'.size + Size.object o.capacity = c.size + Size.object o'.capacity

variable {shapes : Nat → Shape → Prop} {objects : Nat → Object → Prop} {c c' c'' : Cell}

theorem Meets.of_same (hc : c.Meets shapes objects) (hsize : c'.size = c.size) (hbody : c'.body = c.body) :
    c'.Meets shapes objects := by
  constructor
  · intro s hs
    rw [hsize]
    exact hc.shape s (hbody ▸ hs)
  · intro o ho
    rw [hsize]
    exact hc.object o (hbody ▸ ho)

theorem Meets.of_other (hs : ∀ s, c.body ≠ .shape s) (ho : ∀ o, c.body ≠ .object o) :
    c.Meets shapes objects :=
  ⟨fun s h => absurd h (hs s), fun o h => absurd h (ho o)⟩

theorem Carries.of_same (hsize : c'.size = c.size) (hbody : c'.body = c.body) : c.Carries c' :=
  fun o' ho' => ⟨o', hbody ▸ ho', rfl, by rw [hsize]⟩

theorem Carries.of_other (ho : ∀ o, c'.body ≠ .object o) : c.Carries c' := fun o h => absurd h (ho o)

theorem Carries.trans (h₁ : c.Carries c') (h₂ : c'.Carries c'') : c.Carries c'' := by
  intro o'' ho''
  obtain ⟨o', ho', hroom', hsize'⟩ := h₂ o'' ho''
  obtain ⟨o, ho, hroom, hsize⟩ := h₁ o' ho'
  exact ⟨o, ho, hroom'.trans hroom, by omega⟩

end Cell

namespace Config

theorem allows_of_le {c : Config} {n m : Nat} (hn : c.allows n = true) (hm : m ≤ n) :
    c.allows m = true := by
  unfold allows at hn ⊢
  split at hn
  · have hle := of_decide_eq_true hn
    exact decide_eq_true (Nat.le_trans hm hle)
  · rfl

end Config

/-- Changing frames but not their sizes keeps the sum of the sizes. -/
theorem FrameTable.total_modify_same (t : FrameTable) {g : Frame → Frame}
    (hg : ∀ f, (g f).size = f.size) (i : Nat) :
    (t.modify i g).total (·.size) = t.total (·.size) := by
  unfold total modify
  dsimp only
  congr 1
  apply List.ext_getElem?
  intro j
  simp only [List.getElem?_map, Array.getElem?_toList, Array.getElem?_modify]
  split
  · cases t.slots[j]? with
    | none => rfl
    | some s => cases hs : s.frame <;> simp [hs, hg]
  · rfl

namespace Heap

/-! ## Accounts of a heap -/

/-- The cell in slot `i` has become `c'`.  Nothing else of the cells and frames has changed; the account
may have. -/
structure Swaps (i : Nat) (c' : Cell) (h h' : Heap) : Prop where
  tenant : ∀ j, h'.tenant? j = if i = j then some c' else h.tenant? j
  frees : ∀ j, h'.frees j = h.frees j
  frames : h'.frames = h.frames
  liveCells : h'.liveCells = h.liveCells
  config : h'.config = h.config

/-- The accounts of `h'` may come after those of `h`: growth was within the limit, an object that
stayed paid for its properties, and a new one paid for its properties only. -/
structure Carries (h h' : Heap) : Prop where
  config : h'.config = h.config
  within : h'.used ≤ h.used ∨ h.config.allows h'.used = true
  frees : ∀ i, h.frees i ≤ h'.frees i
  kept : ∀ i c, h.tenant? i = some c → h'.frees i = h.frees i →
    ∃ c', h'.tenant? i = some c' ∧ c.Carries c'
  made : ∀ i c' o', h'.tenant? i = some c' → c'.body = .object o' →
    h.tenant? i = none ∨ h'.frees i ≠ h.frees i → c'.size = Size.object o'.capacity

/-- What the accounts are watched for: whether mismatches are barred, since which heap, and what is asked
of the size and the shape or object in each slot. -/
structure Terms where
  strict : Prop
  start : Heap
  shapes : Nat → Nat → Shape → Prop
  objects : Nat → Nat → Object → Prop

/-- Every shape is paid for; of objects anything may be asked. -/
def Terms.sized (strict : Prop) (start : Heap) (exact : Prop) (objects : Nat → Nat → Object → Prop) : Terms :=
  ⟨strict, start, fun _ size s => s.Sized exact size, objects⟩

/-- Every shape and every object is paid for. -/
abbrev Terms.plain (strict : Prop) (start : Heap) (exact : Prop) : Terms :=
  .sized strict start exact fun _ size o => o.Sized size

/-- The account covers all sizes and `n` bytes set apart, what is asked of shapes and objects holds, and
the accounts may come after those of the start. -/
structure Pays (b : Terms) (n : Nat) (h : Heap) : Prop where
  covered : h.total (·.size) + h.frames.total (·.size) + n ≤ h.used
  count : h.liveCells = h.total fun _ => 1
  cells : ∀ i c, h.tenant? i = some c → c.Meets (b.shapes i) (b.objects i)
  since : b.start.Carries h

variable {h h₁ h' : Heap} {b : Terms} {strict : Prop} {i n k : Nat} {c c' : Cell} {r : Handle}

theorem Swaps.modifyCell (hc : h.tenant? i = some c) (f : Cell → Cell) :
    Swaps i (f c) h (h.modifyCell i f) := by
  refine ⟨fun j => ?_, fun j => frees_modifyCell h i f j, rfl, rfl, rfl⟩
  rw [tenant?_modifyCell]
  split
  · rename_i hij
    rw [← hij, hc]
    rfl
  · rfl

/-- A cell is changed, and the account as well. -/
theorem Swaps.modifyAccount (hc : h.tenant? i = some c) (f : Cell → Cell) (k : Nat) :
    Swaps i (f c) h (({ h with used := k } : Heap).modifyCell i f) := by
  obtain ⟨htenant, hfrees, hframes, hlive, hconfig⟩ := Swaps.modifyCell (h := { h with used := k }) hc f
  exact ⟨htenant, hfrees, hframes, hlive, hconfig⟩

/-- A cell that changes twice has changed once. -/
theorem Swaps.again {c₁ : Cell} (e₁ : Swaps i c₁ h h₁) (e₂ : Swaps i c' h₁ h') : Swaps i c' h h' := by
  refine ⟨fun j => ?_, fun j => (e₂.frees j).trans (e₁.frees j), e₂.frames.trans e₁.frames,
    e₂.liveCells.trans e₁.liveCells, e₂.config.trans e₁.config⟩
  rw [e₂.tenant, e₁.tenant]
  split <;> rfl

namespace Carries

theorem refl (h : Heap) : Carries h h := by
  refine ⟨rfl, .inl (Nat.le_refl _), fun _ => Nat.le_refl _, fun i c hc _ => ⟨c, hc, .of_same rfl rfl⟩,
    fun i c' o' hc' _ hnew => ?_⟩
  rcases hnew with hnone | hne
  · rw [hc'] at hnone
    cases hnone
  · exact absurd rfl hne

theorem trans (h₁₂ : Carries h h₁) (h₂₃ : Carries h₁ h') : Carries h h' := by
  refine ⟨h₂₃.config.trans h₁₂.config, ?_, fun i => Nat.le_trans (h₁₂.frees i) (h₂₃.frees i),
    fun i c hc hf => ?_, fun i c' o' hc' ho' hnew => ?_⟩
  · have hlimit := h₂₃.within
    rw [h₁₂.config] at hlimit
    rcases hlimit with hle | hok
    · rcases h₁₂.within with hle' | hok'
      · exact .inl (Nat.le_trans hle hle')
      · exact .inr (Config.allows_of_le hok' hle)
    · exact .inr hok
  · have hle := h₁₂.frees i
    have hle' := h₂₃.frees i
    obtain ⟨c₁, hc₁, hcarry₁⟩ := h₁₂.kept i c hc (by omega)
    obtain ⟨c', hc', hcarry'⟩ := h₂₃.kept i c₁ hc₁ (by omega)
    exact ⟨c', hc', hcarry₁.trans hcarry'⟩
  · -- the cell is new since the middle, or it was new there and is what it was
    by_cases hmid : h₁.tenant? i = none ∨ h'.frees i ≠ h₁.frees i
    · exact h₂₃.made i c' o' hc' ho' hmid
    · obtain ⟨hsome, hsame⟩ := not_or.mp hmid
      obtain ⟨c₁, hc₁⟩ := Option.ne_none_iff_exists'.mp hsome
      have hsame : h'.frees i = h₁.frees i := not_not.mp hsame
      obtain ⟨c'', hc'', hcarry⟩ := h₂₃.kept i c₁ hc₁ hsame
      rw [hc'] at hc''
      cases hc''
      obtain ⟨o, ho, _, hsize⟩ := hcarry o' ho'
      have hmade := h₁₂.made i c₁ o hc₁ ho (hnew.imp_right fun hne => hsame ▸ hne)
      omega

/-- Nothing happens to the slots, and the account grows within the limit. -/
theorem of_views (hconfig : h'.config = h.config)
    (hwithin : h'.used ≤ h.used ∨ h.config.allows h'.used = true)
    (hfrees : ∀ j, h'.frees j = h.frees j) (htenant : ∀ j, h'.tenant? j = h.tenant? j) :
    Carries h h' := by
  refine ⟨hconfig, hwithin, fun j => Nat.le_of_eq (hfrees j).symm,
    fun j c hc _ => ⟨c, by rw [htenant, hc], .of_same rfl rfl⟩, fun j c' o' hc' _ hnew => ?_⟩
  rcases hnew with hnone | hne
  · rw [htenant, hnone] at hc'
    cases hc'
  · exact absurd (hfrees j) hne

/-- One cell changes, and carries its account over. -/
theorem of_change (hc : h.tenant? i = some c) (hswap : Swaps i c' h h')
    (hwithin : h'.used ≤ h.used ∨ h.config.allows h'.used = true) (hcarry : c.Carries c') :
    Carries h h' := by
  refine ⟨hswap.config, hwithin, fun j => Nat.le_of_eq (hswap.frees j).symm, fun j d hd _ => ?_,
    fun j d' o' hd' _ hnew => ?_⟩
  · rw [hswap.tenant]
    split
    · rename_i hij
      subst hij
      rw [hc] at hd
      cases hd
      exact ⟨c', rfl, hcarry⟩
    · exact ⟨d, hd, .of_same rfl rfl⟩
  · rcases hnew with hnone | hne
    · rw [hswap.tenant] at hd'
      split at hd'
      · rename_i hij
        rw [← hij, hc] at hnone
        cases hnone
      · rw [hnone] at hd'
        cases hd'
    · exact absurd (hswap.frees j) hne

theorem free (hf : h.free i = .ok h') : Carries h h' := by
  obtain ⟨c, hc, _, _, he⟩ := free_eq_ok_iff.mp hf
  have ht := tenant?_free hf
  have hn := frees_free hf
  refine ⟨by rw [he], .inl (by rw [he]; exact Nat.sub_le _ _), fun j => ?_, fun j d hd hj => ?_,
    fun j d' o' hd' _ hnew => ?_⟩
  · rw [hn]
    split <;> omega
  · rw [hn] at hj
    split at hj
    · omega
    · rename_i hij
      exact ⟨d, by rw [ht, if_neg hij, hd], .of_same rfl rfl⟩
  · rw [ht] at hd'
    split at hd'
    · cases hd'
    · rename_i hij
      rcases hnew with hnone | hne
      · rw [hnone] at hd'
        cases hd'
      · rw [hn, if_neg hij] at hne
        exact absurd rfl hne

end Carries

/-- A cell that is not there is no lapse. -/
theorem clears_cellAt (strict : Prop) (h : Heap) (i : Nat) :
    Clears strict (fun c => h.tenant? i = some c) (h.cellAt i) := by
  cases hc : h.cellAt i with
  | ok c => exact cellAt_eq_ok_iff.mp hc
  | error e =>
    unfold cellAt at hc
    split at hc
    · cases hc
      exact .fault rfl
    · split at hc
      · cases hc
        exact .fault rfl
      · cases hc

namespace Pays

/-- What is asked may be told apart in more detail, or in less. -/
theorem narrow {b' : Terms} (hp : h.Pays b n) (hstart : b'.start = b.start)
    (hs : ∀ i c s, h.tenant? i = some c → c.body = .shape s → b.shapes i c.size s → b'.shapes i c.size s)
    (ho : ∀ i c o, h.tenant? i = some c → c.body = .object o → b.objects i c.size o →
      b'.objects i c.size o) : h.Pays b' n :=
  ⟨hp.covered, hp.count, fun i c hc => ⟨fun s h => hs i c s hc h ((hp.cells i c hc).shape s h),
    fun o h => ho i c o hc h ((hp.cells i c hc).object o h)⟩, hstart ▸ hp.since⟩

/-- Bytes put on the account are set apart until they are used. -/
theorem of_charge (hp : h.Pays b n) (hok : h.config.allows (h.used + k) = true) :
    Pays b (n + k) { h with used := h.used + k } := by
  refine ⟨?_, hp.count, hp.cells, hp.since.trans (.of_views rfl (.inr hok) (fun _ => rfl) fun _ => rfl)⟩
  have hcovered := hp.covered
  change h.total (·.size) + h.frames.total (·.size) + (n + k) ≤ h.used + k
  omega

/-- All cells and accounts are as they were. -/
theorem of_views (hp : h.Pays b n) (hf : h'.frames.total (·.size) = h.frames.total (·.size))
    (hu : h'.used = h.used) (hl : h'.liveCells = h.liveCells) (hcfg : h'.config = h.config)
    (hn : ∀ j, h'.frees j = h.frees j) (ht : ∀ j, h'.tenant? j = h.tenant? j) : h'.Pays b n := by
  have htotal : ∀ f, h'.total f = h.total f := fun f => total_congr fun j => by rw [ht]
  refine ⟨?_, ?_, fun j c hc => hp.cells j c (by rw [← ht, hc]),
    hp.since.trans (.of_views hcfg (.inl (Nat.le_of_eq hu)) hn ht)⟩
  · rw [htotal, hf, hu]
    exact hp.covered
  · rw [hl, htotal]
    exact hp.count

/-- Changes outside the cells and their accounts. -/
theorem of_same (hp : h.Pays b n) (hs : h'.slots = h.slots)
    (hf : h'.frames.total (·.size) = h.frames.total (·.size)) (hu : h'.used = h.used)
    (hl : h'.liveCells = h.liveCells) (hcfg : h'.config = h.config) : h'.Pays b n :=
  hp.of_views hf hu hl hcfg (fun j => by unfold Heap.frees; rw [hs]) fun j => by unfold tenant?; rw [hs]

/-- One cell changes; the account changes as much as its size.  From then on the accounts are watched
anew. -/
theorem anew_of_change (hp : h.Pays b n) (hc : h.tenant? i = some c) (hswap : Swaps i c' h h')
    (hused : h'.used + c.size = h.used + c'.size) (hmeets : c'.Meets (b.shapes i) (b.objects i)) :
    h'.Pays { b with start := h' } n := by
  have hother : ∀ j, j ≠ i → h'.tenant? j = h.tenant? j := fun j hj => by
    rw [hswap.tenant, if_neg (Ne.symm hj)]
  have htotal : ∀ f : Cell → Nat, h'.total f + f c = h.total f + f c' := fun f => by
    have hchange := total_of_change (f := f) hother
    rw [hc, hswap.tenant, if_pos rfl] at hchange
    exact hchange
  refine ⟨?_, ?_, fun j d hd => ?_, .refl h'⟩
  · have hcovered := hp.covered
    have hsize := htotal (·.size)
    rw [hswap.frames]
    omega
  · rw [hswap.liveCells, hp.count]
    have hone := htotal fun _ => 1
    omega
  · rw [hswap.tenant] at hd
    split at hd
    · rename_i hij
      subst hij
      cases hd
      exact hmeets
    · exact hp.cells j d hd

/-- One cell changes and carries its account over; the account changes as much as its size. -/
theorem of_change (hp : h.Pays b n) (hc : h.tenant? i = some c) (hswap : Swaps i c' h h')
    (hused : h'.used + c.size = h.used + c'.size)
    (hwithin : h'.used ≤ h.used ∨ h.config.allows h'.used = true) (hcarry : c.Carries c')
    (hmeets : c'.Meets (b.shapes i) (b.objects i)) : h'.Pays b n :=
  have hanew := hp.anew_of_change hc hswap hused hmeets
  ⟨hanew.covered, hanew.count, hanew.cells, hp.since.trans (.of_change hc hswap hwithin hcarry)⟩

/-- One cell changes in place and keeps its size. -/
theorem of_modifyCell (hp : h.Pays b n) (i : Nat) {f : Cell → Cell}
    (hf : ∀ c, h.tenant? i = some c → (f c).size = c.size ∧ (f c).Meets (b.shapes i) (b.objects i) ∧
      c.Carries (f c)) : (h.modifyCell i f).Pays b n := by
  cases hc : h.tenant? i with
  | none =>
    have ht : ∀ j, (h.modifyCell i f).tenant? j = h.tenant? j := by
      intro j
      rw [tenant?_modifyCell]
      split
      · rename_i hij
        rw [← hij, hc]
        rfl
      · rfl
    have htotal : ∀ w, (h.modifyCell i f).total w = h.total w := fun w => total_congr fun j => by rw [ht]
    refine ⟨?_, ?_, fun j c hc => hp.cells j c (by rw [← ht, hc]),
      hp.since.trans (.of_views rfl (.inl (Nat.le_refl _)) (fun j => by simp) ht)⟩
    · rw [htotal]
      exact hp.covered
    · rw [htotal]
      exact hp.count
  | some c =>
    obtain ⟨hsize, hmeets, hcarry⟩ := hf c hc
    refine hp.of_change hc (.modifyCell hc f) ?_ (.inl (Nat.le_refl _)) hcarry hmeets
    rw [hsize]
    rfl

/-- A cell changes in what is neither its size nor its body. -/
theorem of_modifyCell_same (hp : h.Pays b n) (i : Nat) {f : Cell → Cell}
    (hf : ∀ c, (f c).size = c.size ∧ (f c).body = c.body) : (h.modifyCell i f).Pays b n :=
  hp.of_modifyCell i fun c hc =>
    ⟨(hf c).1, (hp.cells i c hc).of_same (hf c).1 (hf c).2, .of_same (hf c).1 (hf c).2⟩

/-- A cell that is neither shape nor object gets another body of that sort. -/
theorem of_modifyBody (hp : h.Pays b n) (i : Nat) {f : Body → Body}
    (hs : ∀ c, h.tenant? i = some c → ∀ s, f c.body ≠ .shape s)
    (ho : ∀ c, h.tenant? i = some c → ∀ o, f c.body ≠ .object o) : (h.modifyBody i f).Pays b n :=
  hp.of_modifyCell i fun c hc => ⟨rfl, .of_other (hs c hc) (ho c hc), .of_other (ho c hc)⟩

theorem setRefCount (hp : h.Pays b n) (i k : Nat) : (h.setRefCount i k).Pays b n :=
  hp.of_modifyCell_same i fun _ => ⟨rfl, rfl⟩

theorem setPlace (hp : h.Pays b n) (i : Nat) (old new : Place) : (h.setPlace i old new).Pays b n := by
  have hplaced : (h.modifyCell i fun c => { c with place := new }).Pays b n :=
    hp.of_modifyCell_same i fun _ => ⟨rfl, rfl⟩
  exact hplaced.of_same rfl rfl rfl rfl rfl

theorem joinLive (hp : h.Pays b n) (i : Nat) (old : Place) : (h.joinLive i old).Pays b n :=
  (hp.setPlace i old (.live h.nextTicket)).of_same rfl rfl rfl rfl rfl

theorem enqueue (hp : h.Pays b n) (i : Nat) (old : Place) : (h.enqueue i old).Pays b n :=
  (hp.setPlace i old .queued).of_same rfl rfl rfl rfl rfl

/-- A cell that is there can be paid back. -/
theorem free (hp : h.Pays b n) (i : Nat) : Clears b.strict (Pays b n) (h.free i) := by
  cases hf : h.free i with
  | ok h' =>
    obtain ⟨c, hc, hsize, hlive, he⟩ := free_eq_ok_iff.mp hf
    have htotal := fun f => total_free f hf hc
    have hframes : h'.frames = h.frames := by rw [he]
    have hused : h'.used = h.used - c.size := by rw [he]
    have hcells : h'.liveCells = h.liveCells - 1 := by rw [he]
    refine ⟨?_, ?_, fun j d hd => ?_, hp.since.trans (.free hf)⟩
    · have hcovered := hp.covered
      have hbytes := htotal (·.size)
      rw [hframes, hused]
      omega
    · have hcount := hp.count
      have hone := htotal fun _ => 1
      omega
    · rw [tenant?_free hf] at hd
      split at hd
      · cases hd
      · exact hp.cells j d hd
  | error e =>
    unfold Heap.free at hf
    split at hf
    · rename_i herr
      cases hf
      exact (clears_cellAt b.strict h i).of_error herr
    · rename_i c hc
      have hc := cellAt_eq_ok_iff.mp hc
      split at hf
      · rename_i hbad
        have hcovered := hp.covered
        have hcount := hp.count
        have hbytes := le_total (f := (·.size)) hc
        have hone := le_total (f := fun _ => 1) hc
        omega
      · cases hf

/-! ## Freeing -/

theorem forgetShape (hp : h.Pays b n) (r : Handle) (s : Shape) :
    Clears b.strict (Pays b n) (h.forgetShape r s) := by
  unfold Heap.forgetShape
  split
  · split
    · exact hp.of_same rfl rfl rfl rfl rfl
    · exact .fault rfl
  · exact hp

theorem forgetVariable (hp : h.Pays b n) (r : Handle) (v : Variable) :
    Clears b.strict (Pays b n) (h.forgetVariable r v) := by
  unfold Heap.forgetVariable
  split
  · exact hp
  · split
    · exact hp.of_same rfl (FrameTable.total_modify_same _ (fun f => f.size_close r) _) rfl rfl rfl
    · exact .fault rfl

theorem freeNow (hp : h.Pays b n) (r : Handle) (body : Body) :
    Clears b.strict (Pays b n) (h.freeNow r body) := by
  unfold Heap.freeNow
  split
  · rename_i s
    have hforget := hp.forgetShape r s
    split
    · rename_i h₁ e
      exact (hforget.of_ok e).free r.index
    · rename_i e
      exact hforget.of_error e
  · rename_i v
    have hfree := hp.free r.index
    split
    · rename_i h₁ e
      exact (hfree.of_ok e).forgetVariable r v
    · rename_i e
      exact hfree.of_error e
  · exact hp.free r.index
  · exact hp.free r.index
  all_goals exact .fault rfl

theorem dropQueued (hp : h.Pays b n) (i : Nat) (old : Place) (rest : List Task) :
    (h.dropQueued i old rest).1.Pays b n := by
  have henqueue := hp.enqueue i old
  unfold Heap.dropQueued
  split
  · exact hp
  · exact henqueue
  · exact henqueue.of_same rfl rfl rfl rfl rfl

theorem stepRelease (hp : h.Pays b n) (r : Handle) (rest : List Task) :
    Clears b.strict (fun st => st.1.Pays b n) (h.stepRelease r rest) := by
  unfold Heap.stepRelease
  split
  · exact .fault rfl
  · rename_i c hc
    split
    · exact .fault rfl
    · have hset := hp.setRefCount r.index (c.refCount - 1)
      dsimp only
      split
      · exact hset
      · split
        · exact hset.dropQueued r.index c.place rest
        · have hfree := hset.freeNow r c.body
          split
          · rename_i h₂ e
            exact hfree.of_ok e
          · rename_i e
            exact hfree.of_error e

theorem stepFinalize (hp : h.Pays b n) (i : Nat) (rest : List Task) :
    Clears b.strict (fun st => st.1.Pays b n) (h.stepFinalize i rest) := by
  have hcell := clears_cellAt b.strict h i
  unfold Heap.stepFinalize
  split
  · rename_i e
    exact hcell.of_error e
  · split
    · exact .fault rfl
    · split
      · exact hp.of_modifyBody i (f := fun _ => .zombie _) (fun _ _ _ => nofun) fun _ _ _ => nofun
      · exact .fault rfl

theorem stepDispose (hp : h.Pays b n) (i : Nat) (rest : List Task) :
    Clears b.strict (fun st => st.1.Pays b n) (h.stepDispose i rest) := by
  have hcell := clears_cellAt b.strict h i
  unfold Heap.stepDispose
  split
  · rename_i e
    exact hcell.of_error e
  · split
    · exact hp.setPlace i _ .parked
    · have hfree := hp.free i
      split
      · rename_i h₁ e
        exact hfree.of_ok e
      · rename_i e
        exact hfree.of_error e

theorem stepDrain (hp : h.Pays b n) (rest : List Task) :
    Clears b.strict (fun st => st.1.Pays b n) (h.stepDrain rest) := by
  unfold Heap.stepDrain
  split
  · exact hp.of_same rfl rfl rfl rfl rfl
  · rename_i i q hq
    have hcell := clears_cellAt b.strict h i
    split
    · rename_i e
      exact hcell.of_error e
    · split
      · exact .fault rfl
      · exact hp.of_same rfl rfl rfl rfl rfl

theorem step (hp : h.Pays b n) (task : Task) (rest : List Task) :
    Clears b.strict (fun st => st.1.Pays b n) (h.step task rest) := by
  cases task with
  | release r => exact hp.stepRelease r rest
  | finalize i => exact hp.stepFinalize i rest
  | dispose i => exact hp.stepDispose i rest
  | drain => exact hp.stepDrain rest

theorem run (hp : h.Pays b n) (tasks : List Task) : Clears b.strict (Pays b n) (h.run tasks) := by
  fun_induction Heap.run h tasks with
  | case1 h => exact hp
  | case2 h task rest e he =>
    have hstep := hp.step task rest
    rw [he] at hstep
    exact hstep
  | case3 h task rest h₁ tasks he ih => exact ih ((hp.step task rest).of_ok he)

/-! ## Collecting -/

theorem trialEdge {st : Heap × List Nat} (hp : st.1.Pays b n) (child : Nat) :
    Clears b.strict (fun st' => st'.1.Pays b n) (Heap.trialEdge st child) := by
  obtain ⟨h, found⟩ := st
  have hcell := clears_cellAt b.strict h child
  unfold Heap.trialEdge
  dsimp only
  split
  · rename_i e
    exact hcell.of_error e
  · rename_i c hc
    split
    · exact .fault rfl
    · have hset := Pays.setRefCount hp child (c.refCount - 1)
      split
      · exact hset.setPlace child c.place .candidate
      · exact hset

theorem childrenAt (strict : Prop) (h : Heap) (i : Nat) : Clears strict (fun _ => True) (h.childrenAt i) := by
  have hcell := clears_cellAt strict h i
  unfold Heap.childrenAt
  split
  · trivial
  · rename_i e
    exact hcell.of_error e

theorem trialCell {st : Heap × List Nat} (hp : st.1.Pays b n) (i : Nat) :
    Clears b.strict (fun st' => st'.1.Pays b n) (Heap.trialCell st i) := by
  refine (childrenAt b.strict st.1 i).bind fun children _ => ?_
  refine (Clears.foldlM (fun s child hs => trialEdge hs child) children hp).bind fun st₁ hp₁ => ?_
  refine (clears_cellAt b.strict st₁.1 i).bind fun c _ => ?_
  have hmark : (st₁.1.modifyCell i fun c => { c with mark := true }).Pays b n :=
    hp₁.of_modifyCell_same i fun _ => ⟨rfl, rfl⟩
  dsimp only
  split
  · exact hmark.setPlace i c.place .candidate
  · exact hmark

theorem trialDeletion (hp : h.Pays b n) : Clears b.strict (fun st => st.1.Pays b n) h.trialDeletion := by
  refine (Clears.foldlM (P := fun st : Heap × List Nat => st.1.Pays b n)
    (fun s i hs => trialCell hs i) h.liveOrder hp).bind fun st hst => ?_
  exact hst

theorem rescueEdge {st : Heap × List Nat} (hp : st.1.Pays b n) (child : Nat) :
    Clears b.strict (fun st' => st'.1.Pays b n) (Heap.rescueEdge st child) := by
  obtain ⟨h, saved⟩ := st
  have hcell := clears_cellAt b.strict h child
  unfold Heap.rescueEdge
  dsimp only
  split
  · rename_i e
    exact hcell.of_error e
  · rename_i c hc
    split
    · have hback : (h.modifyCell child fun c => { c with refCount := 1, mark := false }).Pays b n :=
        Pays.of_modifyCell_same hp child fun _ => ⟨rfl, rfl⟩
      exact hback.joinLive child c.place
    · exact Pays.setRefCount hp child (c.refCount + 1)

theorem rescueCell {st : Heap × List Nat} (hp : st.1.Pays b n) (i : Nat) :
    Clears b.strict (fun st' => st'.1.Pays b n) (Heap.rescueCell st i) := by
  obtain ⟨h, saved⟩ := st
  unfold Heap.rescueCell
  dsimp only
  have hmark : (h.modifyCell i fun c => { c with mark := false }).Pays b n :=
    Pays.of_modifyCell_same hp i fun _ => ⟨rfl, rfl⟩
  have hchildren := childrenAt b.strict (h.modifyCell i fun c => { c with mark := false }) i
  split
  · exact Clears.foldlM (P := fun st : Heap × List Nat => st.1.Pays b n)
      (fun s child hs => rescueEdge hs child) _ hmark
  · rename_i e
    exact hchildren.of_error e

theorem rescue (hp : h.Pays b n) (cells : List Nat) : Clears b.strict (Pays b n) (h.rescue cells) := by
  have round : ∀ {h : Heap} (cells : List Nat), h.Pays b n →
      Clears b.strict (fun st => st.1.Pays b n) (cells.foldlM Heap.rescueCell (h, [])) := fun cells hp =>
    Clears.foldlM (P := fun st : Heap × List Nat => st.1.Pays b n)
      (fun s i hs => rescueCell hs i) cells hp
  fun_induction Heap.rescue h cells with
  | case1 h cells e he =>
    have hround := round cells hp
    rw [he] at hround
    exact hround
  | case2 h cells h₁ he => exact (round cells hp).of_ok he
  | case3 h cells h₁ i saved he ih => exact ih ((round cells hp).of_ok he)

theorem restoreCell (hp : h.Pays b n) (i : Nat) : Clears b.strict (Pays b n) (h.restoreCell i) := by
  refine (childrenAt b.strict h i).bind fun children _ => Clears.foldlM (fun h child hp => ?_) children hp
  have hcell := clears_cellAt b.strict h child
  unfold Heap.restoreEdge
  split
  · exact Pays.setRefCount hp child _
  · rename_i e
    exact hcell.of_error e

theorem removeCell (hp : h.Pays b n) (i : Nat) : Clears b.strict (Pays b n) (h.removeCell i) := by
  have hcell := clears_cellAt b.strict h i
  unfold Heap.removeCell
  split
  · split
    · rename_i e
      exact hcell.of_error e
    · split
      · have hrun := hp.run [.finalize i]
        split
        · rename_i h₁ e
          exact (hrun.of_ok e).of_same rfl rfl rfl rfl rfl
        · rename_i e
          exact hrun.of_error e
      · exact hp.setPlace i _ .parked
  · exact hp

theorem sweepCell (hp : h.Pays b n) (i : Nat) : Clears b.strict (Pays b n) (h.sweepCell i) := by
  have hcell := clears_cellAt b.strict h i
  unfold Heap.sweepCell
  split
  · split
    · rename_i e
      exact hcell.of_error e
    · split
      · exact hp.free i
      · exact .fault rfl
  · exact hp

theorem removeGarbage (hp : h.Pays b n) (garbage : List Nat) :
    Clears b.strict (Pays b n) (h.removeGarbage garbage) := by
  have hstart : Pays b n { h with phase := .removingCycles } := hp.of_same rfl rfl rfl rfl rfl
  refine (Clears.foldlM (fun s i hs => removeCell hs i) garbage hstart).bind fun h₁ hp₁ => ?_
  have hidle : Pays b n { h₁ with phase := .idle } := hp₁.of_same rfl rfl rfl rfl rfl
  exact Clears.foldlM (fun s i hs => sweepCell hs i) garbage hidle

theorem collectCycles (hp : h.Pays b n) : Clears b.strict (Pays b n) h.collectCycles := by
  refine hp.trialDeletion.bind fun st₁ hp₁ => ?_
  refine (rescue hp₁ _).bind fun h₂ hp₂ => ?_
  refine (Clears.foldlM (fun s i hs => restoreCell hs i) _ hp₂).bind fun h₃ hp₃ => ?_
  refine (hp₃.removeGarbage _).bind fun h₄ hp₄ => ?_
  exact hp₄.of_same rfl rfl rfl rfl rfl

end Pays

end Heap

end ObjectMemory
