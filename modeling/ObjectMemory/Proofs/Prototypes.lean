import ObjectMemory.Proofs.Making
set_option autoImplicit false

/-!
# Prototype chains

An object refers to its prototype through its shape, and shapes are shared; what is seen of an object
(`Heap.record?`) shows the prototype alone.  So chains are looked at through records: a step of the heap
that leaves the prototypes of records as they were leaves every chain, whichever shapes it made or edited.

`Heap.Acyclic` says that no object is among its own prototypes.  It is stated as no return to the start,
so a step only has to answer for the one link it adds (`Heap.Acyclic.of_link`): a new object is nobody's
prototype yet, and a new prototype was checked.  In an acyclic heap every chain comes to an end
(`Heap.Chain`), and before the bound of the loops that follow it.
-/

namespace ObjectMemory

namespace Heap

variable {x y : Ledger} {h h' : Heap} {q r s : Handle} {o? : Option Handle} {rs : List Handle}
  {d : Record} {f : Record → Record} {n : Nat}

/-! ## Links -/

/-- `r` is `p` or among the prototypes of `p`. -/
def Inherits (h : Heap) : Handle → Handle → Prop :=
  Relation.ReflTransGen fun a b => ∃ m, h.propertyMap? a = some m ∧ m.proto = some b

theorem proto?_eq_bind (h : Heap) (r : Handle) : h.proto? r = (h.propertyMap? r).bind (·.proto) := by
  unfold proto? shapeOf? propertyMap? record?
  cases h.object? r with
  | none => rfl
  | some o =>
    cases ht : h.shape? o.shape with
    | none => simp [ht]
    | some t => simp [ht, Record.toMap, Object.record]

/-- One step along the prototypes. -/
def parent? (h : Heap) (p : Option Handle) : Option Handle := p.bind h.proto?

theorem parent?_none (h : Heap) (k : Nat) : h.parent?^[k] none = none :=
  Function.iterate_fixed rfl k

theorem mem_protoChainFrom_iff {k : Nat} {p : Option Handle} :
    r ∈ h.protoChainFrom k p ↔ ∃ n, n < k ∧ h.parent?^[n] p = some r := by
  induction k generalizing p with
  | zero => simp [protoChainFrom]
  | succ k ih =>
    cases p with
    | none => simp [protoChainFrom, parent?_none]
    | some a =>
      rw [protoChainFrom, List.mem_cons, ih]
      constructor
      · rintro (rfl | ⟨n, hn, hr⟩)
        · exact ⟨0, by omega, rfl⟩
        · exact ⟨n + 1, by omega, hr⟩
      · rintro ⟨n, hn, hr⟩
        cases n with
        | zero => exact .inl (Option.some.inj hr).symm
        | succ n => exact .inr ⟨n, by omega, hr⟩

theorem inherits_iff {p : Handle} : h.Inherits p r ↔ ∃ n, h.parent?^[n] (some p) = some r := by
  constructor
  · intro hi
    induction hi with
    | refl => exact ⟨0, rfl⟩
    | tail _ hstep ih =>
      obtain ⟨n, hn⟩ := ih
      obtain ⟨m, hm, hproto⟩ := hstep
      refine ⟨n + 1, ?_⟩
      rw [Function.iterate_succ_apply', hn, parent?, Option.bind_some, proto?_eq_bind, hm]
      exact hproto
  · rintro ⟨n, hn⟩
    induction n generalizing r with
    | zero =>
      cases hn
      exact .refl
    | succ n ih =>
      rw [Function.iterate_succ_apply'] at hn
      obtain ⟨a, ha, hproto⟩ := Option.bind_eq_some_iff.mp hn
      rw [proto?_eq_bind] at hproto
      obtain ⟨m, hm, hproto⟩ := Option.bind_eq_some_iff.mp hproto
      exact (ih ha).tail ⟨m, hm, hproto⟩

theorem contains_of_proto? (hp : h.proto? r = some s) : h.contains r = true := by
  unfold proto? shapeOf? at hp
  cases ho : h.object? r with
  | none => simp [ho] at hp
  | some o => exact contains_of_body? (object?_iff_body?.mp ho)

/-- Every handle a walk passes is for a cell. -/
theorem cell_of_passed {p : Handle} {k : Nat} (hr : h.parent?^[n] (some p) = some r) (hk : k < n) :
    ∃ a c, h.parent?^[k] (some p) = some a ∧ h.cell? a = some c := by
  obtain ⟨j, rfl⟩ := Nat.exists_eq_add_of_lt hk
  have hsteps : k + j + 1 = j + (k + 1) := by omega
  rw [hsteps, Function.iterate_add_apply, Function.iterate_succ_apply'] at hr
  cases ha : h.parent?^[k] (some p) with
  | none =>
    rw [ha, parent?, Option.bind_none, parent?_none] at hr
    cases hr
  | some a =>
    rw [ha, parent?, Option.bind_some] at hr
    cases hb : h.proto? a with
    | none =>
      rw [hb, parent?_none] at hr
      cases hr
    | some b =>
      obtain ⟨c, hc⟩ := contains_iff.mp (contains_of_proto? hb)
      exact ⟨a, c, rfl, hc⟩

/-- A walk that meets its last handle for the first time passes no slot twice. -/
theorem le_size_of_first {p : Handle} (hr : h.parent?^[n] (some p) = some r)
    (hfirst : ∀ k, k < n → h.parent?^[k] (some p) ≠ some r) : n ≤ h.slots.size := by
  have hpassed : ∀ k, ∃ i, k < n → i < h.slots.size ∧ h.parent?^[k] (some p) = some (h.handle i) := by
    intro k
    by_cases hk : k < n
    · obtain ⟨a, c, ha, hc⟩ := cell_of_passed hr hk
      exact ⟨a.index, fun _ => ⟨lt_size_of_tenant (cell?_eq_some_iff.mp hc).1,
        by rw [ha, handle_eq_of_cell? hc]⟩⟩
    · exact ⟨0, fun h => absurd h hk⟩
  choose slot hslot using hpassed
  -- the handle met at `i` and again at `j` would lead to the end `j - i` steps sooner
  have hinj : ∀ i j, i < j → j < n → slot i ≠ slot j := by
    intro i j hij hj he
    apply hfirst (n - j + i) (by omega)
    have hsame : h.parent?^[i] (some p) = h.parent?^[j] (some p) := by
      rw [(hslot i (by omega)).2, (hslot j hj).2, he]
    rw [Function.iterate_add_apply, hsame, ← Function.iterate_add_apply, Nat.sub_add_cancel (by omega), hr]
  have hcard := Finset.card_le_card_of_injOn (s := Finset.range n) (t := Finset.range h.slots.size) slot
    (fun k hk => by simpa using (hslot k (by simpa using hk)).1) ?_
  · simpa using hcard
  · intro i hi j hj he
    have hi : i < n := by simpa using hi
    have hj : j < n := by simpa using hj
    rcases Nat.lt_trichotomy i j with hij | hij | hij
    · exact absurd he (hinj i j hij hj)
    · exact hij
    · exact absurd he.symm (hinj j i hij hi)

/-- The bounded walk along the prototypes meets all there are. -/
theorem mem_protoChain_iff {p : Handle} : r ∈ h.protoChain (some p) ↔ h.Inherits p r := by
  rw [protoChain, mem_protoChainFrom_iff, inherits_iff]
  constructor
  · rintro ⟨n, _, hn⟩
    exact ⟨n, hn⟩
  · intro hex
    classical
    have hr := Nat.find_spec hex
    have hfirst : ∀ k, k < Nat.find hex → h.parent?^[k] (some p) ≠ some r := fun k => Nat.find_min hex
    exact ⟨Nat.find hex, Nat.lt_succ_of_le (le_size_of_first hr hfirst), hr⟩

/-! ## No return to the start -/

theorem proto?_eq_some_iff : h.proto? r = some s ↔ ∃ d, h.record? r = some d ∧ d.proto = some s := by
  rw [proto?_eq_bind, propertyMap?, Option.bind_map]
  exact Option.bind_eq_some_iff

theorem inherits_of_proto? (hp : h.proto? r = some s) : h.Inherits r s := by
  rw [proto?_eq_bind] at hp
  exact .single (Option.bind_eq_some_iff.mp hp)

theorem Apart.proto? (e : Apart rs h h') (hq : q ∉ rs) (hp : h'.proto? q = some s) :
    h.proto? q = some s := by
  obtain ⟨d, hd, hproto⟩ := proto?_eq_some_iff.mp hp
  have hd := e q _ hq (record?_eq_some_iff.mp hd)
  exact proto?_eq_some_iff.mpr ⟨d, record?_eq_some_iff.mpr hd, hproto⟩

/-- No object is among the prototypes of its prototype. -/
def Acyclic (h : Heap) : Prop := ∀ r p, h.proto? r = some p → ¬ h.Inherits p r

/-- A chain of links, of which one may be new, has the new one last met somewhere or not at all. -/
theorem Inherits.of_link {proto : Option Handle} {a b : Handle}
    (hlinks : ∀ q s, h'.proto? q = some s → h.proto? q = some s ∨ q = r ∧ proto = some s)
    (hi : h'.Inherits a b) :
    h.Inherits a b ∨ h.Inherits a r ∧ ∃ p, proto = some p ∧ h.Inherits p b := by
  induction hi with
  | refl => exact .inl .refl
  | @tail b c _ hstep ih =>
    have hlink : h'.proto? b = some c := by
      rw [proto?_eq_bind]
      exact Option.bind_eq_some_iff.mpr hstep
    rcases hlinks b c hlink with hold | ⟨rfl, hnew⟩
    · have hlast := inherits_of_proto? hold
      exact ih.imp (·.trans hlast) (And.imp_right fun hp => hp.imp fun p => And.imp_right (·.trans hlast))
    · exact .inr ⟨ih.elim id (·.1), c, hnew, .refl⟩

namespace Acyclic

/-- One more link closes no cycle if it does not lead back to where it starts. -/
theorem of_link (r : Handle) (proto : Option Handle) (ha : h.Acyclic)
    (hlinks : ∀ q s, h'.proto? q = some s → h.proto? q = some s ∨ q = r ∧ proto = some s)
    (hfree : ∀ p ∈ proto, ¬ h.Inherits p r) : h'.Acyclic := by
  intro q s hlink hback
  rcases hback.of_link hlinks with hbefore | ⟨hto, p, hp, hfrom⟩
  · rcases hlinks q s hlink with hold | ⟨rfl, hnew⟩
    · exact ha q s hold hbefore
    · exact hfree s hnew hbefore
  · rcases hlinks q s hlink with hold | ⟨rfl, hnew⟩
    · exact hfree p hp ((hfrom.trans (inherits_of_proto? hold)).trans hto)
    · exact hfree s hnew hto

theorem of_fewer (ha : h.Acyclic) (hlinks : ∀ q s, h'.proto? q = some s → h.proto? q = some s) :
    h'.Acyclic := by
  exact fun q => ha.of_link q none (fun q s hp => .inl (hlinks q s hp)) (fun p hp => by cases hp) q

theorem of_apart (ha : h.Acyclic) (e : Apart [] h h') : h'.Acyclic :=
  ha.of_fewer fun _ _ hp => e.proto? List.not_mem_nil hp

/-- An object that was changed has the prototype it had, or one that does not lead back to it. -/
theorem of_alters (ha : h.Acyclic) (e : Alters r f h h')
    (hf : ∀ d, h.record? r = some d → (f d).proto = d.proto ∨ ∀ p ∈ (f d).proto, ¬ h.Inherits p r) :
    h'.Acyclic := by
  cases hd : h.record? r with
  | none =>
    refine ha.of_fewer fun q s hp => e.others.proto? (fun hq => ?_) hp
    obtain ⟨d', hd', _⟩ := proto?_eq_some_iff.mp hp
    obtain ⟨d, hd₀, _⟩ := e.record (List.mem_singleton.mp hq ▸ hd')
    cases hd.symm.trans hd₀
  | some d =>
    refine ha.of_link r (f d).proto (fun q s hp => ?_) (fun p hp => ?_)
    · by_cases hq : q = r
      · subst hq
        obtain ⟨d', hd', hproto⟩ := proto?_eq_some_iff.mp hp
        obtain ⟨d₀, hd₀, rfl⟩ := e.record hd'
        cases hd.symm.trans hd₀
        exact .inr ⟨rfl, hproto⟩
      · exact .inl (e.others.proto? (by simpa using hq) hp)
    · rcases hf d hd with hsame | hfree
      · exact ha r p (proto?_eq_some_iff.mpr ⟨d, hd, hsame ▸ hp⟩)
      · exact hfree p hp

/-- A new object is nobody's prototype. -/
theorem of_introduces (ha : h.Acyclic) (hv : h.Valid y) (e : Introduces x r d h h')
    (hproto : ∀ p ∈ d.proto, h.contains p = true) : h'.Acyclic := by
  refine ha.of_link r d.proto (fun q s hp => ?_) (fun p hp hi => ?_)
  · by_cases hq : q = r
    · subst hq
      obtain ⟨d', hd', hs⟩ := proto?_eq_some_iff.mp hp
      cases e.seen.symm.trans hd'
      exact .inr ⟨rfl, hs⟩
    · exact .inl (e.apart.proto? (by simpa using hq) hp)
  · have hlive : h.contains r = true := by
      cases hi with
      | refl => exact hproto r hp
      | tail _ hstep =>
        have hlink := proto?_eq_bind h _ ▸ Option.bind_eq_some_iff.mpr hstep
        obtain ⟨c, hc, _⟩ := kind?_eq_some_iff.mp (hv.sound.kind?_of_proto? hlink)
        exact contains_iff.mpr ⟨c, hc⟩
    exact absurd hlive (by simp [e.fresh])

/-- The answer of an operation on a record does not matter, and squeezing the record keeps its
prototype. -/
theorem of_performs {op : Record → Bool × Record} {done : Bool} (ha : h.Acyclic)
    (e : Performs x r op done h h')
    (hop : ∀ d, (op d).2.proto = d.proto ∨ ∀ p ∈ (op d).2.proto, ¬ h.Inherits p r) : h'.Acyclic := by
  obtain ⟨f, halters, hf⟩ := e.effect
  refine ha.of_alters halters fun d hd => ?_
  rcases hf d hd with heq | heq
  · exact heq ▸ hop d
  · exact heq ▸ hop d

/-! ## Chains -/

/-- No walk along the prototypes comes back to where it was. -/
theorem not_return (ha : h.Acyclic) : h.parent?^[n + 1] (some r) ≠ some r := by
  intro hback
  rw [Function.iterate_succ_apply] at hback
  cases hp : h.proto? r with
  | none =>
    rw [parent?, Option.bind_some, hp, parent?_none] at hback
    cases hback
  | some p =>
    rw [parent?, Option.bind_some, hp] at hback
    exact ha r p hp (inherits_iff.mpr ⟨n, hback⟩)

/-- Every walk comes to an end, because it passes no slot twice. -/
theorem ends (ha : h.Acyclic) (o? : Option Handle) : h.parent?^[h.slots.size + 1] o? = none := by
  cases o? with
  | none => exact parent?_none h _
  | some p =>
    cases hr : h.parent?^[h.slots.size + 1] (some p) with
    | none => rfl
    | some r =>
      have hfirst : ∀ k, k < h.slots.size + 1 → h.parent?^[k] (some p) ≠ some r := by
        intro k hk hearlier
        obtain ⟨j, hj⟩ := Nat.exists_eq_add_of_lt hk
        have hsteps : h.slots.size + 1 = (j + 1) + k := by omega
        rw [hsteps, Function.iterate_add_apply, hearlier] at hr
        exact ha.not_return hr
      have := le_size_of_first hr hfirst
      omega

end Acyclic

/-- The prototypes from `o?` on are `rs`, and after the last there is no more. -/
inductive Chain (h : Heap) : Option Handle → List Handle → Prop where
  | nil : Chain h none []
  | cons {r : Handle} {rs : List Handle} (hrest : Chain h (h.proto? r) rs) : Chain h (some r) (r :: rs)

theorem length_protoChainFrom_le (h : Heap) (n : Nat) (o? : Option Handle) :
    (h.protoChainFrom n o?).length ≤ n := by
  induction n generalizing o? with
  | zero => exact Nat.le_refl 0
  | succ n ih =>
    cases o? with
    | none => exact Nat.zero_le _
    | some r => exact Nat.succ_le_succ (ih _)

theorem chain_of_ends (hend : h.parent?^[n] o? = none) : h.Chain o? (h.protoChainFrom n o?) := by
  induction n generalizing o? with
  | zero =>
    cases hend
    exact .nil
  | succ n ih =>
    cases o? with
    | none => exact .nil
    | some r => exact .cons (ih hend)

namespace Chain

theorem unique {ss : List Handle} (hr : h.Chain o? rs) (hs : h.Chain o? ss) : rs = ss := by
  induction hr generalizing ss with
  | nil =>
    cases hs
    rfl
  | cons _ ih =>
    cases hs with
    | cons hrest => rw [ih hrest]

theorem inherits (hc : h.Chain (some q) rs) (hr : r ∈ rs) : h.Inherits q r := by
  induction rs generalizing q with
  | nil => cases hr
  | cons q rs ih =>
    cases hc with
    | cons hrest =>
      rcases List.mem_cons.mp hr with rfl | hr
      · exact .refl
      · cases hp : h.proto? q with
        | none =>
          rw [hp] at hrest
          cases hrest
          cases hr
        | some p =>
          rw [hp] at hrest
          exact .trans (inherits_of_proto? hp) (ih hrest hr)

theorem nodup (hc : h.Chain o? rs) (ha : h.Acyclic) : rs.Nodup := by
  induction hc with
  | nil => exact List.nodup_nil
  | @cons r rs hrest ih =>
    refine List.nodup_cons.mpr ⟨fun hr => ?_, ih⟩
    cases hp : h.proto? r with
    | none =>
      rw [hp] at hrest
      cases hrest
      cases hr
    | some p =>
      rw [hp] at hrest
      exact ha r p hp (hrest.inherits hr)

end Chain

theorem Acyclic.chain (ha : h.Acyclic) (o? : Option Handle) : h.Chain o? (h.protoChain o?) :=
  chain_of_ends (ha.ends o?)

end Heap

end ObjectMemory
