import ObjectMemory.Proofs.Arrays
set_option autoImplicit false

/-!
# Frames, captured variables and roots

Entering a frame moves the references of its locals from the ledger to the frame.  Popping it moves them
on: while its open variables are detached one after the other, each takes over the value of its local
(`Heap.Popping`), and what is left of the locals is given up at the end.

A captured variable is attached to a live frame and on its open list, or holds a value of its own.
-/

namespace ObjectMemory

/-- The name a frame is entered under named no frame before. -/
theorem FrameTable.Tidy.get?_new {t : FrameTable} (ht : t.Tidy) (f : Frame) :
    t.get? (t.push f).1 = none := by
  cases hfree : t.free with
  | nil =>
    rw [push_of_nil hfree]
    simp [get?]
  | cons i rest =>
    obtain ⟨s, hs, hsf⟩ := ht.vacant i (by simp [hfree])
    rw [push_of_cons hfree hs]
    simp [get?, hs, hsf]

namespace Heap

variable {x y : Ledger} {n : Nat} {h h₁ h₂ h' : Heap} {r s : Handle} {c c' : Cell} {id : FrameId}
  {f : Frame} {u : Unit}

/-! ## Entering a frame -/

theorem Bound.push (hb : h.Bound) (hopen : f.openVariables = #[]) :
    ({ h with frames := (h.frames.push f).2 } : Heap).Bound := by
  have hnew := hb.tidy.get?_new f
  have hget : ∀ j g, (h.frames.push f).2.get? j = some g →
      g.openVariables = #[] ∨ h.frames.get? j = some g := by
    intro j g hg
    rw [hb.tidy.get?_push] at hg
    split at hg
    · cases hg
      exact .inl hopen
    · exact .inr hg
  refine ⟨hb.tidy.push f, fun r j hr => ?_, fun j g hg => ?_, fun j g hg r hr => ?_⟩
  · obtain ⟨g, hg, hmem⟩ := hb.listed r j hr
    have hj : j ≠ (h.frames.push f).1 := by
      rintro rfl
      rw [hnew] at hg
      cases hg
    refine ⟨g, ?_, hmem⟩
    dsimp only
    rw [hb.tidy.get?_push, if_neg hj]
    exact hg
  · rcases hget j g hg with hg | hg
    · simp [hg]
    · exact hb.nodup j g hg
  · rcases hget j g hg with hg | hg
    · simp [hg] at hr
    · exact hb.attached j g hg r hr

/-- The locals of a new frame come from the ledger. -/
theorem Sound.push (hs : h.Sound (x.plus f.refs) (n + f.size)) (hnames : h.Names f.typedRefs)
    (hopen : f.openVariables = #[]) :
    ({ h with frames := (h.frames.push f).2 } : Heap).Sound x n := by
  have hx := hs.coherent
  have htidy := hx.bound.tidy
  refine ⟨⟨?_, hx.bound.push hopen, hx.tabled.of_same (fun _ => rfl) rfl, ⟨?_, hx.accounted.cells⟩,
    hx.rested⟩, hs.idle, hs.noneWaiting, hs.settled⟩
  · refine hx.counted.of_same (.of_slots rfl) (fun r => ?_) (fun r hr => ?_) (fun j g hg => ?_)
      hx.counted.roots
    · have htotal := htidy.total_push (fun f => f.refs.count r) f
      unfold heldByFrames
      simp only [Ledger.plus_apply]
      omega
    · exact hx.counted.owned r (by simp only [Ledger.plus_apply]; omega)
    · dsimp only at hg
      rw [htidy.get?_push] at hg
      split at hg
      · cases hg
        exact hnames
      · exact hx.counted.locals j g hg
  · have htotal := htidy.total_push (·.size) f
    have hused := hx.accounted.used
    have hsame : ({ h with frames := (h.frames.push f).2 } : Heap).total (·.size) = h.total (·.size) := rfl
    rw [hsame]
    dsimp only at hused ⊢
    omega

/-- A frame consumes its locals. -/
theorem Valid.of_pushFrame {locals : Array Value} {res : Except OutOfMemory FrameId}
    (hv : h.Valid (x.plus (locals.toList.filterMap Value.ref?)))
    (hnames : h.Names (locals.toList.filterMap Value.typedRef?))
    (e : (AllocM.pushFrame locals).run h = .ok (res, h')) :
    (∃ id, res = .ok id) ∧ Rests x h h' ∨ (∃ err, res = .error err) ∧ GivesUp x h h' := by
  rcases AllocM.bind_eq_ok e with ⟨_, h₁, e₁, e₂⟩ | ⟨err, e₁, rfl⟩
  · rcases AllocM.tryCatch_eq_ok e₁ with ⟨_, e₁, _⟩ | ⟨_, _, _, e₁⟩
    · obtain ⟨hsame, ⟨_, hs₁⟩ | ⟨⟨_, he⟩, _⟩⟩ := hv.sound.of_reserveFrame e₁
      · obtain ⟨id, e₂, hres⟩ := AllocM.lift_eq_ok e₂
        cases e₂
        have hnames₁ : h₁.Names (locals.toList.filterMap Value.typedRef?) := fun q hq => by
          rw [hsame.kind?]
          exact hnames q hq
        have hs' := Sound.push (f := ⟨locals, #[], Size.frameWithLocals locals.size⟩) hs₁ hnames₁ rfl
        exact .inl ⟨⟨_, hres⟩, hv.rests ⟨hs', Keeps.trans (.of_same hsame) (.of_slots rfl)⟩⟩
      · cases he
    · obtain ⟨_, _, _, e₁⟩ := AllocM.lift_bind_eq_ok e₁
      cases e₁
  · rcases AllocM.tryCatch_eq_ok e₁ with ⟨_, _, hres⟩ | ⟨_, h₁, e₂, e₃⟩
    · cases hres
    · obtain ⟨_, h₂, e₃, e₄⟩ := AllocM.lift_bind_eq_ok e₃
      obtain ⟨_, rfl⟩ := AllocM.throw_eq_ok e₄
      obtain ⟨_, ⟨he, _⟩ | ⟨_, rfl⟩⟩ := hv.sound.of_reserveFrame e₂
      · cases he
      · exact .inr ⟨⟨err, rfl⟩, hv.givesUp_refl.releaseAll e₃⟩

/-! ## Capturing a local -/

/-- A new attached variable goes on the open list of its frame. -/
theorem Bound.capture (hb : h.Bound) (hf : h.frames.get? id = some f) (hr : h.frameOf? r = none)
    (hframe : ∀ q, h'.frameOf? q = if q = r then some id else h.frameOf? q)
    (hframes : h'.frames = h.frames.modify id.index fun f =>
      { f with openVariables := f.openVariables.push r }) : h'.Bound := by
  have hnot : ∀ j g, h.frames.get? j = some g → r ∉ g.openVariables.toList := by
    intro j g hg hmem
    rw [hb.attached j g hg r hmem] at hr
    cases hr
  have hget : ∀ j g', h'.frames.get? j = some g' → ∃ g, h.frames.get? j = some g ∧
      (j = id ∧ g'.openVariables = g.openVariables.push r ∨ j ≠ id ∧ g' = g) := by
    intro j g' hg'
    rw [hframes, FrameTable.get?_modify] at hg'
    split at hg'
    · rename_i hj
      obtain ⟨g, hg, rfl⟩ := Option.map_eq_some_iff.mp hg'
      exact ⟨g, hg, .inl ⟨FrameTable.id_eq_of_get? hf hg hj.symm, rfl⟩⟩
    · rename_i hj
      exact ⟨g', hg', .inr ⟨fun hid => hj (by rw [hid]), rfl⟩⟩
  refine ⟨by rw [hframes]; exact hb.tidy.modify _ _, fun q j hq => ?_, fun j g' hg' => ?_,
    fun j g' hg' q hq => ?_⟩
  · rw [hframe] at hq
    rw [hframes, FrameTable.get?_modify]
    split at hq
    · rename_i hqr
      cases hq
      rw [if_pos rfl, hf, hqr]
      exact ⟨_, rfl, by simp⟩
    · obtain ⟨g, hg, hmem⟩ := hb.listed q j hq
      rw [hg]
      split
      · exact ⟨_, rfl, by rw [Array.toList_push]; exact List.mem_append_left _ hmem⟩
      · exact ⟨g, rfl, hmem⟩
  · obtain ⟨g, hg, ⟨_, hpush⟩ | ⟨_, rfl⟩⟩ := hget j g' hg'
    · rw [hpush, Array.toList_push]
      refine List.nodup_append.mpr ⟨hb.nodup j g hg, by simp, fun a ha b hb' => ?_⟩
      rw [List.mem_singleton.mp hb']
      rintro rfl
      exact hnot j g hg ha
    · exact hb.nodup j g' hg
  · rw [hframe]
    obtain ⟨g, hg, ⟨rfl, hpush⟩ | ⟨_, rfl⟩⟩ := hget j g' hg'
    · rw [hpush, Array.toList_push, List.mem_append, List.mem_singleton] at hq
      split
      · rfl
      · rename_i hqr
        exact hb.attached j g hg q (hq.resolve_right hqr)
    · have hne : q ≠ r := by
        rintro rfl
        exact hnot j g' hg hq
      rw [if_neg hne]
      exact hb.attached j g' hg q hq

/-- An attached variable is made; the ledger owns it. -/
theorem Sound.capture {slot : Nat} {p : Reservation} (hs : h.Sound x p.size)
    (hf : h.frames.get? id = some f)
    (e : HeapM.install p (.captured (.attached id slot)) false h = .ok (r, h₁)) :
    Makes r (.captured (.attached id slot)) h h₁ ∧
      ({ h₁ with frames := h₁.frames.modify id.index fun f =>
        { f with openVariables := f.openVariables.push r } } : Heap).Sound (x.plus [r]) 0 := by
  have e : h.putCell p (.captured (.attached id slot)) false = .ok (r, h₁) := e
  obtain ⟨hfresh, hu⟩ := Updates.putCell e
  obtain ⟨hb, hused, hlive, hphase, hwait⟩ := putCell_rest e
  rw [if_neg (by simp)] at hu
  have hx := hs.coherent
  have hf₁ : h₁.frames.get? id = some f := by rw [hb.frames, hf]
  have hcounted : h₁.Counted (x.plus [r]) :=
    Counted.put (by simpa [Body.refs, Variable.refs] using hx.counted) hu hb.frames hb.dropped hfresh rfl
      (fun q hq => by cases hq)
  have htotal : ∀ w : Frame → Nat, (∀ f, w { f with openVariables := f.openVariables.push r } = w f) →
      (h₁.frames.modify id.index fun f =>
        { f with openVariables := f.openVariables.push r }).total w = h.frames.total w := by
    intro w hw
    have := FrameTable.total_modify w (fun f => { f with openVariables := f.openVariables.push r }) hf₁
    rw [hw, hb.frames] at this
    rw [hb.frames]
    omega
  have hu' (frames : FrameTable) : Updates r _ h { h₁ with frames := frames } := hu.then_slots rfl
  refine ⟨.of_updates hfresh hu rfl rfl, ⟨⟨?_, ?_, ?_, ?_, ?_⟩, hphase.trans hs.idle,
    by rw [hwait]; exact hs.noneWaiting, ?_⟩⟩
  · refine hcounted.of_same (.of_slots rfl) (fun q => ?_) hcounted.owned (fun j g' hg' => ?_)
      hcounted.roots
    · unfold heldByFrames
      dsimp only
      rw [htotal _ (fun _ => rfl), hb.frames]
    · dsimp only at hg'
      rw [FrameTable.get?_modify] at hg'
      split at hg'
      · obtain ⟨g, hg, rfl⟩ := Option.map_eq_some_iff.mp hg'
        exact hcounted.locals j g hg
      · exact hcounted.locals j g' hg'
  · exact hx.bound.capture hf (frameOf?_of_vacant hfresh) (hu' _).frameOf?_eq (by dsimp only; rw [hb.frames])
  · refine hx.tabled.of_same ((hu' _).hashOf?_same ?_) hb.table
    rw [hashOf?_of_vacant hfresh]
    rfl
  · refine hx.accounted.update (hu' _) hfresh (htotal _ fun _ => rfl) ?_ hlive
    simp only [Option.elim_some, Option.elim_none]
    omega
  · refine (hu' _).forall_cells (fun d hd => ?_) hx.rested
    cases hd
    exact Body.rested_of_kind (by simp [Body.kind])
  · refine (hu' _).forall_tenants (fun d hd => ?_) hs.settled
    cases hd
    exact ⟨by simp, rfl, rfl, rfl, fun _ => rfl⟩

/-- A capture gives the caller a reference to the variable of the local. -/
theorem Valid.of_captureVariable {slot : Nat} {res : Except OutOfMemory Handle} (hv : h.Valid x)
    (e : (AllocM.captureVariable id slot).run h = .ok (res, h')) :
    (∃ r, res = .ok r ∧ Rests (x.plus [r]) h h') ∨ (∃ err, res = .error err) ∧ GivesUp x h h' := by
  unfold AllocM.captureVariable at e
  obtain ⟨_, _, e₀, e⟩ := AllocM.lift_bind_eq_ok e
  cases e₀
  cases hf : h.frames.get? id with
  | none =>
    rw [hf] at e
    exact (AllocM.fault_eq_ok e).elim
  | some f =>
    rw [hf] at e
    dsimp only at e
    split at e
    · cases hfind : f.openVariables.find? (h.isAttachedTo slot) with
      | some r =>
        rw [hfind] at e
        obtain ⟨_, h₁, e₁, e⟩ := AllocM.lift_bind_eq_ok e
        obtain ⟨rfl, rfl⟩ := AllocM.pure_eq_ok e
        obtain ⟨hs₁, hk, _⟩ := hv.sound.retain e₁
        exact .inl ⟨r, rfl, hv.rests ⟨hs₁, hk⟩⟩
      | none =>
        rw [hfind] at e
        rcases AllocM.bind_eq_ok e with ⟨p, h₁, e₁, e⟩ | ⟨err, e₁, rfl⟩
        · obtain ⟨hk, ⟨_, hres, hsize, hs₁⟩ | ⟨⟨_, he⟩, _⟩⟩ := hv.sound.of_reserve e₁
          · cases hres
            rw [AllocM.get_bind] at e
            split at e
            · rcases AllocM.bind_eq_ok e with ⟨_, _, hf, _⟩ | ⟨_, hf, _⟩ <;> cases hf
            · rename_i hlive
              obtain ⟨r, h₂, e₂, e⟩ := AllocM.lift_bind_eq_ok e
              rw [AllocM.modify_bind] at e
              obtain ⟨rfl, rfl⟩ := AllocM.pure_eq_ok e
              obtain ⟨f₁, hf₁⟩ : ∃ f₁, h₁.frames.get? id = some f₁ :=
                Option.ne_none_iff_exists'.mp (by simpa [isFrameLive] using hlive)
              rw [Nat.zero_add, ← hsize] at hs₁
              obtain ⟨hm, hs'⟩ := hs₁.capture hf₁ e₂
              have hun := Unedited.trans (.of_keeps hk) (.of_others hm.body (fun _ _ => hm.body_other) rfl)
              exact .inl ⟨r, rfl, hv.rests_of_unedited hs' (hun.trans (.of_keeps (.of_slots rfl)))⟩
          · cases he
        · obtain ⟨hk, ⟨_, hres, _⟩ | ⟨_, hs₁⟩⟩ := hv.sound.of_reserve e₁
          · cases hres
          · exact .inr ⟨⟨err, rfl⟩, hv.givesUp ⟨hs₁, hk⟩ fun hq => (hq.unchanged_of_reserve e₁).agree x⟩
    · exact (AllocM.fault_eq_ok e).elim

/-! ## Popping a frame -/

/-- A frame that is being popped is off the table; the ledger has what is left of its locals, and the
variables of `rest` are still attached to it. -/
structure Popping (x : Ledger) (n : Nat) (id : FrameId) (locals : Array Value) (rest : List Handle)
    (h₀ h : Heap) : Prop where
  counted : h.Counted (x.plus (locals.toList.filterMap Value.ref?))
  names : h.Names (locals.toList.filterMap Value.typedRef?)
  tidy : h.frames.Tidy
  gone : h.frames.get? id = none
  listed : ∀ r j, h.frameOf? r = some j →
    j = id ∧ r ∈ rest ∨ ∃ f, h.frames.get? j = some f ∧ r ∈ f.openVariables.toList
  nodup : ∀ j f, h.frames.get? j = some f → f.openVariables.toList.Nodup
  attached : ∀ j f, h.frames.get? j = some f → ∀ r ∈ f.openVariables.toList, h.frameOf? r = some j
  left : ∀ r ∈ rest, h.frameOf? r = some id
  distinct : rest.Nodup
  tabled : h.Tabled
  accounted : h.Accounted n
  rested : ∀ r c, h.cell? r = some c → c.body.Rested
  idle : h.phase = .idle
  noneWaiting : h.zeroRefs.toList = []
  settled : ∀ i c, h.tenant? i = some c → c.Settled
  unedited : Unedited h₀ h

namespace Popping

variable {h₀ : Heap} {locals locals' : Array Value} {rest : List Handle}

/-- Taking the frame off the table hands its locals to the ledger. -/
theorem start (hv : h.Valid x) (hf : h.frames.get? id = some f) :
    Popping x f.size id f.locals f.openVariables.toList h { h with frames := h.frames.pop id.index } := by
  have hx := hv.sound.coherent
  have hget : ∀ j g, (h.frames.pop id.index).get? j = some g → h.frames.get? j = some g ∧ j ≠ id := by
    intro j g hg
    rw [FrameTable.get?_pop] at hg
    split at hg
    · cases hg
    · rename_i hj
      exact ⟨hg, fun hid => hj (by rw [hid])⟩
  refine ⟨?_, hx.counted.locals id f hf, hx.bound.tidy.pop hf, ?_, fun r j hr => ?_, fun j g hg => ?_,
    fun j g hg r hr => ?_, hx.bound.attached id f hf, hx.bound.nodup id f hf,
    hx.tabled.of_same (fun _ => rfl) rfl, ⟨?_, hx.accounted.cells⟩, hx.rested, hv.sound.idle,
    hv.sound.noneWaiting, hv.sound.settled, .of_keeps (.of_slots rfl)⟩
  · refine hx.counted.of_same (.of_slots rfl) (fun r => ?_) (fun r hr => ?_)
      (fun j g hg => hx.counted.locals j g (hget j g hg).1) hx.counted.roots
    · have htotal := FrameTable.total_pop (fun f => f.refs.count r) hf
      unfold heldByFrames
      simp only [Ledger.plus_apply]
      unfold Frame.refs at htotal ⊢
      omega
    · simp only [Ledger.plus_apply] at hr
      by_cases hxr : 0 < x r
      · exact hx.counted.owned r hxr
      · have hmem : r ∈ f.refs := List.count_pos_iff.mp (by unfold Frame.refs; omega)
        obtain ⟨k, hk⟩ := Frame.typed_of_mem_refs hmem
        exact (hx.counted.locals id f hf).contains hk
  · dsimp only
    rw [FrameTable.get?_pop, if_pos rfl]
  · obtain ⟨g, hg, hmem⟩ := hx.bound.listed r j hr
    by_cases hj : id.index = j.index
    · obtain rfl := FrameTable.id_eq_of_get? hf hg hj.symm
      rw [hf] at hg
      cases hg
      exact .inl ⟨rfl, hmem⟩
    · refine .inr ⟨g, ?_, hmem⟩
      dsimp only
      rw [FrameTable.get?_pop, if_neg hj]
      exact hg
  · exact hx.bound.nodup j g (hget j g hg).1
  · exact hx.bound.attached j g (hget j g hg).1 r hr
  · have htotal := FrameTable.total_pop (·.size) hf
    have hused := hx.accounted.used
    change h.used = h.total (·.size) + (h.frames.pop id.index).total (·.size) + f.size
    omega

/-- With no variable left to detach, the heap keeps its books again. -/
theorem finish (hp : Popping x n id locals [] h₀ h) :
    h.Sound (x.plus (locals.toList.filterMap Value.ref?)) n := by
  refine ⟨⟨hp.counted, ⟨hp.tidy, fun r j hr => ?_, hp.nodup, hp.attached⟩, hp.tabled, hp.accounted,
    hp.rested⟩, hp.idle, hp.noneWaiting, hp.settled⟩
  rcases hp.listed r j hr with ⟨_, hmem⟩ | hlisted
  · cases hmem
  · exact hlisted

end Popping

theorem attached_of_frameOf? (hr : h.frameOf? r = some id) :
    ∃ c slot, h.cell? r = some c ∧ c.body = .captured (.attached id slot) := by
  obtain ⟨b, hb, hframe⟩ := Option.bind_eq_some_iff.mp hr
  obtain ⟨c, hc, rfl⟩ := body?_eq_some_iff.mp hb
  refine ⟨c, ?_⟩
  unfold Body.frame? at hframe
  split at hframe
  · rename_i j slot hbody
    cases hframe
    exact ⟨slot, hc, hbody⟩
  · cases hframe

/-- The parts of a heap that detaching a variable leaves. -/
structure SameRest (h h' : Heap) : Prop where
  books : SameBooks h h'
  used : h'.used = h.used
  liveCells : h'.liveCells = h.liveCells
  phase : h'.phase = h.phase
  zeroRefs : h'.zeroRefs = h.zeroRefs

/-- A variable that is detached takes over the value of its local and joins the live list. -/
theorem detach_eq_ok {slot : Nat} {locals locals' : Array Value} (hc : h.cell? r = some c)
    (hb : c.body = .captured (.attached id slot))
    (e : Heap.detach id (h, locals) r = .ok (h', locals')) :
    ∃ v ticket, locals[slot]? = some v ∧ locals' = locals.setIfInBounds slot .undefined ∧
      Updates r (some { c with body := .captured (.detached v), place := .live ticket }) h h' ∧
      SameRest h h' := by
  obtain ⟨⟨h₁, locals₁⟩, e₁, e⟩ := except_bind_eq_ok e
  unfold detachAt at e₁
  dsimp only at e₁
  rw [hc] at e₁
  dsimp only at e₁
  rw [hb] at e₁
  dsimp only at e₁
  cases hv : locals[slot]? with
  | none =>
    rw [hv] at e₁
    cases e₁
  | some v =>
    rw [hv] at e₁
    cases e₁
    obtain ⟨c₁, e₂, e⟩ := except_bind_eq_ok e
    dsimp only at e e₂
    have hu₁ : Updates r (some { c with body := .captured (.detached v) }) h
        (h.modifyBody r.index fun _ => .captured (.detached v)) :=
      .modifyCell hc fun c => { c with body := .captured (.detached v) }
    split at e
    · cases e
    · cases e
      exact ⟨v, _, rfl, rfl, hu₁.trans (.joinLive hu₁.cell_self _), ⟨⟨rfl, rfl, rfl⟩, rfl, rfl, rfl, rfl⟩⟩

namespace Popping

variable {h₀ : Heap} {locals locals' : Array Value} {rest : List Handle}

/-- What a local gives up to its variable is held as before. -/
theorem counted_of_detach {slot : Nat} {v : Value} {ticket : Nat}
    (hp : Popping x n id locals (r :: rest) h₀ h) (hv : locals[slot]? = some v) (hc : h.cell? r = some c)
    (hb : c.body = .captured (.attached id slot))
    (hu : Updates r (some { c with body := .captured (.detached v), place := .live ticket }) h h')
    (hsame : SameBooks h h') :
    h'.Counted (x.plus ((locals.setIfInBounds slot .undefined).toList.filterMap Value.ref?)) := by
  have hmem : v ∈ locals.toList := by
    rw [Array.mem_toList_iff]
    exact Array.mem_of_getElem? hv
  have hcount : ∀ q, ((locals.setIfInBounds slot .undefined).toList.filterMap Value.ref?).count q +
      v.ref?.toList.count q = (locals.toList.filterMap Value.ref?).count q := by
    intro q
    have hset := count_filterMap_set .undefined (by rw [Array.getElem?_toList]; exact hv) q
    rw [Array.toList_setIfInBounds]
    simpa [Value.ref?] using hset
  refine hp.counted.update hu hsame.frames hsame.dropped hc (by rw [hb]; rfl) ?_ ?_ fun q _ => ?_
  · exact fun q hq => hp.names q (mem_filterMap_typedRef?.mpr ⟨v, hmem, hq⟩)
  · have := hcount r
    simp only [hb, Body.refs, Variable.refs, Ledger.plus_apply, List.count_nil]
    omega
  · have := hcount q
    simp only [hb, Body.refs, Variable.refs, Ledger.plus_apply, List.count_nil]
    omega

/-- A local that is cleared refers to nothing, and the others to what they did. -/
theorem names_of_cleared (hn : h.Names (locals.toList.filterMap Value.typedRef?))
    (hkind : ∀ q, h'.kind? q = h.kind? q) (slot : Nat) :
    h'.Names ((locals.setIfInBounds slot .undefined).toList.filterMap Value.typedRef?) := by
  intro q hq
  rw [hkind]
  refine hn q ?_
  obtain ⟨w, hw, hq⟩ := mem_filterMap_typedRef?.mp hq
  rw [Array.toList_setIfInBounds] at hw
  rcases List.mem_or_eq_of_mem_set hw with hw | rfl
  · exact mem_filterMap_typedRef?.mpr ⟨w, hw, hq⟩
  · cases hq

/-- One variable is detached. -/
theorem detach (hp : Popping x n id locals (r :: rest) h₀ h)
    (e : Heap.detach id (h, locals) r = .ok (h', locals')) : Popping x n id locals' rest h₀ h' := by
  have hr := hp.left r (by simp)
  obtain ⟨hnot, hdistinct⟩ := List.nodup_cons.mp hp.distinct
  obtain ⟨c, slot, hc, hb⟩ := attached_of_frameOf? hr
  obtain ⟨v, ticket, hv, rfl, hu, hrest⟩ := detach_eq_ok hc hb e
  have hframes := hrest.books.frames
  have hframe : ∀ q, h'.frameOf? q = if q = r then none else h.frameOf? q := hu.frameOf?_eq
  refine ⟨hp.counted_of_detach hv hc hb hu hrest.books,
    names_of_cleared hp.names (hu.kind? hc (by rw [hb]; rfl)) slot, by rw [hframes]; exact hp.tidy,
    by rw [hframes]; exact hp.gone, fun q j hq => ?_, by rw [hframes]; exact hp.nodup,
    fun j g hg q hq => ?_, fun q hq => ?_, hdistinct,
    hp.tabled.of_same (hu.hashOf? hc (by rw [hb]; rfl)) hrest.books.table,
    hp.accounted.update hu hc (by rw [hframes]) ?_ (congrArg (· + 1) hrest.liveCells),
    hu.forall_cells (fun d hd => ?_) hp.rested, hrest.phase.trans hp.idle,
    by rw [hrest.zeroRefs]; exact hp.noneWaiting, hu.forall_tenants (fun d hd => ?_) hp.settled,
    hp.unedited.trans (.of_others hu.body_self (fun q b' hq hb' => by rw [← hu.body_other hq, hb']) rfl)⟩
  · rw [hframe] at hq
    split at hq
    · cases hq
    · rename_i hqr
      rw [hframes]
      rcases hp.listed q j hq with ⟨hj, hmem⟩ | hlisted
      · exact .inl ⟨hj, (List.mem_cons.mp hmem).resolve_left hqr⟩
      · exact .inr hlisted
  · rw [hframes] at hg
    have hq' := hp.attached j g hg q hq
    rw [hframe, if_neg, hq']
    rintro rfl
    rw [hr] at hq'
    cases hq'
    rw [hp.gone] at hg
    cases hg
  · rw [hframe, if_neg]
    · exact hp.left q (List.mem_cons_of_mem _ hq)
    · rintro rfl
      exact hnot hq
  · rw [hrest.used]
    rfl
  · cases hd
    exact Body.rested_of_kind (by simp [Body.kind])
  · cases hd
    have hset := hp.settled _ c (tenant?_of_cell? hc)
    exact ⟨hset.counted, hset.mark, rfl, rfl, fun hf => by cases hf⟩

/-- All variables are detached. -/
theorem detachAll (hp : Popping x n id locals rest h₀ h)
    (e : rest.foldlM (Heap.detach id) (h, locals) = .ok (h', locals')) :
    Popping x n id locals' [] h₀ h' := by
  induction rest generalizing h locals with
  | nil =>
    cases e
    exact hp
  | cons r rest ih =>
    rw [List.foldlM_cons] at e
    obtain ⟨⟨h₁, locals₁⟩, e₁, e⟩ := except_bind_eq_ok e
    exact ih (hp.detach e₁) e

end Popping

/-- Popping a frame gives up the locals that nobody captured. -/
theorem Valid.of_popFrame (hv : h.Valid x) (e : HeapM.popFrame id h = .ok (u, h')) : Rests x h h' := by
  obtain ⟨f, locals, h₁, h₂, hf, hdetach, e₁, e₂⟩ := popFrame_eq_ok e
  have hp := (Popping.start hv hf).detachAll hdetach
  obtain ⟨hs₂, hk₂⟩ := hp.finish.of_freeValues e₁
  have hun := hp.unedited.trans (.of_keeps (hk₂.trans (.of_slots rfl)))
  obtain ⟨hle, rfl⟩ := uncharge_eq_ok e₂
  refine hv.rests_of_unedited (hs₂.of_same (.of_slots rfl) rfl rfl rfl ?_ rfl rfl rfl) hun
  dsimp only
  omega

/-! ## Roots -/

theorem Valid.of_root {a : Root} (hv : h.Valid x) (e : HeapM.root r h = .ok (a, h')) :
    a = ⟨r⟩ ∧ Rests x h h' := by
  unfold HeapM.root at e
  rw [HeapM.get_bind] at e
  split at e
  · obtain ⟨rfl, rfl⟩ := HeapM.pure_eq_ok e
    exact ⟨rfl, hv.rests_refl⟩
  · cases e

theorem Valid.of_cloneRoot {a b : Root} (hv : h.Valid x) (e : HeapM.cloneRoot a h = .ok (b, h')) :
    b = a ∧ Rests (x.plus [a.handle]) h h' := by
  obtain ⟨_, h₁, e₁, e⟩ := HeapM.bind_eq_ok e
  obtain ⟨hs₁, hk, _⟩ := hv.sound.retain e₁
  have hl₁ := hv.rests ⟨hs₁, hk⟩
  obtain ⟨hb, hl⟩ := hl₁.valid.of_root e
  exact ⟨hb, hl₁.trans hl⟩

/-- The reference of a dropped root passes from the ledger to the queue. -/
theorem Valid.of_dropRoot {a : Root} (hv : h.Valid (x.plus [a.handle]))
    (e : HeapM.dropRoot a h = .ok (u, h')) : Rests x h h' := by
  cases HeapM.modify_eq_ok e
  have hx := hv.sound.coherent
  refine hv.rests ⟨⟨⟨?_, hx.bound.of_same (fun _ => rfl) rfl, hx.tabled.of_same (fun _ => rfl) rfl,
    ⟨hx.accounted.used, hx.accounted.cells⟩, hx.rested⟩, hv.sound.idle, hv.sound.noneWaiting,
    hv.sound.settled⟩, .of_slots rfl⟩
  refine hx.counted.of_same (.of_slots rfl) (fun q => ?_) (fun q hq => ?_) hx.counted.locals fun q hq => ?_
  · have hframes : ({ h with dropped := h.dropped.push a.handle } : Heap).heldByFrames q =
      h.heldByFrames q := rfl
    simp only [Ledger.plus_apply, Queue.toList_push, hframes, List.count_append]
    omega
  · exact hx.counted.owned q (by simp only [Ledger.plus_apply]; omega)
  · dsimp only at hq
    rw [Queue.toList_push, List.mem_append, List.mem_singleton] at hq
    rcases hq with hq | rfl
    · exact hx.counted.roots q hq
    · exact hx.counted.owned _ (by simp)

end Heap

end ObjectMemory
