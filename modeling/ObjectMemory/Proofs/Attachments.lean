import ObjectMemory.Proofs.Seating
set_option autoImplicit false

/-!
# Attached variables and their frames

Between operations a variable and the frame it is attached to know each other (`Heap.Attachments`): the
frame is alive, has the local, and lists the variable once; all that it lists are variables attached to it,
no two of them at one local; and the collector walks a variable just if it is detached.

That is so in every heap a client comes to (`Client.Reached.attachments`), and therefore no operation
discovers that it is not (`Client.attached_variables_seated`).
-/

namespace ObjectMemory

namespace Heap

variable {h : Heap} {x : Ledger} {r : Handle} {id : FrameId}

/-- Attached variables and frames know each other. -/
structure Attachments (h : Heap) : Prop where
  /-- an attached variable is at a local of a live frame, which lists it once -/
  listed : ∀ r id slot, h.captured? r = some (.attached id slot) →
    ∃ f, h.frames.get? id = some f ∧ slot < f.locals.size ∧ f.openVariables.toList.count r = 1
  /-- what a frame lists is attached to it -/
  attached : ∀ id f r, h.frames.get? id = some f → r ∈ f.openVariables →
    ∃ slot, h.captured? r = some (.attached id slot)
  /-- no two variables that a frame lists are at one local -/
  apart : ∀ id f r q slot, h.frames.get? id = some f → r ∈ f.openVariables → q ∈ f.openVariables →
    h.captured? r = some (.attached id slot) → h.captured? q = some (.attached id slot) → r = q
  /-- a variable is on the live list just if it is detached -/
  live : ∀ r v, h.captured? r = some v → (r.index ∈ h.liveOrder ↔ ∃ w, v = .detached w)

theorem Valid.attachments (hv : h.Valid x) (hs : h.Seated) : h.Attachments := by
  have hb := hv.sound.coherent.bound
  refine ⟨fun r id slot hr => ?_, fun id f r hf hmem => ?_, fun id f r q slot _ _ _ => hs.single r q id slot,
    fun r v hr => ?_⟩
  · obtain ⟨f, hf, hmem⟩ := hb.listed r id (frameOf?_of_attached hr)
    obtain ⟨g, hg, hlt⟩ := hs.frame hr
    rw [hf] at hg
    cases hg
    exact ⟨f, hf, hlt, List.count_eq_one_of_mem (hb.nodup id f hf) hmem⟩
  · obtain ⟨c, slot, hc, hbody⟩ :=
      attached_of_frameOf? (hb.attached id f hf r (Array.mem_toList_iff.mpr hmem))
    exact ⟨slot, captured?_eq_some_iff.mpr ⟨c, hc, hbody⟩⟩
  · obtain ⟨c, hc, hbody⟩ := captured?_eq_some_iff.mp hr
    rw [hv.sound.tracks.mem_iff, tenant?_of_cell? hc]
    cases v with
    | attached id slot => simp [hbody, Body.frame?]
    | detached w => simp [hbody, Body.frame?]

end Heap

namespace Client

open Heap

variable {allowed : Operation → Prop} {config : Config} {h : Heap} {x : Ledger}

theorem Reached.attachments (hr : Reached allowed config h x) : h.Attachments := by
  obtain ⟨lost, _, hv⟩ := hr.valid
  exact hv.attachments hr.kept.2

/-- In every heap a client comes to, attached variables and frames know each other.  So no operation,
whatever it is given and whatever is freed on the way, finds a variable attached to a frame that is gone,
or a variable that its frame lists and that is stale or detached; no operation misses a frame but an
assignment to a local of one that was popped; and every live frame can be popped. -/
theorem attached_variables_seated (hr : Reached allowed config h x) :
    h.Attachments ∧
    (∀ op err, Operation.perform op h = .error err →
      (∀ r id, err ≠ .variableOfDeadFrame r id) ∧ (∀ r id, err ≠ .openVariableStale r id) ∧
      (∀ r id, err ≠ .openVariableDetached r id) ∧
      ∀ id, err = .frameDead id → h.isFrameLive id = false ∧ ∃ slot v, op = .call (.setLocal id slot v)) ∧
    ∀ id, h.isFrameLive id = true → ∃ h', (Call.popFrame id).perform h = .ok (.done, h') := by
  obtain ⟨lost, _, hv⟩ := hr.valid
  have hs := hr.kept.2
  refine ⟨hr.attachments, fun op err e => ?_, fun id hlive => ?_⟩
  · have hdangling := hv.frame_gone_of_dangling hs op e
    have hframe : err.isDangling = true → ∃ id, err = .frameDead id := by
      intro herr
      obtain ⟨id, _, _, _, hid, _⟩ := hdangling herr
      exact ⟨id, hid⟩
    refine ⟨?_, ?_, ?_, ?_⟩
    · rintro r id rfl
      obtain ⟨_, hid⟩ := hframe rfl
      cases hid
    · rintro r id rfl
      obtain ⟨_, hid⟩ := hframe rfl
      cases hid
    · rintro r id rfl
      obtain ⟨_, hid⟩ := hframe rfl
      cases hid
    · rintro id rfl
      obtain ⟨_, slot, v, hop, hid, hgone⟩ := hdangling rfl
      cases hid
      exact ⟨by rw [isFrameLive, hgone]; rfl, slot, v, hop⟩
  · obtain ⟨h', e⟩ := hv.exists_popFrame hs hlive
    exact ⟨h', by rw [Call.perform, Call.answer, HeapM.bind_apply, e]; rfl⟩

/-- Both locals of a frame are captured, the second first, and then the second again: the frame has two
variables, neither is on the live list, and the frame can be popped. -/
theorem attached_variables_seated_captured : ∃ h x f, Reached (fun _ => True) .default h x ∧
    h.frames.get? ⟨0, 0⟩ = some f ∧ f.openVariables = #[⟨0, 0⟩, ⟨1, 0⟩] ∧
    h.captured? ⟨0, 0⟩ = some (.attached ⟨0, 0⟩ 1) ∧ h.captured? ⟨1, 0⟩ = some (.attached ⟨0, 0⟩ 0) ∧
    f.openVariables.toList.count ⟨0, 0⟩ = 1 ∧ 0 ∉ h.liveOrder ∧ 1 ∉ h.liveOrder ∧
    ∃ h', (Call.popFrame ⟨0, 0⟩).perform h = .ok (.done, h') := by
  obtain ⟨h₁, e₁, hrest⟩ := ok_of_answers
    (x := (Call.pushFrame #[.smi 1, .smi 2]).perform (.new .default)) (a := .frame ⟨0, 0⟩)
    (t := fun h => answers ((Call.captureVariable ⟨0, 0⟩ 1).perform h) (.handle ⟨0, 0⟩) fun h =>
      answers ((Call.captureVariable ⟨0, 0⟩ 0).perform h) (.handle ⟨1, 0⟩) fun h =>
        answers ((Call.captureVariable ⟨0, 0⟩ 1).perform h) (.handle ⟨0, 0⟩) fun h =>
          decide (h.captured? ⟨0, 0⟩ = some (.attached ⟨0, 0⟩ 1) ∧
            h.captured? ⟨1, 0⟩ = some (.attached ⟨0, 0⟩ 0) ∧
            ∃ f ∈ h.frames.get? ⟨0, 0⟩, f.openVariables = #[⟨0, 0⟩, ⟨1, 0⟩]))
    (by decide +kernel)
  obtain ⟨h₂, e₂, hrest⟩ := ok_of_answers hrest
  obtain ⟨h₃, e₃, hrest⟩ := ok_of_answers hrest
  obtain ⟨h₄, e₄, hlast⟩ := ok_of_answers hrest
  obtain ⟨hsecond, hfirst, f, hf, hopen⟩ := of_decide_eq_true hlast
  have hstart : Reached (fun _ => True) .default (.new .default) .empty := .start
  have hr₁ := hstart.next (.call (.pushFrame #[.smi 1, .smi 2])) trivial (.of_nothing rfl rfl) e₁
  have hr₂ := hr₁.next (.call (.captureVariable ⟨0, 0⟩ 1)) trivial (.of_nothing rfl rfl) e₂
  have hr₃ := hr₂.next (.call (.captureVariable ⟨0, 0⟩ 0)) trivial (.of_nothing rfl rfl) e₃
  have hr₄ := hr₃.next (.call (.captureVariable ⟨0, 0⟩ 1)) trivial (.of_nothing rfl rfl) e₄
  obtain ⟨hatt, _, hpop⟩ := attached_variables_seated hr₄
  obtain ⟨g, hg, _, hcount⟩ := hatt.listed _ _ _ hsecond
  rw [Option.mem_def.mp hf] at hg
  cases hg
  refine ⟨h₄, _, f, hr₄, hf, hopen, hsecond, hfirst, hcount, fun hlive => ?_, fun hlive => ?_,
    hpop _ (by rw [isFrameLive, Option.mem_def.mp hf]; rfl)⟩
  · obtain ⟨_, hw⟩ := (hatt.live _ _ hsecond).mp hlive
    cases hw
  · obtain ⟨_, hw⟩ := (hatt.live _ _ hfirst).mp hlive
    cases hw

end Client

end ObjectMemory
