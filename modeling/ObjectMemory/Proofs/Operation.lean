import ObjectMemory.Proofs.CallHistory
import ObjectMemory.InlineCache.Access
set_option autoImplicit false

/-!
# Operations

What a program can do to a heap: a call, or an access to a property through a cache.  The cache is an
argument like any other, and nothing is asked of it: a run that uses caches is one run of the heap,
whatever the caches were told before.
-/

namespace ObjectMemory

/-! ## The history of cached assignment -/

namespace AllocM

theorem tracks_setRecording (c : InlineCache) (r : Handle) (atom : Atom) (v : Value) :
    Tracks 1 (setRecording c r atom v) := by
  refine .andThen (n := 1) (m := 0) (tracks_setProperty r atom v) fun done => ?_
  split
  · refine .get_bind fun h => ?_
    split
    · split
      · exact .pure _
      · exact .pure _
    · exact .pure _
  · exact .pure _

theorem tracks_setAnswered (hit? : Option CacheHit) (c : InlineCache) (r : Handle) (atom : Atom)
    (v : Value) : Tracks 1 (setAnswered hit? c r atom v) := by
  unfold setAnswered
  split
  · split
    · exact .bind (.shift (.writeSlot r _ v)) fun _ => .pure _
    · exact tracks_setRecording c r atom v
  · exact tracks_setRecording c r atom v

theorem tracks_setCached (c : InlineCache) (r : Handle) (atom : Atom) (v : Value) :
    HeapM.Tracks 1 (setCached c r atom v) := by
  refine .get_bind fun h => ?_
  split
  intro h a h' e
  obtain ⟨res, h₁, e₁, e₂⟩ := HeapM.bind_eq_ok e
  have hev := tracks_setAnswered _ _ r atom v _ _ _ e₁
  cases res with
  | ok p =>
    obtain ⟨_, rfl⟩ := HeapM.pure_eq_ok e₂
    exact hev
  | error err =>
    obtain ⟨_, rfl⟩ := HeapM.pure_eq_ok e₂
    exact hev

end AllocM

/-- A call, or an access through a cache. -/
inductive Operation where
  | call (call : Call)
  | get (cache : InlineCache) (r : Handle) (atom : Atom)
  | set (cache : InlineCache) (r : Handle) (atom : Atom) (v : Value)

namespace Operation

/-- What an operation does to the heap, and what it answers.  What becomes of the cache is left out. -/
def perform : Operation → HeapM Reply
  | call c => c.perform
  | get cache r atom => do
    let (v, _) ← HeapM.getCached cache r atom
    return .value v
  | set cache r atom v => do
    match ← AllocM.setCached cache r atom v with
    | (.ok done, _) => return .flag done
    | (.error e, _) => return .exhausted e

variable {h h' : Heap} {reply : Reply} {cache : InlineCache} {r : Handle} {atom : Atom} {v : Value}

theorem get_eq_ok (e : (get cache r atom).perform h = .ok (reply, h')) :
    ∃ v cache', HeapM.getCached cache r atom h = .ok ((v, cache'), h') ∧ reply = .value v := by
  obtain ⟨⟨v, cache'⟩, h₁, e₁, e⟩ := HeapM.bind_eq_ok e
  obtain ⟨rfl, rfl⟩ := HeapM.pure_eq_ok e
  exact ⟨v, cache', e₁, rfl⟩

theorem set_eq_ok (e : (set cache r atom v).perform h = .ok (reply, h')) :
    ∃ res cache', AllocM.setCached cache r atom v h = .ok ((res, cache'), h') ∧
      ((∃ done, res = .ok done ∧ reply = .flag done) ∨
        ∃ err, res = .error err ∧ reply = .exhausted err) := by
  obtain ⟨⟨res, cache'⟩, h₁, e₁, e⟩ := HeapM.bind_eq_ok e
  cases res with
  | ok done =>
    obtain ⟨rfl, rfl⟩ := HeapM.pure_eq_ok e
    exact ⟨_, cache', e₁, .inl ⟨done, rfl, rfl⟩⟩
  | error err =>
    obtain ⟨rfl, rfl⟩ := HeapM.pure_eq_ok e
    exact ⟨_, cache', e₁, .inr ⟨err, rfl, rfl⟩⟩

/-- Every operation keeps to the history of the heap. -/
theorem evolves (op : Operation) (e : op.perform h = .ok (reply, h')) : h.Evolves 11 h' := by
  cases op with
  | call c => exact c.evolves e
  | get cache r atom =>
    obtain ⟨v, cache', e, _⟩ := get_eq_ok e
    exact (HeapM.Shifting.getCached cache r atom _ _ _ e).evolves.mono (by decide)
  | set cache r atom v =>
    obtain ⟨res, cache', e, _⟩ := set_eq_ok e
    exact (AllocM.tracks_setCached cache r atom v _ _ _ e).mono (by decide)

end Operation

end ObjectMemory
