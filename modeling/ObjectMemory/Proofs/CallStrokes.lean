import ObjectMemory.Proofs.Operation
import ObjectMemory.Proofs.Shifting
import ObjectMemory.Proofs.Storing
import ObjectMemory.Proofs.Strokes
set_option autoImplicit false

/-!
# The strokes of every operation

Every operation is a run of strokes (`Operation.strokes`), for any arguments and from any heap.  What
makes no cell is one by `HeapM.Shifting`; what is left are the actions that edit a layout, a variable or a
local, and the ones that make a cell.
-/

namespace ObjectMemory

namespace HeapM.Strokes

/-! ## Layouts, variables and locals -/

/-- What makes no cell is a run of strokes. -/
theorem of_shifting {α : Type} {act : HeapM α} (ha : act.Shifting) : Strokes act :=
  fun h a h' e => .of_shifts (ha h a h' e)

theorem modifyShape (r : Handle) (f : Shape → Shape) : Strokes (modifyShape r f) := by
  intro h u h' e
  obtain ⟨_, _, _, _, rfl⟩ := Heap.modifyShape_eq_ok e
  exact .edit h r.index fun _ => rfl

theorem register (r : Handle) : Strokes (register r) := by
  intro h u h' e
  obtain ⟨_, _, _, _, _, rfl⟩ := Heap.register_eq_ok e
  refine .trans (.edit h r.index ?_) (.aside rfl rfl rfl rfl rfl)
  exact fun _ => rfl

theorem unregister (r : Handle) : Strokes (unregister r) := by
  intro h u h' e
  obtain ⟨_, _, _, _, _, _, _, rfl⟩ := Heap.unregister_eq_ok e
  refine .trans (.edit h r.index ?_) (.aside rfl rfl rfl rfl rfl)
  exact fun _ => rfl

theorem setLocal (id : FrameId) (slot : Nat) (v : Value) : Strokes (setLocal id slot v) := by
  refine .get_bind fun h => ?_
  split
  · exact .fault _
  · split
    · exact .fault _
    · exact .bind (.modify fun h => .single (.inside h id.index _)) fun _ => .of_shifting (.freeValue _)

theorem setVariable (r : Handle) (v : Value) : Strokes (setVariable r v) := by
  refine .get_bind fun h => ?_
  split
  · exact .bind (.modify fun h => .edit h r.index fun _ => rfl) fun _ => .of_shifting (.freeValue _)
  · exact .setLocal _ _ v
  · exact .fault _

/-- The frame is there when it is left. -/
theorem popFrame (id : FrameId) : Strokes (popFrame id) := by
  intro h a h' e
  obtain ⟨f, locals, h₁, h₂, hf, hdetach, e₁, e₂⟩ := Heap.popFrame_eq_ok e
  have hpop : h.Strokes { h with frames := h.frames.pop id.index } := .single (.leave hf)
  have hdetached := foldlM_ok_induct
    (P := fun s => Heap.Strokes { h with frames := h.frames.pop id.index } s.1)
    (fun _ _ _ hs hstep => hs.trans (.detach hstep)) (.refl _) hdetach
  have hrest : h₁.Shifts h' :=
    (HeapM.Shifting.freeValues _ _ _ _ e₁).trans (HeapM.Shifting.uncharge _ _ _ _ e₂)
  exact (hpop.trans hdetached).trans (.of_shifts hrest)

end HeapM.Strokes

namespace AllocM

variable {α β : Type}

namespace Strokes

theorem of_shifting {act : AllocM α} (ha : act.Shifting) : Strokes act := HeapM.Strokes.of_shifting ha

/-- An action that makes no cell and cannot run out of memory. -/
theorem shift {act : HeapM α} (ha : act.Shifting) : Strokes (liftM act : AllocM α) := .of_shifting (.lift ha)

theorem guarding (owned : List Handle) {act : AllocM α} (h : Strokes act) : Strokes (guarding owned act) :=
  .tryCatch h fun _ => .bind (.shift (.releaseAll _)) fun _ => .throw _

variable {size : Nat} {arrays : Nat → List Request} {failure : OutOfMemory} {f : Reservation → AllocM β}

theorem reserve_bind (hf : ∀ p, Occupies p (f p)) : Strokes (reserve size arrays failure >>= f) := by
  intro h res h' e
  rcases bind_eq_ok e with ⟨p, h₂, e₁, e₂⟩ | ⟨err, e₁, _⟩
  · rcases reserve_cases e₁ with ⟨_, h₁, hres, hd, ht⟩ | ⟨⟨_, hres⟩, _⟩
    · cases hres
      exact (Heap.Strokes.of_shifts hd).trans (hf p h₁ h₂ res h' ht e₂)
    · cases hres
  · rcases reserve_cases e₁ with ⟨_, _, hres, _⟩ | ⟨_, hd⟩
    · cases hres
    · exact .of_shifts hd

/-- If memory runs out, no slot has been taken when others clean up. -/
theorem tryCatch_reserve_bind {c : OutOfMemory → AllocM Reservation} (hc : ∀ err, Strokes (c err))
    (hthrow : ∀ err p h h', (c err).run h ≠ .ok (.ok p, h')) (hf : ∀ p, Occupies p (f p)) :
    Strokes (MonadExcept.tryCatch (reserve size arrays failure) c >>= f) := by
  intro h res h' e
  rcases bind_eq_ok e with ⟨p, h₂, e₁, e₂⟩ | ⟨err, e₁, _⟩
  · rcases tryCatch_eq_ok e₁ with ⟨_, e₁, hres⟩ | ⟨_, _, _, e₁⟩
    · cases hres
      exact reserve_bind hf h res h' (by rw [AllocM.bind_apply, e₁]; exact e₂)
    · exact absurd e₁ (hthrow _ _ _ _)
  · rcases tryCatch_eq_ok e₁ with ⟨_, _, hres⟩ | ⟨err, h₁, e₁, e₂⟩
    · cases hres
    · rcases reserve_cases e₁ with ⟨_, _, hres, _⟩ | ⟨_, hd⟩
      · cases hres
      · exact (Heap.Strokes.of_shifts hd).trans (hc err h₁ _ h' e₂)

/-- What gives references up and fails again does not succeed. -/
theorem releaseAll_throw_ne_ok (owned : List Handle) (err : OutOfMemory) (a : α) (h h' : Heap) :
    ((liftM (HeapM.releaseAll owned) : AllocM Unit) >>= fun _ => (MonadExcept.throw err : AllocM α)).run h ≠
      .ok (.ok a, h') := by
  intro e
  obtain ⟨_, _, _, e⟩ := lift_bind_eq_ok e
  cases e

theorem reserveOr_bind {owned : List Handle} (hf : ∀ p, Occupies p (f p)) :
    Strokes (reserveOr size owned arrays >>= f) :=
  tryCatch_reserve_bind (fun _ => .bind (.shift (.releaseAll owned)) fun _ => .throw _)
    (fun _ _ _ _ => releaseAll_throw_ne_ok owned _ _ _ _) hf

theorem guarding_reserve_bind {owned : List Handle} (hf : ∀ p, Occupies p (f p)) :
    Strokes (AllocM.guarding owned (reserve size arrays failure) >>= f) :=
  tryCatch_reserve_bind (fun _ => .bind (.shift (.releaseAll _)) fun _ => .throw _)
    (fun _ _ _ _ => releaseAll_throw_ne_ok _ _ _ _ _) hf

/-! ## Shapes -/

theorem newShape (proto : Option Handle) : Strokes (newShape proto) := by
  refine .reserve_bind fun p => ?_
  have hmake : Occupies p ((liftM (HeapM.retainOption proto) : AllocM Unit) >>= fun _ =>
      (liftM (HeapM.install p (.shape (.initial proto)) true) : AllocM Handle)) := .retain_install proto
  have h := hmake.bind (f := fun r => do HeapM.register r; return r) fun r =>
    .bind (.lift (.register r)) fun _ => .pure r
  simpa only [bind_assoc] using h

theorem shapeForNewObject (proto : Option Handle) : Strokes (shapeForNewObject proto) := by
  refine .get_bind fun h => ?_
  split
  · exact .bind (.shift (.retain _)) fun _ => .pure _
  · exact .newShape proto

theorem cloneShape (r : Handle) : Strokes (cloneShape r) :=
  .bind (.shift (.shape r)) fun _ => .reserve_bind fun _ => .shape_bind fun s => .retain_install s.proto

theorem growShape (r : Handle) (count : Nat) : Strokes (growShape r count) :=
  .bind (.shift (.shape r)) fun _ => .bind (.of_shifting (.growCell r _ _)) fun _ => .lift (.modifyShape r _)

theorem extendShape (r : Handle) (atom : Atom) (flags : Flags) : Strokes (extendShape r atom flags) := by
  refine .bind (.shift (.shape r)) fun s => ?_
  have hpush : Strokes ((liftM (HeapM.modifyShape r (·.push atom flags)) : AllocM Unit) >>= fun _ =>
      Pure.pure s.entries.size) := .bind (.lift (.modifyShape r _)) fun _ => .pure _
  dsimp only
  generalize s.isHashed = hashed
  cases hashed with
  | false =>
    simp only [Bool.false_eq_true, if_false]
    split
    · exact .bind (.tryCatch (.growShape r _) fun _ => .throw _) fun _ => hpush
    · exact hpush
  | true =>
    simp only [if_true]
    have hback : Strokes ((liftM (HeapM.modifyShape r fun t =>
        { t with hash := Shape.transitionHash s.hash atom flags }) : AllocM Unit) >>= fun _ =>
        (liftM (HeapM.register r) : AllocM Unit) >>= fun _ =>
        (liftM (HeapM.modifyShape r (·.push atom flags)) : AllocM Unit) >>= fun _ =>
        Pure.pure s.entries.size) :=
      .bind (.lift (.modifyShape r _)) fun _ => .bind (.lift (.register r)) fun _ => hpush
    refine .bind (.lift (.unregister r)) fun _ => ?_
    split
    · exact .bind (.tryCatch (.growShape r _) fun _ => .bind (.lift (.register r)) fun _ => .throw _)
        fun _ => hback
    · exact hback

theorem addProperty (r : Handle) (atom : Atom) (flags : Flags) : Strokes (addProperty r atom flags) := by
  refine .bind (.shift (.shape r)) fun s => .get_bind fun h => ?_
  dsimp only
  generalize (if s.isHashed = true then h.sharedTransition? s atom flags else none) = found
  cases found with
  | some next =>
    exact .bind (.shift (.retain next)) fun _ => .bind (.shift (.release r)) fun _ =>
      .bind (.shift (.shape next)) fun _ => .pure _
  | none =>
    refine .get_bind fun h => ?_
    split
    · refine .bind (.cloneShape r) fun clone => .bind ?_ fun index => ?_
      · exact .tryCatch (.extendShape clone atom flags) fun _ =>
          .bind (.shift (.release clone)) fun _ => .throw _
      · refine .bind (.shift (.release r)) fun _ => ?_
        split
        · exact .bind (.lift (.modifyShape clone _)) fun _ =>
            .bind (.lift (.register clone)) fun _ => .pure _
        · exact .pure _
    · exact .bind (.extendShape r atom flags) fun _ => .pure _

theorem prepareUpdate (r : Handle) : Strokes (prepareUpdate r) := by
  refine .get_bind fun h => ?_
  split
  · exact .bind (.cloneShape r) fun clone => .bind (.shift (.release r)) fun _ =>
      .bind (.lift (.modifyShape clone _)) fun _ => .pure _
  · refine .bind (.shift (.shape r)) fun s => ?_
    dsimp only
    split
    · exact .bind (.lift (.unregister r)) fun _ => .bind (.lift (.modifyShape r _)) fun _ => .pure _
    · exact .bind (.lift (.modifyShape r _)) fun _ => .pure _

/-! ## Objects -/

theorem newObjectFromShape (shape : Handle) (payload : Payload) :
    Strokes (newObjectFromShape shape payload) :=
  .bind (.shift (.shape shape)) fun _ => .reserveOr_bind fun _ => .install

theorem newObject (proto : Option Handle) : Strokes (newObject proto) :=
  .bind (.shapeForNewObject proto) fun shape => .newObjectFromShape shape .ordinary

theorem ownShape (r : Handle) : Strokes (ownShape r) := by
  refine .bind (.shift (.objectShape r)) fun old => .bind ?_ fun shape =>
    .bind (.shift (.setShape r shape)) fun _ => .pure shape
  exact .tryCatch (.prepareUpdate old) fun _ => .bind (.shift (.setShape r old)) fun _ => .throw _

theorem reserveProperty (r : Handle) : Strokes (reserveProperty r) := by
  refine .bind (.shift (.object r)) fun o => ?_
  dsimp only
  split
  · exact .bind (.of_shifting (.growCell r _ _)) fun _ => .shift (.modifyObject r _)
  · exact .pure ()

theorem appendProperty (r : Handle) (atom : Atom) (flags : Flags) (p : Property) :
    Strokes (appendProperty r atom flags p) := by
  refine .bind ?_ fun _ => .bind (.shift (.objectShape r)) fun old => .bind ?_ fun q =>
    .bind (.shift (.setShape r q.1)) fun _ => .bind (.shift (.modifyObject r _)) fun _ =>
      .bind (.shift (.object r)) fun o => ?_
  · exact .tryCatch (.reserveProperty r) fun _ => .bind (.shift (.releaseProperty p)) fun _ => .throw _
  · exact .tryCatch (.addProperty old atom flags) fun _ =>
      .bind (.shift (.setShape r old)) fun _ => .bind (.shift (.releaseProperty p)) fun _ => .throw _
  · split
    · exact .lift (.fault _)
    · exact .pure ()

theorem defineOwn (r : Handle) (atom : Atom) (flags : Flags) (p : Property) :
    Strokes (defineOwn r atom flags p) := by
  refine .bind (.shift (.objectShape r)) fun shape => .get_bind fun h => ?_
  split
  · rename_i index oldFlags _
    have hreplace : Strokes ((do
        let old ← HeapM.replaceProperty r index p
        HeapM.releaseProperty old
        return true) : AllocM Bool) :=
      .bind (.shift (.replaceProperty r index p)) fun old =>
        .bind (.shift (.releaseProperty old)) fun _ => .pure true
    dsimp only
    split
    · refine .bind ?_ fun shape => .bind (.lift (.modifyShape shape _)) fun _ => hreplace
      exact .tryCatch (.ownShape r) fun _ => .bind (.shift (.releaseProperty p)) fun _ => .throw _
    · exact hreplace
  · refine .bind (.shift (.object r)) fun o => ?_
    split
    · exact .bind (.appendProperty r atom flags p) fun _ => .pure true
    · exact .bind (.shift (.releaseProperty p)) fun _ => .pure false

theorem defineAccessor (r : Handle) (atom : Atom) (flags : Flags) (getter setter : Option Handle) :
    Strokes (defineAccessor r atom flags getter setter) :=
  .bind (.shift (.retainOption getter)) fun _ => .bind (.shift (.retainOption setter)) fun _ =>
    .defineOwn r atom _ _

theorem setProperty (r : Handle) (atom : Atom) (v : Value) : Strokes (setProperty r atom v) := by
  refine .get_bind fun h => ?_
  split
  · rename_i index flags _
    split
    · exact .bind (.shift (.freeValue v)) fun _ => .pure false
    · split
      · refine .bind (.shift (.object r)) fun o => ?_
        split
        · exact .lift (.fault _)
        · exact .bind (.lift (.setVariable _ v)) fun _ => .pure true
        · exact .lift (.fault _)
      · exact .bind (.shift (.writeSlot r index v)) fun _ => .pure true
  · exact .defineOwn r atom _ _

theorem compactProperties (r : Handle) : Strokes (compactProperties r) := by
  refine .bind (.ownShape r) fun shape => .bind (.shift (.shape shape)) fun s =>
    .bind (.shift (.object r)) fun o => .bind (.of_shifting (.ask _ (.pure ()) _)) fun _ => ?_
  split
  · exact .lift (.fault _)
  · exact .bind (.lift (.modifyShape shape _)) fun _ => .bind (.shift (.modifyObject r _)) fun _ =>
      .bind (.shift (.unchargeCell shape _)) fun _ => .shift (.unchargeCell r _)

theorem deleteProperty (r : Handle) (atom : Atom) : Strokes (deleteProperty r atom) := by
  refine .get_bind fun h => ?_
  split
  · exact .pure true
  · rename_i index flags _
    split
    · exact .pure false
    · refine .bind (.ownShape r) fun shape => .bind (.shift (.shape shape)) fun s => ?_
      dsimp only
      split
      · exact .fault_bind _ _
      · refine .bind (.lift (.modifyShape shape _)) fun _ => .bind (.shift (.shape shape)) fun s =>
          .bind (.shift (.replaceProperty r index _)) fun old =>
            .bind (.shift (.releaseProperty old)) fun _ => ?_
        split
        · exact .bind (.tryCatch (.compactProperties r) fun _ => .pure ()) fun _ => .pure true
        · exact .pure true

theorem setPrototype (r : Handle) (proto : Option Handle) : Strokes (setPrototype r proto) := by
  refine .get_bind fun h => ?_
  split
  · exact .pure false
  · refine .bind (.shift (.objectShape r)) fun old => .bind (.shift (.shape old)) fun s => ?_
    split
    · exact .pure true
    · exact .bind (.ownShape r) fun shape => .bind (.shift (.retainOption proto)) fun _ =>
        .bind (.shift (.shape shape)) fun s => .bind (.lift (.modifyShape shape _)) fun _ =>
          .bind (.shift (.releaseAll _)) fun _ => .pure true

/-! ## Arrays, functions, realms and frames -/

theorem newArray (ctx : Handle) : Strokes (newArray ctx) :=
  .bind (.lift (.read _)) fun _ => .bind (.shift (.retain _)) fun _ =>
    .bind (.newObjectFromShape _ _) fun r => .bind (.shift (.setLength r 0)) fun _ => .pure r

/-- The last steps of a push. -/
theorem pushElement (r : Handle) (v : Value) (size : Nat) : Strokes (do
    HeapM.modifyObject r fun o => { o with
      payload := match o.payload with
        | .array elements capacity => .array (elements.push v) capacity
        | p => p }
    HeapM.setLength r (size + 1) : AllocM Unit) :=
  .bind (.shift (.modifyObject r _)) fun _ => .shift (.setLength r _)

theorem arrayPush (r : Handle) (v : Value) : Strokes (arrayPush r v) := by
  refine .bind (.shift (.arrayExtent r)) fun extent => ?_
  dsimp only
  split
  · refine .bind ?_ fun _ => .bind (.shift (.modifyObject r _)) fun _ => .pushElement r v extent.1
    exact .tryCatch (.of_shifting (.growCell r _ _)) fun _ => .bind (.shift (.freeValue v)) fun _ => .throw _
  · exact .pushElement r v extent.1

theorem newBytecode (name : Option Atom) (realm : Option Handle) (pool : Array Value) :
    Strokes (newBytecode name realm pool) := .reserveOr_bind fun _ => .retain_install realm

theorem newClosure (proto : Option Handle) (bytecode : Handle) (captured : Array Handle)
    (home : Option Handle) : Strokes (newClosure proto bytecode captured home) := by
  refine .bind (.shift (.retain bytecode)) fun _ => .bind (.shift (.retainOption home)) fun _ =>
    .bind ?_ fun shape => .newObjectFromShape shape _
  exact .tryCatch (.shapeForNewObject proto) fun _ => .bind (.shift (.releaseAll _)) fun _ => .throw _

theorem newSuspension (receiver : Value) (values : Array Value) (resolve reject : Value) :
    Strokes (newSuspension receiver values resolve reject) := .reserveOr_bind fun _ => .install

theorem newRealm : Strokes newRealm :=
  .bind (.newObject none) fun _ => .bind (.guarding _ (.newObject _)) fun _ =>
    .bind (.guarding _ (.newObject _)) fun _ => .bind (.guarding _ (.newObject _)) fun _ =>
      .bind (.guarding _ (.shapeForNewObject _)) fun _ => .bind (.guarding _ (.addProperty _ _ _)) fun _ =>
        .guarding_reserve_bind fun _ => .install

theorem pushFrame (locals : Array Value) : Strokes (pushFrame locals) := by
  refine .bind ?_ fun _ => .lift ?_
  · exact .tryCatch (.of_shifting (.reserveFrame _)) fun _ => .bind (.shift (.freeValues locals)) fun _ => .throw _
  · intro h id h' e
    cases e
    exact .single (.enter h _)

theorem captureVariable (id : FrameId) (slot : Nat) : Strokes (captureVariable id slot) := by
  refine .get_bind fun h => ?_
  split
  · exact .lift (.fault _)
  · split
    · split
      · exact .bind (.shift (.retain _)) fun _ => .pure _
      · refine .reserve_bind fun p => .get_bind fun h => ?_
        dsimp only
        split
        · exact .fault_bind _ _
        · exact .bind .install fun r => .bind (.modify fun h => .single (.inside h id.index _)) fun _ => .pure r
    · exact .lift (.fault _)

theorem newVariable (v : Value) : Strokes (newVariable v) := .reserveOr_bind fun _ => .install

/-! ## Assigning through a cache -/

theorem setRecording (c : InlineCache) (r : Handle) (atom : Atom) (v : Value) :
    Strokes (setRecording c r atom v) := by
  refine .bind (.setProperty r atom v) fun done => ?_
  split
  · refine .get_bind fun h => ?_
    split
    · split
      · exact .pure _
      · exact .pure _
    · exact .pure _
  · exact .pure _

theorem setAnswered (hit? : Option CacheHit) (c : InlineCache) (r : Handle) (atom : Atom) (v : Value) :
    Strokes (setAnswered hit? c r atom v) := by
  unfold AllocM.setAnswered
  split
  · split
    · exact .bind (.shift (.writeSlot r _ v)) fun _ => .pure _
    · exact .setRecording c r atom v
  · exact .setRecording c r atom v

end Strokes

theorem strokes_setCached (c : InlineCache) (r : Handle) (atom : Atom) (v : Value) :
    HeapM.Strokes (setCached c r atom v) := by
  refine .get_bind fun h => ?_
  split
  refine .bind (Strokes.setAnswered _ _ r atom v) fun out => ?_
  split
  · exact .pure _
  · exact .pure _

end AllocM

/-! ## Operations -/

namespace Call

variable {α : Type} {h h' : Heap} {reply : Reply}

theorem strokes_answer {act : HeapM α} {f : α → Reply} (hact : act.Strokes) : HeapM.Strokes (answer act f) :=
  .bind hact fun _ => .pure _

theorem strokes_attempt {act : AllocM α} {f : α → Reply} (hact : act.Strokes) :
    HeapM.Strokes (attempt act f) := by
  refine .bind hact fun out => ?_
  split
  · exact .pure _
  · exact .pure _

theorem strokes (call : Call) : call.perform.Strokes := by
  cases call with
  | retain r => exact strokes_answer (.of_shifting (.retain r))
  | release r => exact strokes_answer (.of_shifting (.release r))
  | dupValue v => exact strokes_answer (.of_shifting (.dupValue v))
  | freeValue v => exact strokes_answer (.of_shifting (.freeValue v))
  | root r => exact strokes_answer (.of_shifting (.root r))
  | cloneRoot x => exact strokes_answer (.of_shifting (.cloneRoot x))
  | dropRoot x => exact strokes_answer (.of_shifting (.dropRoot x))
  | flushRoots => exact strokes_answer (.of_shifting .flushRoots)
  | collect => exact strokes_answer (.of_shifting .collect)
  | setMemoryLimit limit => exact strokes_answer (.modify fun h => .aside rfl rfl rfl rfl rfl)
  | setThreshold n => exact strokes_answer (.modify fun h => .aside rfl rfl rfl rfl rfl)
  | setRefused requests => exact strokes_answer (.modify fun h => .aside rfl rfl rfl rfl rfl)
  | shapeForNewObject proto => exact strokes_attempt (.shapeForNewObject proto)
  | addProperty shape atom flags => exact strokes_attempt (.addProperty shape atom flags)
  | prepareUpdate shape => exact strokes_attempt (.prepareUpdate shape)
  | newObject proto => exact strokes_attempt (.newObject proto)
  | newObjectFromShape shape payload => exact strokes_attempt (.newObjectFromShape shape payload)
  | getProperty r atom => exact strokes_answer (.of_shifting (.getProperty r atom))
  | readSlot r offset => exact strokes_answer (.of_shifting (.readSlot r offset))
  | writeSlot r offset v => exact strokes_answer (.of_shifting (.writeSlot r offset v))
  | defineProperty r atom flags v => exact strokes_attempt (.defineOwn r atom _ _)
  | defineAccessor r atom flags getter setter =>
    exact strokes_attempt (.defineAccessor r atom flags getter setter)
  | defineCaptured r atom flags x => exact strokes_attempt (.defineOwn r atom _ _)
  | setProperty r atom v => exact strokes_attempt (.setProperty r atom v)
  | deleteProperty r atom => exact strokes_attempt (.deleteProperty r atom)
  | compactProperties r => exact strokes_attempt (.compactProperties r)
  | setPrototype r proto => exact strokes_attempt (.setPrototype r proto)
  | preventExtensions r => exact strokes_answer (.of_shifting (.preventExtensions r))
  | newArray ctx => exact strokes_attempt (.newArray ctx)
  | arrayPush r v => exact strokes_attempt (.arrayPush r v)
  | newBytecode name realm pool => exact strokes_attempt (.newBytecode name realm pool)
  | newClosure proto bytecode captured home =>
    exact strokes_attempt (.newClosure proto bytecode captured home)
  | newSuspension receiver values resolve reject =>
    exact strokes_attempt (.newSuspension receiver values resolve reject)
  | finishSuspension r => exact strokes_answer (.of_shifting (.finishSuspension r))
  | newRealm => exact strokes_attempt .newRealm
  | pushFrame locals => exact strokes_attempt (.pushFrame locals)
  | getLocal id slot => exact strokes_answer (.of_shifting (.getLocal id slot))
  | setLocal id slot v => exact strokes_answer (.setLocal id slot v)
  | captureVariable id slot => exact strokes_attempt (.captureVariable id slot)
  | popFrame id => exact strokes_answer (.popFrame id)
  | newVariable v => exact strokes_attempt (.newVariable v)
  | getVariable r => exact strokes_answer (.of_shifting (.getVariable r))
  | setVariable r v => exact strokes_answer (.setVariable r v)

end Call

/-- Every operation is a run of strokes. -/
theorem Operation.strokes (op : Operation) {h h' : Heap} {reply : Reply}
    (e : op.perform h = .ok (reply, h')) : h.Strokes h' := by
  cases op with
  | call c => exact c.strokes h reply h' e
  | get cache r atom =>
    obtain ⟨v, cache', e, _⟩ := Operation.get_eq_ok e
    exact .of_shifts (HeapM.Shifting.getCached cache r atom _ _ _ e)
  | set cache r atom v =>
    obtain ⟨res, cache', e, _⟩ := Operation.set_eq_ok e
    exact AllocM.strokes_setCached cache r atom v _ _ _ e

end ObjectMemory
