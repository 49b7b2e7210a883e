import ObjectMemory.Proofs.Charges
import ObjectMemory.Proofs.Operation
import ObjectMemory.Proofs.Storing
set_option autoImplicit false

/-!
# Charging for objects and frames

What the actions on objects, functions, realms and frames do to the accounts.  Most of them leave the room
of every object as it is, so that one lemma about editing an object carries them
(`HeapM.clears_modifyObject`).

A property is added in three steps: the object makes room, its shape is replaced, and the property goes
to the end.  While the shape is replaced, the room just made is kept in what is asked of the object
(`AllocM.clears_appendProperty`).
-/

namespace ObjectMemory

open Heap (Terms Pays)

/-! ## Objects -/

namespace HeapM

variable {strict exact : Prop} {h start : Heap} {objects : Nat → Nat → Object → Prop} {b : Terms} {n : Nat}
  {r : Handle}

theorem clears_object (strict : Prop) (h : Heap) (r : Handle) :
    Clears strict (fun p => h.object? r = some p.1 ∧ p.2 = h) (object r h) := by
  refine clears_read (R := fun o => h.object? r = some o) ?_
  split
  · rename_i o ho
    exact ho
  · exact .fault rfl

/-- An object may be edited as long as its room stays and what is asked of it. -/
theorem clears_modifyObject {f : Object → Object} (hp : h.Pays (.sized strict start exact objects) n)
    (hf : ∀ o, h.object? r = some o → (∀ size, objects r.index size o → objects r.index size (f o)) ∧
      (f o).capacity = o.capacity ∧ (f o).payload.room = o.payload.room) :
    Clears strict (fun p => p.2.Pays (.sized strict start exact objects) n ∧
      ∀ o, h.object? r = some o → p.2.object? r = some (f o)) (modifyObject r f h) := by
  unfold modifyObject
  split
  · rename_i o ho
    obtain ⟨c, hc, hb⟩ := Heap.object?_eq_some_iff.mp ho
    have ht := Heap.tenant?_of_cell? hc
    obtain ⟨hasked, hcapacity, hroom⟩ := hf o ho
    refine ⟨hp.of_modifyCell r.index fun d hd => ?_, fun o' ho' => ?_⟩
    · rw [ht] at hd
      cases hd
      rw [hb]
      refine ⟨rfl, ⟨fun _ h => (by cases h), fun o' ho' => ?_⟩, fun o' ho' => ?_⟩
      · cases ho'
        exact hasked _ ((hp.cells _ c ht).object o hb)
      · cases ho'
        exact ⟨o, hb, hroom, by rw [hcapacity]⟩
    · rw [ho] at ho'
      cases ho'
      have hu : Heap.Updates r _ h (h.modifyObjectAt r.index f) := Heap.Updates.modifyCell hc _
      exact Heap.object?_eq_some_iff.mpr ⟨_, hu.cell_self, by rw [hb]⟩
  · exact .fault rfl

namespace Stays

theorem object (r : Handle) : Stays b (object r) := by
  refine .read fun h => ?_
  split
  · trivial
  · exact .fault rfl

theorem objectShape (r : Handle) : Stays b (objectShape r) := by
  refine .read fun h => ?_
  split
  · trivial
  · exact .fault rfl

/-- An edit of an object that leaves its room and the number of its properties. -/
theorem modifyObject (r : Handle) {f : Object → Object}
    (hf : ∀ o, (f o).capacity = o.capacity ∧ (f o).properties.size = o.properties.size ∧
      (f o).payload.room = o.payload.room) : Stays (.plain strict start exact) (modifyObject r f) := by
  intro n h hp
  refine (clears_modifyObject hp fun o _ => ⟨fun size hs => ?_, (hf o).1, (hf o).2.2⟩).mono fun _ hmod => hmod.1
  obtain ⟨hcapacity, hsize, _⟩ := hf o
  refine ⟨?_, ?_, ?_⟩
  · rw [hcapacity]
    exact hs.bytes
  · rw [hcapacity]
    exact hs.floor
  · rw [hcapacity, hsize]
    exact hs.room

theorem setShape (r shape : Handle) : Stays (.plain strict start exact) (setShape r shape) :=
  .modifyObject r fun _ => ⟨rfl, rfl, rfl⟩

theorem replaceProperty (r : Handle) (i : Nat) (p : Property) :
    Stays (.plain strict start exact) (replaceProperty r i p) := by
  refine .bind (.object r) fun o => ?_
  split
  · exact .fault rfl
  · exact .bind (.modifyObject r fun _ => ⟨rfl, Array.size_setIfInBounds, rfl⟩) fun _ => .pure _

theorem releaseProperty (p : Property) : Stays b (releaseProperty p) := .releaseAll _

theorem getVariable (r : Handle) : Stays b (getVariable r) := by
  refine .bind (.read fun h => ?_) fun v => .dupValue v
  unfold Heap.variableValue
  split
  · trivial
  · split
    · exact .fault rfl
    · split
      · trivial
      · exact .fault rfl
  · exact .fault rfl

theorem setLocal (id : FrameId) (slot : Nat) (v : Value) : Stays b (setLocal id slot v) := by
  refine .get_bind fun h => ?_
  split
  · exact .fault rfl
  · split
    · exact .fault rfl
    · refine .bind (.modify fun _ h hp => hp.of_same rfl ?_ rfl rfl rfl) fun _ => .freeValue _
      exact h.frames.total_modify_same (g := fun f => { f with locals := f.locals.setIfInBounds slot v })
        (fun _ => rfl) id.index

theorem setVariable (r : Handle) (v : Value) : Stays b (setVariable r v) := by
  refine .get_bind fun h => ?_
  split
  · refine .bind (.modify fun _ h hp => ?_) fun _ => .freeValue _
    exact hp.of_modifyBody r.index (fun _ _ => nofun) fun _ _ => nofun
  · exact .setLocal _ _ v
  · exact .fault rfl

theorem readSlot (r : Handle) (offset : Nat) : Stays b (readSlot r offset) := by
  refine .get_bind fun h => ?_
  split
  · exact .pure _
  · split
    · exact .bind (.dupValue _) fun _ => .pure _
    · exact .bind (.getVariable _) fun _ => .pure _
    · exact .pure _
    · exact .pure _

theorem writeSlot (r : Handle) (offset : Nat) (v : Value) :
    Stays (.plain False start exact) (writeSlot r offset v) := by
  refine .bind (.object r) fun o => ?_
  split
  · exact .fault rfl
  · exact .bind (.modifyObject r fun _ => ⟨rfl, Array.size_setIfInBounds, rfl⟩) fun _ => .freeValue _
  · exact .mismatch nofun id

theorem getProperty (r : Handle) (atom : Atom) : Stays b (getProperty r atom) := by
  refine .get_bind fun h => ?_
  split
  · exact .bind (.readSlot _ _) fun _ => .pure _
  · exact .pure _

theorem preventExtensions (r : Handle) : Stays (.plain strict start exact) (preventExtensions r) :=
  .modifyObject r fun _ => ⟨rfl, rfl, rfl⟩

theorem setLength (r : Handle) (k : Nat) : Stays (.plain strict start exact) (setLength r k) := by
  refine .bind (.objectShape r) fun shape => .get_bind fun h => ?_
  split
  · exact .pure ()
  · refine .bind (.object r) fun o => ?_
    split
    · exact .modifyObject r fun _ => ⟨rfl, Array.size_setIfInBounds, rfl⟩
    · exact .fault rfl

theorem finishSuspension (r : Handle) : Stays b (finishSuspension r) := by
  refine .get_bind fun h => ?_
  split
  · exact .fault rfl
  · split
    · refine .bind (.modify fun _ h hp => ?_) fun _ => .bind (.freeValue _) fun _ => .freeValues _
      exact hp.of_modifyBody r.index (fun _ _ => nofun) fun _ _ => nofun
    · exact .pure ()

theorem getLocal (id : FrameId) (slot : Nat) : Stays b (getLocal id slot) := by
  refine .get_bind fun h => ?_
  split
  · exact .pure _
  · exact .bind (.dupValue _) fun _ => .pure _

theorem getRecording (c : InlineCache) (r : Handle) (atom : Atom) : Stays b (getRecording c r atom) := by
  refine .get_bind fun h => ?_
  split
  · exact .pure _
  · exact .bind (.readSlot _ _) fun _ => .pure _

theorem getCached (c : InlineCache) (r : Handle) (atom : Atom) : Stays b (getCached c r atom) := by
  refine .get_bind fun h => ?_
  split
  split
  · exact .getRecording _ r atom
  · refine .bind (.readSlot _ _) fun v => ?_
    split
    · exact .pure _
    · exact .getRecording _ r atom

end Stays

/-! ## Frames -/

theorem pays_detach (id : FrameId) {st : Heap × Array Value} (hp : st.1.Pays b n) (r : Handle) :
    Clears b.strict (fun st' => st'.1.Pays b n) (Heap.detach id st r) := by
  have hmove : Clears b.strict (fun st' => st'.1.Pays b n) (st.1.detachAt id st.2 r) := by
    unfold Heap.detachAt
    split
    · exact .fault rfl
    · split
      · exact .fault rfl
      · split
        · exact .fault rfl
        · exact hp.of_modifyBody r.index (f := fun _ => .captured (.detached _)) (fun _ _ _ => nofun)
            fun _ _ _ => nofun
      · exact hp
  refine hmove.bind fun st₁ hp₁ => (Heap.clears_cellAt b.strict st₁.1 r.index).bind fun c _ => ?_
  dsimp only
  split
  · exact .fault rfl
  · exact hp₁.joinLive r.index c.place

/-- The bytes of a popped frame stay on the account until its locals are given up. -/
theorem Stays.popFrame (id : FrameId) : Stays b (popFrame id) := by
  intro n h hp
  unfold HeapM.popFrame
  rw [HeapM.get_bind]
  cases hf : h.frames.get? id with
  | none => exact .fault rfl
  | some f =>
    refine clears_bind (R := fun p => p.2.Pays b (n + f.size)) ?_ fun _ h₁ hp₁ => ?_
    · refine ⟨?_, hp.count, hp.cells, hp.since.trans (.of_views rfl (.inl (Nat.le_refl _)) (fun _ => rfl)
        fun _ => rfl)⟩
      have hcovered := hp.covered
      have hpop := FrameTable.total_pop (·.size) hf
      change h.total (·.size) + (h.frames.pop id.index).total (·.size) + (n + f.size) ≤ h.used
      omega
    · refine clears_bind (R := fun p => p.2.Pays b (n + f.size)) ?_ fun locals h₂ hp₂ => ?_
      · have hall := Clears.foldlM (P := fun st : Heap × Array Value => st.1.Pays b (n + f.size))
          (fun st r hst => pays_detach id hst r) f.openVariables.toList (s := (h₁, f.locals)) hp₁
        split
        · rename_i e
          exact hall.of_ok e
        · rename_i e
          exact hall.of_error e
      · refine clears_bind (Stays.freeValues locals _ h₂ hp₂) fun _ h₃ hp₃ => ?_
        have hp₃ : h₃.Pays b (n + f.size) := hp₃
        have hcovered := hp₃.covered
        unfold uncharge
        rw [if_neg (by omega)]
        refine ⟨?_, hp₃.count, hp₃.cells, hp₃.since.trans (.of_views rfl (.inl (Nat.sub_le _ _))
          (fun _ => rfl) fun _ => rfl)⟩
        change h₃.total (·.size) + h₃.frames.total (·.size) + n ≤ h₃.used - f.size
        omega

end HeapM

namespace AllocM

open HeapM

variable {strict exact : Prop} {h start : Heap} {b : Terms} {n : Nat} {r : Handle} {atom : Atom}
  {flags : Flags} {p : Property}

/-- The bytes of a frame are charged, or they were refused and nothing is. -/
def Framed (b : Terms) (n : Nat) (locals : Array Value) : Except OutOfMemory Unit × Heap → Prop
  | (.ok _, h) => h.Pays b (n + Size.frameWithLocals locals.size) ∧ h.frames.Tidy
  | (.error _, h) => h.Pays b n

/-- A frame is charged for before it is there. -/
theorem clears_pushFrame (hp : h.Pays b n) (htidy : h.frames.Tidy) (locals : Array Value) :
    Clears b.strict (fun p => p.2.Pays b n) ((pushFrame locals).run h) := by
  refine clears_bind (R := Framed b n locals) ?_ (fun _ h₁ hcharge => ?_) fun _ _ hp₁ => hp₁
  · refine clears_tryCatch (R := Framed b n locals) ?_ (fun _ _ hp₁ => hp₁) fun _ h₁ hp₁ => ?_
    · obtain ⟨hok, hrun⟩ | ⟨err, hrun⟩ := Heap.reserveFrame_cases (Size.frameWithLocals locals.size) h
      · rw [hrun]
        exact ⟨hp.of_charge hok, htidy⟩
      · rw [hrun]
        exact hp
    · exact clears_lift_bind (HeapM.Stays.freeValues locals n h₁ hp₁) fun _ _ hp₂ => hp₂
  · have hp₁ : h₁.Pays b (n + Size.frameWithLocals locals.size) := hcharge.1
    have htidy₁ : h₁.frames.Tidy := hcharge.2
    refine clears_lift ⟨?_, hp₁.count, hp₁.cells, hp₁.since.trans (.of_views rfl (.inl (Nat.le_refl _))
      (fun _ => rfl) fun _ => rfl)⟩
    have hcovered := hp₁.covered
    have hpush := htidy₁.total_push (·.size) ⟨locals, #[], Size.frameWithLocals locals.size⟩
    change h₁.total (·.size) + (h₁.frames.push _).2.total (·.size) + n ≤ h₁.used
    rw [hpush]
    dsimp only
    omega

/-! ## Making cells -/

/-- The last step of making a cell that is neither shape nor object. -/
theorem clears_installOther {q : Reservation} {body : Body} {listed : Bool} (hp : h.Pays b (n + q.size))
    (hs : ∀ s, body ≠ .shape s) (ho : ∀ o, body ≠ .object o) :
    Clears b.strict (fun p => p.2.Pays b n) ((liftM (install q body listed) : AllocM Handle).run h) :=
  clears_lift (hp.install (fun s h => absurd h (hs s)) fun o h => absurd h (ho o))

namespace Stays

theorem captureVariable (id : FrameId) (slot : Nat) : Stays b (captureVariable id slot) := by
  refine .get_bind fun h => ?_
  split
  · exact .fault rfl
  · split
    · split
      · exact .bind (.lift (.retain _)) fun _ => .pure _
      · refine .make (fun _ _ hp => clears_reserve hp _) fun q n h hp _ => ?_
        rw [AllocM.get_bind]
        dsimp only
        split
        · exact clears_fault_bind rfl _
        · refine clears_bind (clears_installOther hp nofun nofun) (fun r h₁ hp₁ => ?_) fun _ _ hp₁ => hp₁
          refine hp₁.of_same rfl ?_ rfl rfl rfl
          exact h₁.frames.total_modify_same
            (g := fun f => { f with openVariables := f.openVariables.push r }) (fun _ => rfl) id.index
    · exact .fault rfl

theorem newVariable (v : Value) : Stays b (newVariable v) :=
  .make (fun _ _ hp => clears_reserveOr hp _ _) fun _ _ _ hp _ => clears_installOther hp nofun nofun

theorem newSuspension (receiver : Value) (values : Array Value) (resolve reject : Value) :
    Stays b (newSuspension receiver values resolve reject) :=
  .make (fun _ _ hp => clears_reserveOr hp _ _) fun _ _ _ hp _ => clears_installOther hp nofun nofun

theorem newBytecode (name : Option Atom) (realm : Option Handle) (pool : Array Value) :
    Stays b (newBytecode name realm pool) := by
  refine .make (fun _ _ hp => clears_reserveOr hp _ _) fun q n h hp _ => ?_
  exact clears_lift_bind (HeapM.Stays.retainOption realm _ h hp) fun _ _ hp₁ =>
    clears_installOther hp₁ nofun nofun

/-- A new object has as much room as its shape, and pays for that. -/
theorem newObjectFromShape (shape : Handle) (payload : Payload) :
    Stays (.plain strict start exact) (newObjectFromShape shape payload) := by
  intro n h hp
  refine clears_lift_bind (clears_shape _ h shape) fun s h₁ hread => ?_
  obtain ⟨hs, rfl⟩ := hread
  obtain ⟨c, hc, hb⟩ := Heap.shape?_eq_some_iff.mp hs
  have hsized : s.Sized exact c.size := (hp.cells _ c (Heap.tenant?_of_cell? hc)).shape s hb
  dsimp only
  refine Stays.make (fun _ _ hp => clears_reserveOr hp _ _) (fun q n h hp hsize => clears_lift ?_) n h₁ hp
  refine hp.install nofun fun o ho => ?_
  cases ho
  rw [hsize]
  refine ⟨⟨Nat.le_refl _, Nat.le_max_right _ _, ?_⟩, rfl⟩
  rw [Array.size_replicate]
  exact Nat.le_trans hsized.room (Nat.le_max_left _ _)

theorem newObject (proto : Option Handle) : Stays (.plain strict start exact) (newObject proto) :=
  .bind (.shapeForNewObject proto) fun shape => .newObjectFromShape shape .ordinary

theorem newClosure (proto : Option Handle) (bytecode : Handle) (captured : Array Handle)
    (home : Option Handle) : Stays (.plain strict start exact) (newClosure proto bytecode captured home) := by
  refine .bind (.lift (.retain bytecode)) fun _ => .bind (.lift (.retainOption home)) fun _ => ?_
  refine .bind ?_ fun shape => .newObjectFromShape shape _
  exact .tryCatch (.shapeForNewObject proto) fun _ => .bind (.lift (.releaseAll _)) fun _ => .throw _

theorem newArray (ctx : Handle) : Stays (.plain strict start exact) (newArray ctx) := by
  have hrealm : HeapM.Stays (.plain strict start exact) (realm ctx) := by
    refine .read fun h => ?_
    split
    · trivial
    · exact .fault rfl
  exact .bind (.lift hrealm) fun x => .bind (.lift (.retain x.arrayShape)) fun _ =>
    .bind (.newObjectFromShape _ _) fun r => .bind (.lift (.setLength r 0)) fun _ => .pure r

theorem guarding {α : Type} (owned : List Handle) {act : AllocM α} (hact : Stays b act) :
    Stays b (guarding owned act) :=
  .tryCatch hact fun _ => .bind (.lift (.releaseAll _)) fun _ => .throw _

theorem newRealm : Stays (.plain strict start exact) newRealm := by
  refine .bind (.newObject none) fun _ => .bind (.guarding _ (.newObject _)) fun _ =>
    .bind (.guarding _ (.newObject _)) fun _ => .bind (.guarding _ (.newObject _)) fun _ =>
      .bind (.guarding _ (.shapeForNewObject _)) fun _ =>
        .bind (.guarding _ (.addProperty _ fun _ => rfl)) fun _ => ?_
  refine .make (fun _ _ hp => show Clears _ (SetsApart _ _ Size.cell) _ from ?_) fun _ _ _ hp _ =>
    clears_installOther hp nofun nofun
  exact clears_tryCatch (clears_reserve hp _) (fun _ _ hp₁ => hp₁) fun _ h₁ hp₁ =>
    clears_lift_bind (HeapM.Stays.releaseAll _ _ h₁ hp₁) fun _ _ hp₂ => hp₂

end Stays

/-! ## Changing objects -/

/-- An object makes room for one more property, and pays for it. -/
theorem clears_reserveProperty (hp : h.Pays (.plain strict start exact) n) (r : Handle) :
    Clears strict (fun p => p.2.Pays (.plain strict start exact) n ∧ (p.1 = .ok () →
      ∃ o, p.2.object? r = some o ∧ o.properties.size < o.capacity)) ((reserveProperty r).run h) := by
  refine clears_lift_bind (clears_object _ h r) fun o h₁ hread => ?_
  obtain ⟨ho, rfl⟩ := hread
  obtain ⟨c, hc, hb⟩ := Heap.object?_eq_some_iff.mp ho
  have ht := Heap.tenant?_of_cell? hc
  dsimp only
  split
  · rename_i hfull
    have hsized : o.Sized c.size := (hp.cells _ c ht).object o hb
    have hfloor : 2 ≤ o.capacity := hsized.floor
    have hgrown : o.capacity ≤ Object.grownCapacity o.properties.size o.capacity := by
      unfold Object.grownCapacity
      omega
    have hroom : o.properties.size < Object.grownCapacity o.properties.size o.capacity :=
      Nat.lt_of_lt_of_le (Nat.lt_succ_self _) (Nat.le_max_left _ _)
    generalize Object.grownCapacity o.properties.size o.capacity = target at hgrown hroom ⊢
    rw [bind_apply]
    obtain ⟨hok, hrun⟩ | ⟨err, hrun⟩ := Heap.growCell_cases ht ((target - o.capacity) * Size.property)
      [.properties r.index target]
    · rw [hrun]
      have hc₂ := (Heap.Updates.modifyCell
        (h := { h₁ with used := h₁.used + (target - o.capacity) * Size.property }) (s := r) hc
        fun c => { c with size := c.size + (target - o.capacity) * Size.property }).cell_self
      have hu := Heap.Updates.modifyObjectAt hc₂ hb fun o => { o with capacity := target }
      refine clears_lift ?_
      unfold modifyObject
      rw [Heap.object?_eq_some_iff.mpr ⟨_, hc₂, hb⟩]
      refine ⟨?_, fun _ => ⟨_, Heap.object?_eq_some_iff.mpr ⟨_, hu.cell_self, rfl⟩, hroom⟩⟩
      unfold Heap.modifyObjectAt Heap.modifyBody
      rw [Heap.modifyCell_modifyCell]
      refine pays_charged hp ht hok rfl ⟨fun t htb => ?_, fun o' ho' => ?_⟩ fun o' ho' => ?_
      · simp [hb] at htb
      · simp only [Function.comp_apply, hb] at ho'
        cases ho'
        refine ⟨?_, Nat.le_trans hsized.floor hgrown, Nat.le_of_lt hroom⟩
        have hbytes := hsized.bytes
        simp only [Function.comp_apply, Size.object, Size.property] at hbytes ⊢
        omega
      · simp only [Function.comp_apply, hb] at ho'
        cases ho'
        refine ⟨o, hb, rfl, ?_⟩
        simp only [Function.comp_apply, Size.object, Size.property]
        omega
    · rw [hrun]
      exact ⟨hp, nofun⟩
  · rename_i hroom
    exact ⟨hp, fun _ => ⟨o, ho, by omega⟩⟩

/-- What is asked of objects while the object under `r` has room for one more property. -/
def withRoom (strict : Prop) (start : Heap) (exact : Prop) (r : Handle) : Terms :=
  .sized strict start exact fun i size o => o.Sized size ∧ (i = r.index → o.properties.size < o.capacity)

theorem plain_of_withRoom (hp : h.Pays (withRoom strict start exact r) n) :
    h.Pays (.plain strict start exact) n :=
  hp.narrow rfl (fun _ _ _ _ _ hs => hs) fun _ _ _ _ _ ho => ho.1

theorem withRoom_of_plain {o : Object} (hp : h.Pays (.plain strict start exact) n) (ho : h.object? r = some o)
    (hroom : o.properties.size < o.capacity) : h.Pays (withRoom strict start exact r) n := by
  refine hp.narrow rfl (fun _ _ _ _ _ hs => hs) fun i c o' hc hb hsized => ⟨hsized, fun hi => ?_⟩
  obtain ⟨d, hd, hdb⟩ := Heap.object?_eq_some_iff.mp ho
  rw [hi, Heap.tenant?_of_cell? hd] at hc
  cases hc
  rw [hdb] at hb
  cases hb
  exact hroom

/-- The property goes where room was made for it. -/
theorem clears_pushProperty (hp : h.Pays (withRoom strict start exact r) n) (p : Property) :
    Clears strict (fun q => q.2.Pays (.plain strict start exact) n)
      (modifyObject r (fun o => { o with properties := o.properties.push p }) h) := by
  refine (clears_modifyObject (f := fun o => { o with properties := o.properties.push p })
    (plain_of_withRoom hp) fun o ho => ⟨fun size hsized => ⟨hsized.bytes, hsized.floor, ?_⟩, rfl, rfl⟩).mono
    fun _ hmod => hmod.1
  obtain ⟨c, hc, hb⟩ := Heap.object?_eq_some_iff.mp ho
  have hroom := ((hp.cells _ c (Heap.tenant?_of_cell? hc)).object o hb).2 rfl
  rw [Array.size_push]
  exact hroom

theorem clears_appendProperty (hp : h.Pays (.plain strict start exact) n)
    (hatom : exact → atom.isNull = false) :
    Clears strict (fun q => q.2.Pays (.plain strict start exact) n)
      ((appendProperty r atom flags p).run h) := by
  refine clears_bind (R := fun q => q.2.Pays (.plain strict start exact) n ∧ (q.1 = .ok () →
    ∃ o, q.2.object? r = some o ∧ o.properties.size < o.capacity)) ?_ (fun _ h₁ hroom => ?_)
    fun _ _ hroom => hroom.1
  · refine clears_tryCatch (clears_reserveProperty hp r) (fun _ _ hroom => hroom) fun _ h₁ hroom => ?_
    exact clears_lift_bind (HeapM.Stays.releaseProperty p n h₁ hroom.1) fun _ _ hp₂ => ⟨hp₂, nofun⟩
  · obtain ⟨o, ho, hlt⟩ := hroom.2 rfl
    have hp₁ : h₁.Pays (withRoom strict start exact r) n := withRoom_of_plain hroom.1 ho hlt
    refine clears_lift_bind (HeapM.Stays.objectShape r n h₁ hp₁) fun old h₂ hp₂ => ?_
    refine clears_bind (R := fun q => match q.1 with
      | .ok _ => q.2.Pays (withRoom strict start exact r) n
      | .error _ => q.2.Pays (.plain strict start exact) n) ?_ (fun q h₃ hp₃ => ?_) fun _ _ hp₃ => hp₃
    · refine clears_tryCatch (Stays.addProperty old hatom n h₂ hp₂) (fun _ _ hp₃ => hp₃) fun _ h₃ hp₃ => ?_
      refine clears_lift_bind (HeapM.Stays.setShape r old n h₃ (plain_of_withRoom hp₃)) fun _ h₄ hp₄ => ?_
      exact clears_lift_bind (HeapM.Stays.releaseProperty p n h₄ hp₄) fun _ _ hp₅ => hp₅
    · have hshape : Clears strict (fun q => q.2.Pays (withRoom strict start exact r) n) (setShape r q.1 h₃) :=
        (clears_modifyObject (f := fun o => { o with shape := q.1 }) hp₃ fun o _ => ⟨fun size hs =>
          ⟨⟨hs.1.bytes, hs.1.floor, hs.1.room⟩, hs.2⟩, rfl, rfl⟩).mono fun _ hmod => hmod.1
      refine clears_lift_bind hshape fun _ h₄ hp₄ => ?_
      refine clears_lift_bind (clears_pushProperty hp₄ p) fun _ h₅ hp₅ => ?_
      refine clears_lift_bind (HeapM.Stays.object r n h₅ hp₅) fun o h₆ hp₆ => ?_
      split
      · exact .fault rfl
      · exact hp₆

namespace Stays

theorem ownShape (r : Handle) : Stays (.plain strict start exact) (ownShape r) := by
  refine .bind (.lift (.objectShape r)) fun old => .bind ?_ fun shape =>
    .bind (.lift (.setShape r shape)) fun _ => .pure shape
  exact .tryCatch (.prepareUpdate old) fun _ => .bind (.lift (.setShape r old)) fun _ => .throw _

theorem defineOwn (r : Handle) (flags : Flags) (p : Property) (hatom : exact → atom.isNull = false) :
    Stays (.plain strict start exact) (defineOwn r atom flags p) := by
  refine .bind (.lift (.objectShape r)) fun shape => .get_bind fun h => ?_
  split
  · rename_i index oldFlags _
    have hreplace : Stays (.plain strict start exact) ((do
        let old ← HeapM.replaceProperty r index p
        HeapM.releaseProperty old
        return true) : AllocM Bool) :=
      .bind (.lift (.replaceProperty r index p)) fun old =>
        .bind (.lift (.releaseProperty old)) fun _ => .pure true
    dsimp only
    split
    · refine .bind ?_ fun shape => .bind (.lift (.setFlags shape index flags)) fun _ => hreplace
      exact .tryCatch (.ownShape r) fun _ => .bind (.lift (.releaseProperty p)) fun _ => .throw _
    · exact hreplace
  · refine .bind (.lift (.object r)) fun o => ?_
    split
    · exact .bind (fun _ _ hp => clears_appendProperty hp hatom) fun _ => .pure true
    · exact .bind (.lift (.releaseProperty p)) fun _ => .pure false

theorem defineAccessor (r : Handle) (flags : Flags) (getter setter : Option Handle)
    (hatom : exact → atom.isNull = false) :
    Stays (.plain strict start exact) (defineAccessor r atom flags getter setter) :=
  .bind (.lift (.retainOption getter)) fun _ => .bind (.lift (.retainOption setter)) fun _ =>
    .defineOwn r _ _ hatom

theorem setProperty (r : Handle) (v : Value) (hatom : exact → atom.isNull = false) :
    Stays (.plain False start exact) (setProperty r atom v) := by
  refine .get_bind fun h => ?_
  split
  · rename_i index flags _
    split
    · exact .bind (.lift (.freeValue v)) fun _ => .pure false
    · split
      · refine .bind (.lift (.object r)) fun o => ?_
        split
        · exact .fault rfl
        · exact .bind (.lift (.setVariable _ v)) fun _ => .pure true
        · exact .mismatch nofun id
      · exact .bind (.lift (.writeSlot r index v)) fun _ => .pure true
  · exact .defineOwn r _ _ hatom

theorem setPrototype (r : Handle) (proto : Option Handle) :
    Stays (.plain strict start exact) (setPrototype r proto) := by
  refine .get_bind fun h => ?_
  split
  · exact .pure false
  · refine .bind (.lift (.objectShape r)) fun old => .bind (.lift (.shape old)) fun s => ?_
    split
    · exact .pure true
    · exact .bind (.ownShape r) fun shape => .bind (.lift (.retainOption proto)) fun _ =>
        .bind (.lift (.shape shape)) fun s =>
          .bind (.lift (.edit shape fun _ => ⟨rfl, rfl, rfl, rfl⟩)) fun _ =>
            .bind (.lift (.releaseAll _)) fun _ => .pure true

theorem setRecording (c : InlineCache) (r : Handle) (v : Value) (hatom : exact → atom.isNull = false) :
    Stays (.plain False start exact) (setRecording c r atom v) := by
  refine .bind (.setProperty r v hatom) fun done => ?_
  split
  · refine .get_bind fun h => ?_
    split
    · split
      · exact .pure _
      · exact .pure _
    · exact .pure _
  · exact .pure _

theorem setAnswered (hit? : Option CacheHit) (c : InlineCache) (r : Handle) (v : Value)
    (hatom : exact → atom.isNull = false) : Stays (.plain False start exact) (setAnswered hit? c r atom v) := by
  unfold AllocM.setAnswered
  split
  · split
    · exact .bind (.lift (.writeSlot r _ v)) fun _ => .pure _
    · exact .setRecording c r v hatom
  · exact .setRecording c r v hatom

theorem setCached (c : InlineCache) (r : Handle) (v : Value) (hatom : exact → atom.isNull = false) :
    HeapM.Stays (.plain False start exact) (setCached c r atom v) := by
  refine .get_bind fun h => ?_
  split
  refine .bind (Stays.setAnswered _ _ r v hatom) fun res => ?_
  split
  · exact .pure _
  · exact .pure _

end Stays

end AllocM

end ObjectMemory
