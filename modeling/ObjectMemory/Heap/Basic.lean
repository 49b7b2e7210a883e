import ObjectMemory.Cell
import ObjectMemory.Fault
import ObjectMemory.OutOfMemory
import ObjectMemory.Queue
import ObjectMemory.ShapeTable
set_option autoImplicit false

/-!
# The heap

The heap owns every cell, the table of shared shapes and the frames of running functions.  Cells live
in slots; a slot whose cell was freed is reused, the one freed last first.

An operation is an action of `HeapM`: it changes the heap or ends in a fault.  An action of `AllocM`
may also run out of memory; what it did to the heap until then stays done.

What the allocator refuses is not for the heap to say.  It is an input: `Heap.refused` lists the requests
that are refused, and every statement about a heap is one about every such list.

Every cell tells its own place among the lists the collector walks; the links of the lists are kept
in `lists`.  Cells join the live list with a ticket from a counter that only grows, so the list in
order is the live cells in the order of their tickets (`Heap.liveOrder`).
-/

namespace ObjectMemory

/-- How the heap is set up. -/
structure Config where
  /-- accounted bytes above which an allocation first runs the collector -/
  threshold : Nat
  /-- bound on the accounted bytes -/
  memoryLimit : Option Nat
  /-- an allocation may run the collector -/
  autoCollect : Bool
  deriving DecidableEq, Repr, Inhabited

namespace Config

/-- Accounted bytes before the first automatic collection of a heap set up by default. -/
def defaultThreshold : Nat := 256 * 1024

/-- No limit, automatic collections. -/
def default : Config := ⟨defaultThreshold, none, true⟩

end Config

/-- What the heap is busy with. -/
inductive Phase where
  /-- no freeing in progress -/
  | idle
  /-- finalizing the cells that wait in the queue -/
  | draining
  /-- freeing the garbage a collection found -/
  | removingCycles
  deriving DecidableEq, Repr, Inhabited

/-- Counters of a heap at one moment. -/
structure Stats where
  collections : Nat
  collected : Nat
  liveCells : Nat
  used : Nat
  threshold : Nat
  deriving DecidableEq, Repr, Inhabited

namespace Stats

/-- The diagnostic text. -/
def describe (s : Stats) : String :=
  "GcStats \x7b collections: " ++ toString s.collections ++
    ", objects_freed_by_gc: " ++ toString s.collected ++
    ", live_cells: " ++ toString s.liveCells ++
    ", malloc_size: " ++ toString s.used ++
    ", gc_threshold: " ++ toString s.threshold ++ " \x7d"

/-- All counters at zero. -/
def zero : Stats := ⟨0, 0, 0, 0, 0⟩

end Stats

/-- The heap. -/
structure Heap where
  config : Config
  slots : Array Slot
  /-- vacant slots, the one freed last in front -/
  freeSlots : List Nat
  frames : FrameTable
  /-- the shapes that may be shared -/
  table : ShapeTable
  /-- handles of dropped roots, the oldest first, not yet released -/
  dropped : Queue Handle
  phase : Phase
  /-- cells without references that wait to be finalized -/
  zeroRefs : Queue Nat
  /-- accounted bytes of all cells and frames -/
  used : Nat
  /-- accounted bytes above which the next allocation runs the collector -/
  threshold : Nat
  /-- number of taken slots -/
  liveCells : Nat
  /-- the lists the cells are on -/
  lists : CellLists
  /-- the ticket of the next cell that joins the live list -/
  nextTicket : Nat
  /-- number of collections so far -/
  collections : Nat
  /-- objects and functions the collector has finalized so far -/
  collected : Nat
  /-- the requests that the allocator refuses at present -/
  refused : List Request
  deriving Repr, Inhabited

/-- An operation on the heap, which may end in a fault. -/
abbrev HeapM (α : Type) : Type := StateT Heap (Except Fault) α

/-- An operation on the heap that may also run out of memory. -/
abbrev AllocM (α : Type) : Type := ExceptT OutOfMemory HeapM α

namespace Heap

/-- The heap without cells. -/
def new (config : Config) : Heap where
  config := config
  slots := #[]
  freeSlots := []
  frames := .empty
  table := .empty
  dropped := .empty
  phase := .idle
  zeroRefs := .empty
  used := 0
  threshold := config.threshold
  liveCells := 0
  lists := .empty
  nextTicket := 0
  collections := 0
  collected := 0
  refused := []

/-- The counters of the heap. -/
def stats (h : Heap) : Stats := ⟨h.collections, h.collected, h.liveCells, h.used, h.threshold⟩

/-- Number of cells on the live list. -/
def tracked (h : Heap) : Nat := h.lists.len .live

/-- Number of shapes in the table. -/
def sharedShapes (h : Heap) : Nat := h.table.count

/-- Sets or clears the memory limit. -/
def setMemoryLimit (h : Heap) (limit : Option Nat) : Heap :=
  { h with config := { h.config with memoryLimit := limit } }

/-- Sets the accounted size above which an allocation runs the collector. -/
def setThreshold (h : Heap) (n : Nat) : Heap :=
  { h with config := { h.config with threshold := n }, threshold := n }

/-- The allocator refuses these requests from now on, and no others. -/
def setRefused (h : Heap) (requests : List Request) : Heap := { h with refused := requests }

/-- The allocator has room for everything that is asked of it. -/
def grants (h : Heap) (requests : List Request) : Bool := requests.all (· ∉ h.refused)

/-! ## Cells by handle -/

/-- The cell a handle names, unless it is stale. -/
def cell? (h : Heap) (r : Handle) : Option Cell :=
  match h.slots[r.index]? with
  | some s => if s.generation = r.generation then s.cell else none
  | none => none

/-- The handle names a cell. -/
def contains (h : Heap) (r : Handle) : Bool := (h.cell? r).isSome

/-- The number of references to a cell. -/
def refCount? (h : Heap) (r : Handle) : Option Nat := (h.cell? r).map (·.refCount)

/-- The kind of a cell. -/
def kind? (h : Heap) (r : Handle) : Option Kind := (h.cell? r).map (·.kind)

/-- The body of a cell. -/
def body? (h : Heap) (r : Handle) : Option Body := (h.cell? r).map (·.body)

/-- The object a handle names. -/
def object? (h : Heap) (r : Handle) : Option Object :=
  match h.body? r with
  | some (.object o) => some o
  | _ => none

/-- The shape a handle names. -/
def shape? (h : Heap) (r : Handle) : Option Shape :=
  match h.body? r with
  | some (.shape s) => some s
  | _ => none

/-- The captured variable a handle names. -/
def captured? (h : Heap) (r : Handle) : Option Variable :=
  match h.body? r with
  | some (.captured v) => some v
  | _ => none

/-- The compiled function a handle names. -/
def bytecode? (h : Heap) (r : Handle) : Option Bytecode :=
  match h.body? r with
  | some (.bytecode b) => some b
  | _ => none

/-- The suspended call a handle names. -/
def suspension? (h : Heap) (r : Handle) : Option Suspension :=
  match h.body? r with
  | some (.suspension s) => some s
  | _ => none

/-- The realm a handle names. -/
def realm? (h : Heap) (r : Handle) : Option Realm :=
  match h.body? r with
  | some (.realm x) => some x
  | _ => none

/-- The value is an object that has not been freed. -/
def isLiveObject (h : Heap) (v : Value) : Bool :=
  match v.object? with
  | some r => (h.object? r).isSome
  | none => false

/-! ## Cells by slot -/

/-- The cell in a slot, whatever its generation. -/
def cellAt (h : Heap) (i : Nat) : Except Fault Cell :=
  match h.slots[i]? with
  | none => .error .outOfRange
  | some s =>
    match s.cell with
    | none => .error (.slotVacant i)
    | some c => .ok c

/-- Changes the cell in a slot, if there is one. -/
def modifyCell (h : Heap) (i : Nat) (f : Cell → Cell) : Heap :=
  { h with slots := h.slots.modify i fun s => { s with cell := s.cell.map f } }

/-- Changes the body of the cell in a slot. -/
def modifyBody (h : Heap) (i : Nat) (f : Body → Body) : Heap :=
  h.modifyCell i fun c => { c with body := f c.body }

/-- Puts the cell in a slot, which stands at `old`, at another place. -/
def setPlace (h : Heap) (i : Nat) (old new : Place) : Heap :=
  let h := h.modifyCell i fun c => { c with place := new }
  { h with lists := h.lists.move i old.list? new.list? }

/-- Puts the cell in a slot, which stands at `old`, at the end of the live list. -/
def joinLive (h : Heap) (i : Nat) (old : Place) : Heap :=
  let h := h.setPlace i old (.live h.nextTicket)
  { h with nextTicket := h.nextTicket + 1 }

/-- The place of the cell in a slot. -/
def placeAt? (h : Heap) (i : Nat) : Option Place :=
  h.slots[i]?.bind fun s => s.cell.map (·.place)

/-- The ticket and slot of each cell on the live list, by slot. -/
def liveTickets (h : Heap) : List (Nat × Nat) :=
  (List.range h.slots.size).filterMap fun i => (h.placeAt? i).bind (·.ticket?) |>.map (·, i)

/-- The slots of the cells on the live list, in the order they joined it. -/
def liveOrder (h : Heap) : List Nat :=
  (h.liveTickets.mergeSort fun a b => a.1 ≤ b.1).map (·.2)

/-! ## Totals over the cells -/

/-- The part of a slot in a total over cells. -/
def slotWeight (f : Cell → Nat) (s : Slot) : Nat :=
  match s.cell with
  | some c => f c
  | none => 0

/-- The total of `f` over the cells in slots. -/
def slotTotal (f : Cell → Nat) (slots : Array Slot) : Nat :=
  slots.toList.foldr (fun s n => slotWeight f s + n) 0

/-- The total of `f` over the cells of the heap. -/
def total (h : Heap) (f : Cell → Nat) : Nat := slotTotal f h.slots

theorem foldr_modify (w : Slot → Nat) (g : Slot → Slot) (xs : List Slot) (i : Nat) (s : Slot)
    (hs : xs[i]? = some s) :
    (xs.modify i g).foldr (fun s n => w s + n) 0 + w s =
      xs.foldr (fun s n => w s + n) 0 + w (g s) := by
  induction xs generalizing i with
  | nil => simp at hs
  | cons x xs ih =>
    cases i with
    | zero =>
      simp only [List.getElem?_cons_zero, Option.some.injEq] at hs
      subst hs
      simp only [List.modify_zero_cons, List.foldr_cons]
      omega
    | succ i =>
      simp only [List.getElem?_cons_succ] at hs
      have := ih i hs
      simp only [List.modify_succ_cons, List.foldr_cons]
      omega

/-- Changing one slot changes a total by the difference it makes there. -/
theorem slotTotal_modify (f : Cell → Nat) (g : Slot → Slot) {slots : Array Slot} {i : Nat} {s : Slot}
    (hs : slots[i]? = some s) :
    slotTotal f (slots.modify i g) + slotWeight f s = slotTotal f slots + slotWeight f (g s) := by
  simp only [slotTotal, Array.toList_modify]
  exact foldr_modify _ _ _ _ _ (by simpa using hs)

/-- Changing one cell changes a total by the difference it makes there. -/
theorem slotTotal_modifyCell (f : Cell → Nat) (g : Cell → Cell) {h : Heap} {i : Nat} {s : Slot}
    {c : Cell} (hs : h.slots[i]? = some s) (hc : s.cell = some c) :
    slotTotal f (h.modifyCell i g).slots + f c = slotTotal f h.slots + f (g c) := by
  have := slotTotal_modify f (fun s => { s with cell := s.cell.map g }) hs
  simpa [slotWeight, hc, modifyCell] using this

/-! ## Slots and cells -/

theorem cellAt_eq_ok {h : Heap} {i : Nat} {c : Cell} (hc : h.cellAt i = .ok c) :
    ∃ s, h.slots[i]? = some s ∧ s.cell = some c := by
  unfold cellAt at hc
  split at hc
  · cases hc
  · rename_i s hs
    split at hc
    · cases hc
    · rename_i c' hc'
      cases hc
      exact ⟨s, hs, hc'⟩

theorem cell?_eq_some {h : Heap} {r : Handle} {c : Cell} (hc : h.cell? r = some c) :
    ∃ s, h.slots[r.index]? = some s ∧ s.cell = some c := by
  unfold cell? at hc
  split at hc
  · rename_i s hs
    split at hc
    · exact ⟨s, hs, hc⟩
    · cases hc
  · cases hc

end Heap

namespace HeapM

/-- Reads the heap, or faults. -/
def read {α : Type} (f : Heap → Except Fault α) : HeapM α := fun h =>
  match f h with
  | .ok a => .ok (a, h)
  | .error e => .error e

/-- Ends in a fault. -/
def fault {α : Type} (e : Fault) : HeapM α := fun _ => .error e

/-- Changes the heap by a function that may fault. -/
def change (f : Heap → Except Fault Heap) : HeapM Unit := fun h =>
  match f h with
  | .ok h' => .ok ((), h')
  | .error e => .error e

end HeapM

end ObjectMemory
