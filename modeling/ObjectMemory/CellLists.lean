set_option autoImplicit false

/-!
# The lists of cells

Three lists run through the cells of a heap: the live cells, the candidates of a collection and the
cells that wait to be freed.  A cell is on at most one of them.  The lists are doubly linked.  Every
cell has links to its two neighbours, and the head of a list knows its ends and its length, so a cell
joins at the end and leaves from anywhere without a search.

Cells are named by their slots.  The end of a list is reached where a link is `none`; seen from there
the head is one more neighbour, before the first cell and behind the last.
-/

namespace ObjectMemory

/-- The lists a cell may be on. -/
inductive ListName where
  | live
  | candidates
  | waiting
  deriving DecidableEq, Repr, Inhabited

/-- The neighbours of a cell on its list. -/
structure Link where
  prev : Option Nat
  next : Option Nat
  deriving DecidableEq, Repr, Inhabited

/-- The links of a cell on no list. -/
def Link.alone : Link := ⟨none, none⟩

/-- The ends of a list and its length. -/
structure ListHead where
  first : Option Nat
  last : Option Nat
  len : Nat
  deriving DecidableEq, Repr, Inhabited

/-- The heads of the three lists, and the links of the cell in each slot. -/
structure CellLists where
  live : ListHead
  candidates : ListHead
  waiting : ListHead
  links : Array Link
  deriving DecidableEq, Repr, Inhabited

namespace CellLists

/-- No cell is on a list. -/
def empty : CellLists := ⟨⟨none, none, 0⟩, ⟨none, none, 0⟩, ⟨none, none, 0⟩, #[]⟩

variable {l : CellLists} {name other : ListName} {i j : Nat}

/-! ## Heads and links -/

/-- The head of a list. -/
def head (l : CellLists) : ListName → ListHead
  | .live => l.live
  | .candidates => l.candidates
  | .waiting => l.waiting

/-- Changes the head of a list. -/
def setHead (l : CellLists) (name : ListName) (x : ListHead) : CellLists :=
  match name with
  | .live => { l with live := x }
  | .candidates => { l with candidates := x }
  | .waiting => { l with waiting := x }

/-- The links of the cell in a slot. -/
def link (l : CellLists) (i : Nat) : Link := l.links[i]?.getD .alone

/-- Changes the links of the cell in a slot. -/
def setLink (l : CellLists) (i : Nat) (x : Link) : CellLists :=
  { l with links := (l.links ++ Array.replicate (i + 1 - l.links.size) Link.alone).setIfInBounds i x }

theorem head_setHead (x : ListHead) :
    (l.setHead name x).head other = if name = other then x else l.head other := by
  cases name <;> cases other <;> rfl

/-- What a new head has in common with the old one, all heads keep. -/
theorem head_setHead_same {α : Type} (f : ListHead → α) {x : ListHead} (hf : f x = f (l.head name)) :
    f ((l.setHead name x).head other) = f (l.head other) := by
  rw [head_setHead]
  split
  · rename_i h
    rw [hf, h]
  · rfl

@[simp] theorem link_setHead (x : ListHead) : (l.setHead name x).link i = l.link i := by
  cases name <;> rfl

@[simp] theorem head_setLink (x : Link) : (l.setLink i x).head name = l.head name := by
  cases name <;> rfl

theorem link_setLink (x : Link) : (l.setLink i x).link j = if i = j then x else l.link j := by
  unfold link setLink
  dsimp only
  rw [Array.getElem?_setIfInBounds]
  split
  · rename_i hij
    subst hij
    rw [if_pos (by simp; omega)]
    rfl
  · rw [Array.getElem?_append]
    split
    · rfl
    · rename_i hle
      have hnone : l.links[j]? = none := Array.getElem?_eq_none (by omega)
      rw [hnone, Array.getElem?_replicate]
      split <;> rfl

/-! ## Joining and leaving -/

/-- The cell behind another; `none` stands for the head. -/
def next (l : CellLists) (name : ListName) : Option Nat → Option Nat
  | none => (l.head name).first
  | some i => (l.link i).next

/-- The cell before another; `none` stands for the head. -/
def prev (l : CellLists) (name : ListName) : Option Nat → Option Nat
  | none => (l.head name).last
  | some i => (l.link i).prev

/-- The number of cells on a list. -/
def len (l : CellLists) (name : ListName) : Nat := (l.head name).len

/-- Changes what is behind a cell or the head. -/
def setNext (l : CellLists) (name : ListName) (place next : Option Nat) : CellLists :=
  match place with
  | none => l.setHead name { l.head name with first := next }
  | some i => l.setLink i { l.link i with next := next }

/-- Changes what is before a cell or the head. -/
def setPrev (l : CellLists) (name : ListName) (place prev : Option Nat) : CellLists :=
  match place with
  | none => l.setHead name { l.head name with last := prev }
  | some i => l.setLink i { l.link i with prev := prev }

/-- Changes the length of a list. -/
def setLen (l : CellLists) (name : ListName) (n : Nat) : CellLists :=
  l.setHead name { l.head name with len := n }

/-- Puts a cell that is on no list at the end of one. -/
def pushBack (l : CellLists) (name : ListName) (i : Nat) : CellLists :=
  let last := l.prev name none
  let l := ((l.setLink i ⟨last, none⟩).setNext name last (some i)).setPrev name none (some i)
  l.setLen name (l.len name + 1)

/-- Takes a cell off its list and makes its neighbours each other's. -/
def unlink (l : CellLists) (name : ListName) (i : Nat) : CellLists :=
  let x := l.link i
  let l := (l.setNext name x.prev x.next).setPrev name x.next x.prev
  (l.setLen name (l.len name - 1)).setLink i .alone

/-- Takes a cell off the list it is on, if it is on one. -/
def leave (l : CellLists) (i : Nat) : Option ListName → CellLists
  | some name => l.unlink name i
  | none => l

/-- Puts a cell on a list, if one is given. -/
def join (l : CellLists) (i : Nat) : Option ListName → CellLists
  | some name => l.pushBack name i
  | none => l

/-- Moves a cell from the list it is on to the end of another. -/
def move (l : CellLists) (i : Nat) (old new : Option ListName) : CellLists := (l.leave i old).join i new

/-! ## What the changes leave -/

variable {place spot : Option Nat} {x : Link}

@[simp] theorem next_setLink :
    (l.setLink i x).next name spot = if spot = some i then x.next else l.next name spot := by
  cases spot with
  | none => simp [next]
  | some j =>
    simp only [next, link_setLink, Option.some.injEq, eq_comm (a := i)]
    split
    · rfl
    · rfl

@[simp] theorem prev_setLink :
    (l.setLink i x).prev name spot = if spot = some i then x.prev else l.prev name spot := by
  cases spot with
  | none => simp [prev]
  | some j =>
    simp only [prev, link_setLink, Option.some.injEq, eq_comm (a := i)]
    split
    · rfl
    · rfl

/-- A cell is on one list only, but every list has a head of its own. -/
@[simp] theorem next_setNext {value : Option Nat} :
    (l.setNext name place value).next other spot =
      if spot = place ∧ (place = none → name = other) then value else l.next other spot := by
  cases place with
  | none =>
    cases spot with
    | none =>
      simp only [setNext, next, head_setHead, true_and, forall_const]
      split
      · rfl
      · rfl
    | some j => simp [setNext, next]
  | some i =>
    simp only [setNext, next_setLink, reduceCtorEq, false_implies, and_true]

@[simp] theorem prev_setNext {value : Option Nat} :
    (l.setNext name place value).prev other spot = l.prev other spot := by
  cases place with
  | none =>
    cases spot with
    | none => exact head_setHead_same (·.last) rfl
    | some j => simp [setNext, prev]
  | some i =>
    simp only [setNext, prev_setLink]
    split
    · rename_i h
      rw [h]
      rfl
    · rfl

@[simp] theorem prev_setPrev {value : Option Nat} :
    (l.setPrev name place value).prev other spot =
      if spot = place ∧ (place = none → name = other) then value else l.prev other spot := by
  cases place with
  | none =>
    cases spot with
    | none =>
      simp only [setPrev, prev, head_setHead, true_and, forall_const]
      split
      · rfl
      · rfl
    | some j => simp [setPrev, prev]
  | some i =>
    simp only [setPrev, prev_setLink, reduceCtorEq, false_implies, and_true]

@[simp] theorem next_setPrev {value : Option Nat} :
    (l.setPrev name place value).next other spot = l.next other spot := by
  cases place with
  | none =>
    cases spot with
    | none => exact head_setHead_same (·.first) rfl
    | some j => simp [setPrev, next]
  | some i =>
    simp only [setPrev, next_setLink]
    split
    · rename_i h
      rw [h]
      rfl
    · rfl

@[simp] theorem next_setLen (n : Nat) : (l.setLen name n).next other spot = l.next other spot := by
  cases spot with
  | none => exact head_setHead_same (·.first) rfl
  | some j => simp [setLen, next]

@[simp] theorem prev_setLen (n : Nat) : (l.setLen name n).prev other spot = l.prev other spot := by
  cases spot with
  | none => exact head_setHead_same (·.last) rfl
  | some j => simp [setLen, prev]

@[simp] theorem len_setLink : (l.setLink i x).len name = l.len name := by simp [len]

@[simp] theorem len_setNext {value : Option Nat} :
    (l.setNext name place value).len other = l.len other := by
  cases place with
  | none => exact head_setHead_same (·.len) rfl
  | some i => simp [setNext]

@[simp] theorem len_setPrev {value : Option Nat} :
    (l.setPrev name place value).len other = l.len other := by
  cases place with
  | none => exact head_setHead_same (·.len) rfl
  | some i => simp [setPrev]

@[simp] theorem len_setLen (n : Nat) : (l.setLen name n).len other = if name = other then n else l.len other := by
  simp only [setLen, len, head_setHead]
  split
  · rfl
  · rfl

end CellLists

end ObjectMemory
