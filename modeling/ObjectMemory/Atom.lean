import Std.Data.HashMap
set_option autoImplicit false

/-!
# Atoms

Property names are interned: an `AtomTable` hands out a small number for each distinct name, and
shapes and caches work with the number.  Number `0` is the null atom.  It names no property and marks
the hole a deleted property leaves in a shape.  The name `length` is interned from the start.

The table keeps the names in the order they were interned and, beside them, the atom of each name.
-/

namespace ObjectMemory

/-- The number of an interned property name. -/
structure Atom where
  raw : UInt32
  deriving DecidableEq, Repr, Inhabited, Hashable

namespace Atom

/-- The null atom, which names no property. -/
def null : Atom := ⟨0⟩

/-- The atom of the name `length`. -/
def length : Atom := ⟨1⟩

/-- Is this the null atom? -/
def isNull (a : Atom) : Bool := a.raw == 0

/-- The short text of an atom, as messages show it. -/
def text (a : Atom) : String := "#" ++ toString a.raw.toNat

/-- The diagnostic text of an atom. -/
def describe (a : Atom) : String := "AtomId(" ++ toString a.raw.toNat ++ ")"

end Atom

/-- Interned names, in order, and the atom of each. -/
structure AtomTable where
  /-- The name of atom `i` stands at index `i`; index `0` is blank. -/
  names : Array String
  /-- The atom of each interned name. -/
  atoms : Std.HashMap String Atom

namespace AtomTable

/-- The atom of `name`, interning it on first use. -/
def intern (t : AtomTable) (name : String) : Atom × AtomTable :=
  match t.atoms[name]? with
  | some a => (a, t)
  | none =>
    let a : Atom := ⟨t.names.size.toUInt32⟩
    (a, ⟨t.names.push name, t.atoms.insert name a⟩)

/-- The table that holds the null atom and `length`. -/
def initial : AtomTable := (intern ⟨#[""], ∅⟩ "length").2

/-- The atom of `name`, if it has been interned. -/
def get? (t : AtomTable) (name : String) : Option Atom := t.atoms[name]?

/-- The name of `a`; the null atom and numbers not handed out have none. -/
def name? (t : AtomTable) (a : Atom) : Option String :=
  if a.isNull then none else t.names[a.raw.toNat]?

/-- Number of atoms, the null atom included. -/
def size (t : AtomTable) : Nat := t.names.size

/-- Has the table no atom at all?  It never is: the null atom is always there. -/
def isEmpty (t : AtomTable) : Bool := t.names.isEmpty

end AtomTable

end ObjectMemory
