set_option autoImplicit false

/-!
# Handles

A handle names a slot of the heap together with the slot's generation at the moment the handle was
issued.  Freeing a cell advances the generation of its slot, so a handle that outlived its cell is
told apart from a handle to whatever reuses the slot.
-/

namespace ObjectMemory

/-- A slot index paired with the generation the slot had when the handle was issued. -/
structure Handle where
  index : Nat
  generation : UInt32
  deriving DecidableEq, Repr, Inhabited

namespace Handle

/-- The handle of no cell: its index lies beyond every slot a heap may have. -/
def unbound : Handle := ⟨4294967295, 4294967295⟩

/-- Handles are ordered by slot, then by generation. -/
def le (a b : Handle) : Bool :=
  a.index < b.index || (a.index == b.index && a.generation ≤ b.generation)

/-- The short text of a handle, as messages show it: `@index.generation`. -/
def text (r : Handle) : String :=
  "@" ++ toString r.index ++ "." ++ toString r.generation.toNat

/-- The diagnostic text of a handle, with its fields named. -/
def describe (r : Handle) : String :=
  "GcRef \x7b index: " ++ toString r.index ++ ", generation: " ++
    toString r.generation.toNat ++ " \x7d"

/-- The diagnostic text of a handle that may be absent. -/
def describeOption : Option Handle → String
  | none => "None"
  | some r => "Some(" ++ r.describe ++ ")"

end Handle

end ObjectMemory
