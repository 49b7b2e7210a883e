import ObjectMemory.Heap.Allocation
set_option autoImplicit false

/-!
# Roots

A root owns one counted reference on behalf of code outside the heap.  Dropping a root does not reach
into the heap: its handle is queued, and released before the next allocation or collection.
-/

namespace ObjectMemory

/-- An owner of one counted reference, outside the heap. -/
structure Root where
  handle : Handle
  deriving DecidableEq, Repr, Inhabited

namespace Root

/-- The diagnostic text. -/
def describe (r : Root) : String := "Root(" ++ Handle.describeOption (some r.handle) ++ ")"

end Root

namespace HeapM

/-- Hands a reference that the caller owns to a root. -/
def root (r : Handle) : HeapM Root := do
  if (← get).contains r then return ⟨r⟩ else fault (.staleRoot r)

/-- A second root of the same cell. -/
def cloneRoot (x : Root) : HeapM Root := do
  retain x.handle
  root x.handle

/-- Drops a root. -/
def dropRoot (x : Root) : HeapM Unit := modify fun h => { h with dropped := h.dropped.push x.handle }

end HeapM

end ObjectMemory
