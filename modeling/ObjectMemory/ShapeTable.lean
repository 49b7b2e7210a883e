import ObjectMemory.Shape
set_option autoImplicit false

/-!
# The table of shared shapes

Shapes that may be shared are registered under their structural hash, so that objects built alike
find the same shape.  The leading bits of the hash select a bucket; a bucket lists its shapes, the
one registered last in front.  The table doubles before it is more than half full.
-/

namespace ObjectMemory

/-- Registered shapes by the leading bits of their hash. -/
structure ShapeTable where
  /-- number of leading bits that select a bucket -/
  bits : Nat
  /-- hash and handle of the shapes of each bucket, the latest first -/
  buckets : Array (List (UInt32 × Handle))
  /-- number of registered shapes -/
  count : Nat
  deriving Repr, Inhabited

namespace ShapeTable

/-- The number of bits of a new table. -/
def initialBits : Nat := 4

/-- The table without shapes. -/
def empty : ShapeTable := ⟨initialBits, Array.replicate (1 <<< initialBits) [], 0⟩

/-- The bucket a hash selects. -/
def bucketIndex (hash : UInt32) (bits : Nat) : Nat := hash.toNat >>> (32 - bits)

/-- The shapes in the bucket of a hash. -/
def bucket (t : ShapeTable) (hash : UInt32) : List (UInt32 × Handle) :=
  t.buckets.getD (bucketIndex hash t.bits) []

/-- The shapes registered under exactly this hash, the latest first. -/
def candidates (t : ShapeTable) (hash : UInt32) : List Handle :=
  (t.bucket hash).filterMap fun (h, r) => if h = hash then some r else none

/-- All registered shapes, bucket by bucket. -/
def toList (t : ShapeTable) : List (UInt32 × Handle) := t.buckets.toList.flatten

/-- Puts a shape in front of its bucket. -/
def place (bits : Nat) (buckets : Array (List (UInt32 × Handle))) (e : UInt32 × Handle) :
    Array (List (UInt32 × Handle)) :=
  buckets.modify (bucketIndex e.1 bits) (e :: ·)

/-- The same shapes in a table of `2 ^ bits` buckets. -/
def resize (t : ShapeTable) (bits : Nat) : ShapeTable :=
  { t with
    bits := bits
    buckets := t.toList.foldl (place bits) (Array.replicate (1 <<< bits) []) }

/-- Registers a shape under its hash. -/
def insert (t : ShapeTable) (hash : UInt32) (r : Handle) : ShapeTable :=
  let t := if 2 * (t.count + 1) > t.buckets.size then t.resize (t.bits + 1) else t
  { t with buckets := place t.bits t.buckets (hash, r), count := t.count + 1 }

/-- Removes a shape registered under a hash.  Fails if it is not there. -/
def erase? (t : ShapeTable) (hash : UInt32) (r : Handle) : Option ShapeTable :=
  if (hash, r) ∈ t.bucket hash then
    some { t with
      buckets := t.buckets.modify (bucketIndex hash t.bits) (·.erase (hash, r))
      count := t.count - 1 }
  else none

end ShapeTable

end ObjectMemory
