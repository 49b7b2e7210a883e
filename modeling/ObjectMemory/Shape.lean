import ObjectMemory.Atom
import ObjectMemory.Flags
import ObjectMemory.Handle
set_option autoImplicit false

/-!
# Shapes

A shape is the property layout that objects with the same prototype and the same history of added
properties share.  It lists an entry per property, in the order they were added; deleting a property
leaves a hole, an entry with the null atom.

Entries are found through a small hash of their own (`Chains`).  The trailing bits of an atom select a
bucket, which holds the number of the entry that was added to it last; every entry leads on to the one
that was in front of the bucket before it.  Numbers are counted from one, and zero ends a chain.

Every change in place is counted, and `version` is the count as one 32-bit word, so a handle together
with a version tells whether a layout seen earlier is still the same.
-/

namespace ObjectMemory

/-- One property of a layout; the null atom marks a hole. -/
structure Entry where
  atom : Atom
  flags : Flags
  deriving DecidableEq, Repr, Inhabited

namespace Entry

/-- What a deleted property leaves behind. -/
def hole : Entry := ⟨.null, .empty⟩

end Entry

/-- A shape and its version, as observed at one moment. -/
structure ShapeStamp where
  shape : Handle
  version : UInt32
  deriving DecidableEq, Repr, Inhabited

/-- The entries of a layout by bucket.  Entries are numbered from one; zero is no entry. -/
structure Chains where
  /-- the number of the first entry of each bucket -/
  buckets : Array Nat
  /-- for each entry the number of the next one in its bucket -/
  links : Array Nat
  deriving DecidableEq, Repr, Inhabited

/-- A property layout shared by objects. -/
structure Shape extends Chains where
  /-- prototype of the objects of this shape -/
  proto : Option Handle
  /-- properties in the order they were added, holes included -/
  entries : Array Entry
  /-- number of entries room is accounted for -/
  capacity : Nat
  /-- structural hash of the prototype and the entries -/
  hash : UInt32
  /-- the shape is registered in the table of shared shapes -/
  isHashed : Bool
  /-- number of deleted properties not yet compacted away -/
  holes : Nat
  /-- number of changes in place -/
  changes : Nat
  deriving DecidableEq, Repr, Inhabited

namespace Chains

/-- The bucket of an atom among `n` buckets, where `n` is a power of two. -/
def bucketOf (n : Nat) (atom : Atom) : Nat := Nat.land atom.raw.toNat (n - 1)

/-- The indexes of the entries from number `n` on, at most `fuel` of them. -/
def follow (links : Array Nat) : Nat → Nat → List Nat
  | 0, _ => []
  | _ + 1, 0 => []
  | fuel + 1, i + 1 => i :: follow links fuel (links.getD i 0)

/-- The number of the first entry in the bucket of an atom. -/
def head (c : Chains) (atom : Atom) : Nat := c.buckets.getD (bucketOf c.buckets.size atom) 0

/-- The indexes of the entries in the bucket of an atom, the latest first.  No chain has an entry twice,
so none is longer than there are entries. -/
def chain (c : Chains) (atom : Atom) : List Nat := follow c.links c.links.size (c.head atom)

/-- The chains of `n` empty buckets. -/
def unlinked (n : Nat) (links : Array Nat) : Chains := ⟨Array.replicate n 0, links⟩

/-- Puts entry `i` of `atom` in front of its bucket. -/
def link (c : Chains) (atom : Atom) (i : Nat) : Chains where
  buckets := c.buckets.setIfInBounds (bucketOf c.buckets.size atom) (i + 1)
  links := c.links.setIfInBounds i (c.head atom)

/-- Puts a new entry of `atom` in front of its bucket. -/
def push (c : Chains) (atom : Atom) : Chains :=
  { c with links := c.links.push 0 }.link atom c.links.size

/-- Links the entries of a list from index `i` on into their buckets, holes left out. -/
def linkAll (c : Chains) : Nat → List Entry → Chains
  | _, [] => c
  | i, e :: rest => linkAll (if e.atom.isNull then c else c.link e.atom i) (i + 1) rest

/-- Chains of `n` buckets for a list of entries, made anew.  The links of holes are left as they are. -/
def rebuild (n : Nat) (links : Array Nat) (entries : Array Entry) : Chains :=
  (unlinked n links).linkAll 0 entries.toList

/-- Takes entry `i` of `atom` out of its bucket: what leads to it leads on to the next one. -/
def unlink (c : Chains) (atom : Atom) (i : Nat) : Chains :=
  let next := c.links.getD i 0
  if c.head atom = i + 1 then
    { c with buckets := c.buckets.setIfInBounds (bucketOf c.buckets.size atom) next }
  else
    match (c.chain atom).find? fun j => c.links.getD j 0 = i + 1 with
    | some j => { c with links := c.links.setIfInBounds j next }
    | none => c

end Chains

namespace Shape

/-- The number of changes as one 32-bit word, which wraps around. -/
def version (s : Shape) : UInt32 := s.changes.toUInt32

/-! ## Structural hash -/

/-- Mixes one word into a hash. -/
def mix (h v : UInt32) : UInt32 := (h + v) * 0x9e370001

/-- The hash of an empty layout. -/
def initialHash : Option Handle → UInt32
  | none => mix 1 0
  | some p => mix (mix 1 p.index.toUInt32) p.generation

/-- The hash after a property is added. -/
def transitionHash (h : UInt32) (atom : Atom) (flags : Flags) : UInt32 :=
  mix (mix h atom.raw) flags.bits.toUInt32

/-! ## Sizes -/

/-- Number of entries a new shape has room for. -/
def initialCapacity : Nat := 2

/-- Number of buckets of a new shape. -/
def initialBuckets : Nat := 4

/-- Doubles the number of buckets, at most `fuel` times, until there is one per entry. -/
def doubleTo (target : Nat) : Nat → Nat → Nat
  | 0, n => n
  | fuel + 1, n => if n < target then doubleTo target fuel (n * 2) else n

/-- Halves the number of buckets, at most `fuel` times, while half of them is enough. -/
def halveTo (target : Nat) : Nat → Nat → Nat
  | 0, n => n
  | fuel + 1, n => if n / 2 ≥ target then halveTo target fuel (n / 2) else n

/-- The capacity a full shape grows to, so that `count` entries fit. -/
def grownCapacity (s : Shape) (count : Nat) : Nat := max count (s.capacity * 3 / 2)

/-- The number of buckets after growing to `capacity`.  A positive number of buckets reaches the
capacity in fewer doublings than the capacity has units. -/
def grownBuckets (s : Shape) (capacity : Nat) : Nat := doubleTo capacity capacity s.buckets.size

/-- The capacity without the holes. -/
def compactCapacity (s : Shape) : Nat := max initialCapacity (s.entries.size - s.holes)

/-- The number of buckets for a compacted layout. -/
def compactBuckets (s : Shape) : Nat := halveTo s.compactCapacity s.buckets.size s.buckets.size

/-! ## Looking up -/

/-- The flags of entry `i`, if it is the property `atom`. -/
def flagsAt? (s : Shape) (atom : Atom) (i : Nat) : Option Flags :=
  match s.entries[i]? with
  | some e => if e.atom = atom then some e.flags else none
  | none => none

/-- The index and flags of the property `atom`.  The null atom is no property. -/
def find? (s : Shape) (atom : Atom) : Option (Nat × Flags) :=
  if atom.isNull then none
  else (s.chain atom).findSome? fun i => (s.flagsAt? atom i).map fun flags => (i, flags)

/-- The shape has no entry at all. -/
def isEmpty (s : Shape) : Bool := s.entries.isEmpty

/-- `t` is `s` with one more property: same prototype, same entries, then `atom` with `flags`. -/
def isExtendedBy (s : Shape) (atom : Atom) (flags : Flags) (t : Shape) : Bool :=
  t.proto == s.proto && t.entries == s.entries.push ⟨atom, flags⟩

/-! ## Changing -/

/-- The layout without properties. -/
def initial (proto : Option Handle) : Shape where
  toChains := .unlinked initialBuckets #[]
  proto := proto
  entries := #[]
  capacity := initialCapacity
  hash := initialHash proto
  isHashed := false
  holes := 0
  changes := 0

/-- A copy of a layout, not shared with anyone and at its first version. -/
def copy (s : Shape) : Shape := { s with isHashed := false, changes := 0 }

/-- The shape after one more change in place. -/
def bump (s : Shape) : Shape := { s with changes := s.changes + 1 }

/-- The shape with a property added at the end. -/
def push (s : Shape) (atom : Atom) (flags : Flags) : Shape :=
  { s with
    toChains := s.toChains.push atom
    entries := s.entries.push ⟨atom, flags⟩
    changes := s.changes + 1 }

/-- The shape with room for more entries. -/
def grow (s : Shape) (capacity : Nat) : Shape :=
  let n := s.grownBuckets capacity
  if n = s.buckets.size then { s with capacity := capacity }
  else { s with capacity := capacity, toChains := .rebuild n s.links s.entries }

/-- The shape with other flags for entry `i`. -/
def setFlags (s : Shape) (i : Nat) (flags : Flags) : Shape :=
  { s with entries := s.entries.modify i fun e => { e with flags := flags } }

/-- The atom of entry `i`; the null atom beyond the end. -/
def atomAt (s : Shape) (i : Nat) : Atom := (s.entries.getD i .hole).atom

/-- Entry `i` is in its bucket. -/
def isLinked (s : Shape) (i : Nat) : Bool := (s.chain (s.atomAt i)).contains i

/-- Turns entry `i` into a hole. -/
def remove (s : Shape) (i : Nat) : Shape :=
  let c := s.toChains.unlink (s.atomAt i) i
  { s with
    toChains := { c with links := c.links.setIfInBounds i 0 }
    entries := s.entries.setIfInBounds i .hole
    holes := s.holes + 1
    changes := s.changes + 1 }

/-- The shape with the given entries and no holes. -/
def compact (s : Shape) (entries : Array Entry) : Shape :=
  { s with
    capacity := s.compactCapacity
    toChains := .rebuild s.compactBuckets (Array.replicate entries.size 0) entries
    entries := entries
    holes := 0
    changes := s.changes + 1 }

end Shape

end ObjectMemory
