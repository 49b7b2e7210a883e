import ObjectMemory.Heap.Objects
import Std.Data.HashMap
set_option autoImplicit false

/-!
# Inline caches

A cache remembers, for one place of a program, where properties were found.  Each atom has a ring of
items, one per receiver shape; a new shape takes the place of the oldest.

An item owns no reference.  It holds the stamp of the receiver's shape and, if the property was found
on a prototype, a watchpoint for each prototype from the receiver's to the holder.  It answers only
while all of these shapes are as they were; an item that fails is cleared.

Room for a new ring is never refused; where it was, nothing would be recorded.
-/

namespace ObjectMemory

/-- A prototype that must keep its shape. -/
structure Watchpoint where
  holder : Handle
  /-- its shape when the item was filled -/
  stamp : ShapeStamp
  /-- the property the item is for -/
  atom : Atom
  deriving DecidableEq, Repr, Inhabited

namespace Watchpoint

/-- The prototype still has the recorded shape. -/
def isValid (w : Watchpoint) (h : Heap) : Bool := h.objectStamp? w.holder == some w.stamp

end Watchpoint

/-- Where a property of a receiver shape is. -/
structure CacheItem where
  /-- shape of the receiver; nothing for an empty item -/
  stamp : Option ShapeStamp
  /-- the holder, if it is a prototype -/
  proto : Option Handle
  /-- index of the property in the holder's shape -/
  offset : Nat
  flags : Flags
  /-- the prototypes from the receiver's to the holder -/
  watchpoints : List Watchpoint
  deriving DecidableEq, Repr, Inhabited

namespace CacheItem

/-- The item that holds nothing. -/
def empty : CacheItem := ⟨none, none, 0, .empty, []⟩

end CacheItem

/-- What a lookup in the cache found. -/
structure CacheHit where
  offset : Nat
  proto : Option Handle
  flags : Flags
  deriving DecidableEq, Repr, Inhabited

/-- Number of shapes remembered per atom. -/
abbrev ringSize : Nat := 4

/-- The items of one atom. -/
structure CacheRing where
  atom : Atom
  items : Vector CacheItem ringSize
  /-- the item a new shape takes -/
  cursor : Fin ringSize
  deriving DecidableEq, Repr

namespace CacheRing

/-- A ring of empty items. -/
def empty (atom : Atom) : CacheRing := ⟨atom, .replicate ringSize .empty, 0⟩

/-- The first item for exactly this stamp. -/
def find? (s : CacheRing) (stamp : ShapeStamp) : Option (Fin ringSize) :=
  (List.finRange ringSize).find? fun i => s.items[i].stamp == some stamp

/-- The first item for this shape, at any version. -/
def findShape? (s : CacheRing) (shape : Handle) : Option (Fin ringSize) :=
  (List.finRange ringSize).find? fun i => s.items[i].stamp.map (·.shape) == some shape

/-- Puts an item in the place of another. -/
def set (s : CacheRing) (i : Fin ringSize) (item : CacheItem) : CacheRing :=
  { s with items := s.items.set i item }

/-- Enters an item for a shape: in the place of an item for the same shape, else at the cursor, which
moves on.  Tells whether an item of another shape had to go. -/
def put (s : CacheRing) (shape : Handle) (item : CacheItem) : CacheRing × Bool :=
  match s.findShape? shape with
  | some i => (s.set i item, false)
  | none =>
    ({ s.set s.cursor item with cursor := s.cursor + 1 }, s.items[s.cursor].stamp.isSome)

end CacheRing

/-- Counters of a cache. -/
structure CacheStats where
  hits : Nat
  misses : Nat
  updates : Nat
  evictions : Nat
  deriving DecidableEq, Repr, Inhabited

/-- The cache of one place in a program. -/
structure InlineCache where
  /-- where the ring of an atom stands -/
  directory : Std.HashMap Atom Nat
  rings : Array CacheRing
  stats : CacheStats

namespace InlineCache

/-- Longest run of prototypes an item records. -/
def maxDepth : Nat := 4

/-- The cache that knows nothing. -/
def empty : InlineCache := ⟨∅, #[], ⟨0, 0, 0, 0⟩⟩

/-- The ring of an atom. -/
def ring? (c : InlineCache) (atom : Atom) : Option CacheRing :=
  c.directory[atom]?.bind fun i => c.rings[i]?

/-- Changes the ring of an atom that has one. -/
def modifyRing (c : InlineCache) (atom : Atom) (f : CacheRing → CacheRing) : InlineCache :=
  match c.directory[atom]? with
  | some i => { c with rings := c.rings.modify i f }
  | none => c

/-- Looks for an item; one whose watchpoints fail is cleared. -/
def probe (c : InlineCache) (h : Heap) (atom : Atom) (r : Handle) : Option CacheHit × InlineCache :=
  match h.objectStamp? r, c.ring? atom with
  | some stamp, some s =>
    match s.find? stamp with
    | some i =>
      let item := s.items[i]
      if item.watchpoints.all (·.isValid h) then (some ⟨item.offset, item.proto, item.flags⟩, c)
      else (none, c.modifyRing atom (·.set i .empty))
    | none => (none, c)
  | _, _ => (none, c)

/-- Looks for a property of a receiver and counts the outcome. -/
def lookup (c : InlineCache) (h : Heap) (atom : Atom) (r : Handle) : Option CacheHit × InlineCache :=
  match c.probe h atom r with
  | (some hit, c) => (some hit, { c with stats := { c.stats with hits := c.stats.hits + 1 } })
  | (none, c) => (none, { c with stats := { c.stats with misses := c.stats.misses + 1 } })

/-- Watchpoints for the prototypes from `p` to `holder`, if there are at most `n` and all of them have
a shape. -/
def watch (h : Heap) (atom : Atom) (holder : Handle) : Nat → Option Handle → Option (List Watchpoint)
  | 0, _ => none
  | _, none => none
  | n + 1, some p =>
    match h.objectStamp? p with
    | none => none
    | some stamp =>
      let w : Watchpoint := ⟨p, stamp, atom⟩
      if p = holder then some [w] else (watch h atom holder n (h.proto? p)).map (w :: ·)

/-- The watchpoints of an item for a receiver, if it can be recorded. -/
def watchpoints? (h : Heap) (atom : Atom) (r : Handle) : Option Handle → Option (List Watchpoint)
  | none => some []
  | some holder => watch h atom holder maxDepth (h.proto? r)

/-- The flags of the property at an offset of a holder, if it is there. -/
def flagsAt? (h : Heap) (atom : Atom) (holder : Handle) (offset : Nat) : Option Flags :=
  (h.shapeOf? holder).bind (·.flagsAt? atom offset)

/-- The ring of an atom is there, empty if it is new. -/
def withRing (c : InlineCache) (atom : Atom) : InlineCache :=
  match c.directory[atom]? with
  | some _ => c
  | none =>
    { c with
      directory := c.directory.insert atom c.rings.size
      rings := c.rings.push (.empty atom) }

/-- Enters an item into the ring of an atom and counts it. -/
def enter (c : InlineCache) (atom : Atom) (shape : Handle) (item : CacheItem) : InlineCache :=
  let c := c.withRing atom
  match c.ring? atom with
  | none => c
  | some s =>
    let (s, evicted) := s.put shape item
    let c := c.modifyRing atom fun _ => s
    { c with stats := { c.stats with
        updates := c.stats.updates + 1
        evictions := c.stats.evictions + evicted.toNat } }

/-- Records that a property of a receiver is at an offset of a prototype, or of the receiver itself.
Refused if the property is not there, or the prototype is not among the next few of the receiver. -/
def update (c : InlineCache) (h : Heap) (atom : Atom) (r : Handle) (offset : Nat)
    (proto : Option Handle) : Bool × InlineCache :=
  match h.objectStamp? r with
  | none => (false, c)
  | some stamp =>
    match flagsAt? h atom (proto.getD r) offset with
    | none => (false, c)
    | some flags =>
      match watchpoints? h atom r proto with
      | none => (false, c)
      | some ws => (true, c.enter atom stamp.shape ⟨some stamp, proto, offset, flags, ws⟩)

/-- Forgets what is known of an atom. -/
def invalidate (c : InlineCache) (atom : Atom) : InlineCache :=
  c.modifyRing atom fun s => .empty s.atom

/-- Forgets everything but the counters. -/
def clear (c : InlineCache) : InlineCache := { c with directory := ∅, rings := #[] }

end InlineCache

end ObjectMemory
