import ObjectMemory.Atom
import ObjectMemory.Binary64
import ObjectMemory.Cell
import ObjectMemory.CellLists
import ObjectMemory.Decimal.Layout
import ObjectMemory.Decimal.Shortest
import ObjectMemory.Fault
import ObjectMemory.Flags
import ObjectMemory.Frame
import ObjectMemory.Handle
import ObjectMemory.Heap.Allocation
import ObjectMemory.Heap.Arrays
import ObjectMemory.Heap.Basic
import ObjectMemory.Heap.Collector
import ObjectMemory.Heap.Frames
import ObjectMemory.Heap.Functions
import ObjectMemory.Heap.Objects
import ObjectMemory.Heap.Reach
import ObjectMemory.Heap.Realms
import ObjectMemory.Heap.Release
import ObjectMemory.Heap.Roots
import ObjectMemory.Heap.Shapes
import ObjectMemory.InlineCache.Access
import ObjectMemory.InlineCache.Basic
import ObjectMemory.Object
import ObjectMemory.OutOfMemory
import ObjectMemory.Proofs.Accounts
import ObjectMemory.Proofs.Actions
import ObjectMemory.Proofs.Agreement
import ObjectMemory.Proofs.Allocations
import ObjectMemory.Proofs.Appending
import ObjectMemory.Proofs.Arrays
import ObjectMemory.Proofs.Attachments
import ObjectMemory.Proofs.Budgets
import ObjectMemory.Proofs.CacheAgreement
import ObjectMemory.Proofs.CacheFilling
import ObjectMemory.Proofs.CacheOrder
import ObjectMemory.Proofs.CacheRings
import ObjectMemory.Proofs.Call
import ObjectMemory.Proofs.CallDrifts
import ObjectMemory.Proofs.CallHistory
import ObjectMemory.Proofs.CallStrokes
import ObjectMemory.Proofs.Capturing
import ObjectMemory.Proofs.Charges
import ObjectMemory.Proofs.Clients
import ObjectMemory.Proofs.Coherence
import ObjectMemory.Proofs.Collection
import ObjectMemory.Proofs.CollectorWalks
import ObjectMemory.Proofs.Columns
import ObjectMemory.Proofs.Compacting
import ObjectMemory.Proofs.Creations
import ObjectMemory.Proofs.Defining
import ObjectMemory.Proofs.Draining
import ObjectMemory.Proofs.Drifts
import ObjectMemory.Proofs.Edges
import ObjectMemory.Proofs.Edits
import ObjectMemory.Proofs.EntryChains
import ObjectMemory.Proofs.EntrySearches
import ObjectMemory.Proofs.Exhaustion
import ObjectMemory.Proofs.Extending
import ObjectMemory.Proofs.FrameViews
import ObjectMemory.Proofs.Freeing
import ObjectMemory.Proofs.GarbageCollection
import ObjectMemory.Proofs.Generations
import ObjectMemory.Proofs.History
import ObjectMemory.Proofs.Holding
import ObjectMemory.Proofs.Holes
import ObjectMemory.Proofs.InternedNames
import ObjectMemory.Proofs.Layouts
import ObjectMemory.Proofs.LinkedLists
import ObjectMemory.Proofs.Making
import ObjectMemory.Proofs.ObjectMaps
import ObjectMemory.Proofs.Offsets
import ObjectMemory.Proofs.Operation
import ObjectMemory.Proofs.Outlays
import ObjectMemory.Proofs.Primitives
import ObjectMemory.Proofs.Progress
import ObjectMemory.Proofs.PropertyMaps
import ObjectMemory.Proofs.PrototypeChains
import ObjectMemory.Proofs.Prototypes
import ObjectMemory.Proofs.Pushing
import ObjectMemory.Proofs.Reachability
import ObjectMemory.Proofs.Records
import ObjectMemory.Proofs.References
import ObjectMemory.Proofs.Registry
import ObjectMemory.Proofs.Releasing
import ObjectMemory.Proofs.Removal
import ObjectMemory.Proofs.Replacing
import ObjectMemory.Proofs.Reshaping
import ObjectMemory.Proofs.Seating
import ObjectMemory.Proofs.SharedHistories
import ObjectMemory.Proofs.SharedLayouts
import ObjectMemory.Proofs.SharedShapes
import ObjectMemory.Proofs.Shelter
import ObjectMemory.Proofs.Shifting
import ObjectMemory.Proofs.Shifts
import ObjectMemory.Proofs.Slots
import ObjectMemory.Proofs.Stamps
import ObjectMemory.Proofs.StorageKinds
import ObjectMemory.Proofs.Storing
import ObjectMemory.Proofs.Strokes
import ObjectMemory.Proofs.TableEntries
import ObjectMemory.Proofs.Traces
import ObjectMemory.Proofs.TrialDeletion
import ObjectMemory.Proofs.Turns
import ObjectMemory.Proofs.Updates
import ObjectMemory.Proofs.Variables
import ObjectMemory.Queue
import ObjectMemory.Shape
import ObjectMemory.ShapeTable
import ObjectMemory.Size
import ObjectMemory.Text.Quoted
import ObjectMemory.Text.Unprintable
import ObjectMemory.Value
