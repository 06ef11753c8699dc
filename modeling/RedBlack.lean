import RedBlack.Action
import RedBlack.Arena
import RedBlack.Failure
import RedBlack.Fault
import RedBlack.Forest
import RedBlack.Handle
import RedBlack.Key
import RedBlack.OrderedMap
import RedBlack.Query
import RedBlack.Seed
import RedBlack.Shape
import RedBlack.Shape.Growth
import RedBlack.Shape.Path
import RedBlack.Shape.Pruning
import RedBlack.Shape.Rotation
import RedBlack.Side
import RedBlack.Sorted.Bag
import RedBlack.Sorted.Map
import RedBlack.Sorted.MultiMap
import RedBlack.Sorted.Set
import RedBlack.Store
import RedBlack.Text.Listing
import RedBlack.Text.Printable
import RedBlack.Text.Quoted
import RedBlack.Tree.Basic
import RedBlack.Tree.Insertion
import RedBlack.Tree.Removal
import RedBlack.Tree.Replica
import RedBlack.Tree.Search
import RedBlack.Tree.Vacancy
import RedBlack.Tree.View
import RedBlack.Tree.Walk
import RedBlack.Proofs.Action
import RedBlack.Proofs.AnyComparator
import RedBlack.Proofs.Ascending
import RedBlack.Proofs.AssocMap
import RedBlack.Proofs.Classes
import RedBlack.Proofs.Forest
import RedBlack.Proofs.Identities
import RedBlack.Proofs.LivePositions
import RedBlack.Proofs.Matching
import RedBlack.Proofs.Order
import RedBlack.Proofs.OrderedMap
import RedBlack.Proofs.Queues
import RedBlack.Proofs.Seed
import RedBlack.Proofs.Shape.Balance
import RedBlack.Proofs.Shape.Growth
import RedBlack.Proofs.Shape.Height
import RedBlack.Proofs.Shape.Holes
import RedBlack.Proofs.Shape.Linkage
import RedBlack.Proofs.Shape.Links
import RedBlack.Proofs.Shape.Loops
import RedBlack.Proofs.Shape.Mirror
import RedBlack.Proofs.Shape.Pruning
import RedBlack.Proofs.Shape.Renaming
import RedBlack.Proofs.Shape.Rotation
import RedBlack.Proofs.Shape.Rounds
import RedBlack.Proofs.Shape.Symmetry
import RedBlack.Proofs.Shape.Zoom
import RedBlack.Proofs.Sorted.Distinct
import RedBlack.Proofs.Sorted.Map
import RedBlack.Proofs.Sorted.Queues
import RedBlack.Proofs.Sorted.Set
import RedBlack.Proofs.Sorted.StableOrder
import RedBlack.Proofs.StableOrder
import RedBlack.Proofs.Stopping
import RedBlack.Proofs.Store.Arena
import RedBlack.Proofs.Store.History
import RedBlack.Proofs.Store.Holding
import RedBlack.Proofs.Store.Layers
import RedBlack.Proofs.Store.Relinking
import RedBlack.Proofs.Store.Reuse
import RedBlack.Proofs.Store.Supply
import RedBlack.Proofs.Tree.Budget
import RedBlack.Proofs.Tree.BuiltInPlace
import RedBlack.Proofs.Tree.Commands
import RedBlack.Proofs.Tree.Coupling
import RedBlack.Proofs.Tree.Distinct
import RedBlack.Proofs.Tree.Draining
import RedBlack.Proofs.Tree.Effort
import RedBlack.Proofs.Tree.Entries
import RedBlack.Proofs.Tree.Equality
import RedBlack.Proofs.Tree.Failures
import RedBlack.Proofs.Tree.Foreign
import RedBlack.Proofs.Tree.Granted
import RedBlack.Proofs.Tree.Hints
import RedBlack.Proofs.Tree.Indices
import RedBlack.Proofs.Tree.Inquiries
import RedBlack.Proofs.Tree.Insertion
import RedBlack.Proofs.Tree.Layered
import RedBlack.Proofs.Tree.Linked
import RedBlack.Proofs.Tree.Lockstep
import RedBlack.Proofs.Tree.Lockstep.Insertion
import RedBlack.Proofs.Tree.Lockstep.Removal
import RedBlack.Proofs.Tree.Lookups
import RedBlack.Proofs.Tree.Loops
import RedBlack.Proofs.Tree.Mirror
import RedBlack.Proofs.Tree.Nearest
import RedBlack.Proofs.Tree.NoTrace
import RedBlack.Proofs.Tree.Ownership
import RedBlack.Proofs.Tree.Queued
import RedBlack.Proofs.Tree.RangeRemoval
import RedBlack.Proofs.Tree.Ranges
import RedBlack.Proofs.Tree.Readers
import RedBlack.Proofs.Tree.Removal
import RedBlack.Proofs.Tree.Replica
import RedBlack.Proofs.Tree.Requests
import RedBlack.Proofs.Tree.ReversedRanges
import RedBlack.Proofs.Tree.Rollback
import RedBlack.Proofs.Tree.Rotation
import RedBlack.Proofs.Tree.Runs
import RedBlack.Proofs.Tree.Safety
import RedBlack.Proofs.Tree.Search
import RedBlack.Proofs.Tree.Stability
import RedBlack.Proofs.Tree.StableOrder
import RedBlack.Proofs.Tree.Steps
import RedBlack.Proofs.Tree.Teardown
import RedBlack.Proofs.Tree.Transparency
import RedBlack.Proofs.Tree.Twins
import RedBlack.Proofs.Tree.Unhindered
import RedBlack.Proofs.Tree.Uniqueness
import RedBlack.Proofs.Tree.Vacancy
import RedBlack.Proofs.Tree.Walk
import RedBlack.Proofs.Wired.Basic
import RedBlack.Proofs.Wired.Carrying
import RedBlack.Proofs.Wired.Copying
import RedBlack.Proofs.Wired.Focus
import RedBlack.Proofs.Wired.Forest
import RedBlack.Proofs.Wired.Growth
import RedBlack.Proofs.Wired.LackRepair
import RedBlack.Proofs.Wired.Mirror
import RedBlack.Proofs.Wired.Overlays
import RedBlack.Proofs.Wired.Pruning
import RedBlack.Proofs.Wired.RedRepair
import RedBlack.Proofs.Wired.Requests
import RedBlack.Proofs.Wired.Rotation
import RedBlack.Proofs.Wired.Runs
import RedBlack.Proofs.Wired.Sorted
import RedBlack.Proofs.Wired.Splicing
import RedBlack.Proofs.Wired.Sprouts
import RedBlack.Proofs.Wired.Stepping
import RedBlack.Proofs.Wired.WellFormed
