import NodeForest.Catalogue
import NodeForest.Decimal.Shortest
import NodeForest.Edit
import NodeForest.Forest
import NodeForest.Forest.Adoption
import NodeForest.Forest.ItemCursor
import NodeForest.Forest.Layout
import NodeForest.Forest.ListEdits
import NodeForest.Forest.Outcome
import NodeForest.Forest.Reclaim
import NodeForest.Forest.Replace
import NodeForest.Forest.SlotEdits
import NodeForest.Forest.Snapshot
import NodeForest.Journal
import NodeForest.Json
import NodeForest.Json.Compact
import NodeForest.Json.Number
import NodeForest.Json.Reader
import NodeForest.Json.Token
import NodeForest.Kind
import NodeForest.Kind.Layout
import NodeForest.Kind.SlotCursor
import NodeForest.Node
import NodeForest.Session
import NodeForest.Slot
import NodeForest.Snapshot
import NodeForest.Snapshot.Decode
import NodeForest.Snapshot.DecodeError
import NodeForest.Snapshot.Encode
import NodeForest.Text.Layout
import NodeForest.Text.Quoted
import NodeForest.TreeError
import NodeForest.Proofs.HandOver
import NodeForest.Proofs.Storage
import NodeForest.Proofs.Rewiring
import NodeForest.Proofs.Moves
import NodeForest.Proofs.ParentAccuracy
import NodeForest.Proofs.SelfHolding
import NodeForest.Proofs.LastAdopter
import NodeForest.Proofs.SingleOwner
import NodeForest.Proofs.Settled
import NodeForest.Proofs.Refusals
import NodeForest.Proofs.ReplaceByParent
import NodeForest.Proofs.ItemReplacement
import NodeForest.Proofs.RewritePass
import NodeForest.Proofs.Places
import NodeForest.Proofs.ChildReplacement
import NodeForest.Proofs.Commutation
import NodeForest.Proofs.Displacement
import NodeForest.Proofs.Reach
import NodeForest.Proofs.SnapshotRecursion
import NodeForest.Proofs.Acyclicity
import NodeForest.Proofs.Paths
import NodeForest.Proofs.Substitution
import NodeForest.Proofs.Composition
import NodeForest.Proofs.Lifetimes
import NodeForest.Proofs.SingleReplacement
import NodeForest.Proofs.DecodedMembers
import NodeForest.Proofs.MemberOrder
import NodeForest.Proofs.SpelledSnapshots
import NodeForest.Proofs.SnapshotDecoding
import NodeForest.Proofs.RepeatedRemoval
import NodeForest.Proofs.Untouched
import NodeForest.Proofs.Iteration
import NodeForest.Proofs.SnapshotText
import NodeForest.Proofs.SlotReading
import NodeForest.Proofs.KindOrder
import NodeForest.Proofs.Outlines
import NodeForest.Proofs.SlotLookup
