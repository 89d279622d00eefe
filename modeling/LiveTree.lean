import LiveTree.Engine.Method
import LiveTree.Patch.Decoder
import LiveTree.Proofs.Document.Lookup
import LiveTree.Proofs.Document.Forest
import LiveTree.Proofs.Document.Walk
import LiveTree.Proofs.Document.Growth
import LiveTree.Proofs.Document.Pruning
import LiveTree.Proofs.Document.Order
import LiveTree.Proofs.NameIndex
import LiveTree.Proofs.Kind
import LiveTree.Proofs.Conduct
import LiveTree.Proofs.Engine.Outcome
import LiveTree.Proofs.Engine.Edit
import LiveTree.Proofs.Engine.Equations
import LiveTree.Proofs.Engine.Rendering
import LiveTree.Proofs.Engine.Invariant
import LiveTree.Proofs.Engine.Run
import LiveTree.Proofs.Engine.Visit
import LiveTree.Proofs.Engine.Nesting
import LiveTree.Proofs.Engine.UpToDate
import LiveTree.Proofs.Engine.Naming
import LiveTree.Proofs.Engine.UniqueNames
import LiveTree.Proofs.Patch.Mirror
import LiveTree.Proofs.Engine.Mirroring
import LiveTree.Proofs.Engine.LiveForest
import LiveTree.Proofs.Engine.Meaning
import LiveTree.Proofs.Engine.DocumentOrder
import LiveTree.Proofs.Json.Yields
import LiveTree.Proofs.Engine.StandardDispatch
import LiveTree.Proofs.Engine.Hosts
import LiveTree.Proofs.Engine.NameAttribute
import LiveTree.Proofs.Engine.Transport
import LiveTree.Proofs.Engine.StructuredProps
import LiveTree.Proofs.Json.Decoding
import LiveTree.Proofs.TreeText
import LiveTree.Proofs.Patch.Text
import LiveTree.Proofs.Engine.IdleDispatch
import LiveTree.Proofs.Engine.ListenerEffects
import LiveTree.Proofs.Engine.KnownKinds
import LiveTree.Proofs.Engine.Removal
import LiveTree.Proofs.Engine.Restoration
import LiveTree.Proofs.Engine.Loading
import LiveTree.Proofs.Engine.Batching
import LiveTree.Proofs.Engine.MountOrder
import LiveTree.Proofs.Engine.IndependentWrites
import LiveTree.Proofs.Engine.LateProps
import LiveTree.Proofs.Engine.Wiring
import LiveTree.Proofs.Engine.EncodedAttributes
import LiveTree.Proofs.Engine.ListenerRing
import LiveTree.Proofs.Engine.RemovedTarget
import LiveTree.Proofs.Engine.Addressing
import LiveTree.Proofs.NameIndex.History
import LiveTree.Proofs.Engine.Traversal
