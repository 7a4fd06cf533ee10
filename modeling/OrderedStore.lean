import OrderedStore.Main
import OrderedStore.Session.Queues
import OrderedStore.Session.Maps
import OrderedStore.Session.Workbench
import OrderedStore.Proofs.OrderedMap.WellFormed
import OrderedStore.Proofs.Tree.Walk
import OrderedStore.Proofs.OrderedMap.Reference
import OrderedStore.Proofs.Simulation.Agree
import OrderedStore.Proofs.Simulation.Iterator
import OrderedStore.Proofs.Simulation.Store
import OrderedStore.Proofs.Simulation.Session
import OrderedStore.Proofs.Memory.Range
import OrderedStore.Proofs.Backend.Reference
import OrderedStore.Proofs.Backend.Engine
import OrderedStore.Proofs.Backend.Faultless
import OrderedStore.Proofs.Backend.Interchange
import OrderedStore.Proofs.Memory.Snapshot
import OrderedStore.Proofs.Memory.Walker
import OrderedStore.Proofs.Backend.Failing
import OrderedStore.Proofs.Transaction.Effect
import OrderedStore.Proofs.Transaction.Scripts
import OrderedStore.Proofs.Session.Batches
import OrderedStore.Proofs.View.Reads
import OrderedStore.Proofs.View.Ranges
import OrderedStore.Proofs.View.Standalone
import OrderedStore.Proofs.View.Single
import OrderedStore.Proofs.View.Independent
import OrderedStore.Proofs.Session.Contract
import OrderedStore.Proofs.Session.Progress
import OrderedStore.Proofs.Session.Applied
import OrderedStore.Proofs.Session.Keys
import OrderedStore.Proofs.Transaction.Once
import OrderedStore.Proofs.CommandLine
import OrderedStore.Proofs.Session.Cursors
import OrderedStore.Proofs.Session.Views
import OrderedStore.Proofs.Session.Held
import OrderedStore.Proofs.OrderedMap.Visitors
import OrderedStore.Proofs.Dump.Bounded
import OrderedStore.Proofs.Dump.Lossless
import OrderedStore.Proofs.OrderedMap.Depth
import OrderedStore.Proofs.View.Stats
import OrderedStore.Proofs.Config.Members
import OrderedStore.Proofs.Tree.Insertions
import OrderedStore.Proofs.OrderedMap.Untouched
