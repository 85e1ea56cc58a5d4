import ObjectStore.Bytes.Hex
import ObjectStore.Object.Sample
import ObjectStore.World.Depots
import ObjectStore.Proofs.Object.Codec
import ObjectStore.Proofs.Object.Lengths
import ObjectStore.Proofs.Object.Key
import ObjectStore.Proofs.Engine.Table
import ObjectStore.Proofs.Engine.Log
import ObjectStore.Proofs.Engine.Records
import ObjectStore.Proofs.Engine.Canonical
import ObjectStore.Proofs.Bytes.Crc32
import ObjectStore.Proofs.Engine.Disk
import ObjectStore.Proofs.Engine.Directory
import ObjectStore.Proofs.Engine.Persistence
import ObjectStore.Proofs.Depot.Access
import ObjectStore.Proofs.Depot.Entries
import ObjectStore.Proofs.Depot.Representation
import ObjectStore.Proofs.World.Held
import ObjectStore.Proofs.World.Moves
import ObjectStore.Proofs.World.Calls
import ObjectStore.Proofs.World.Lending
import ObjectStore.Proofs.World.Runs
import ObjectStore.Proofs.World.Tracked
import ObjectStore.Proofs.Depot.History
import ObjectStore.Proofs.Depot.Overlay
import ObjectStore.Proofs.World.Healthy
import ObjectStore.Proofs.Depot.Refinement
import ObjectStore.Proofs.World.Refinement
import ObjectStore.Proofs.World.Isolation
import ObjectStore.Proofs.World.Commits
import ObjectStore.Proofs.World.Recovery
import ObjectStore.Proofs.Depot.Merge
import ObjectStore.Proofs.World.Books
import ObjectStore.Proofs.World.Ledger
import ObjectStore.Proofs.Engine.Place
import ObjectStore.Proofs.World.Pushes
import ObjectStore.Proofs.World.Audit
import ObjectStore.Proofs.World.Agreement
import ObjectStore.Proofs.World.Repeats
import ObjectStore.Proofs.Depot.Calls
import ObjectStore.Proofs.Depot.Failures
import ObjectStore.Proofs.World.Answers
import ObjectStore.Proofs.World.Outcomes
import ObjectStore.Proofs.World.Noninterference
import ObjectStore.Proofs.Engine.Opening
import ObjectStore.Proofs.Engine.Locking
import ObjectStore.Proofs.World.Guards
import ObjectStore.Proofs.World.Custody
import ObjectStore.Proofs.World.Events
import ObjectStore.Proofs.World.Deliveries
import ObjectStore.Proofs.World.Verdicts
import ObjectStore.Proofs.World.Settlement
import ObjectStore.Proofs.World.Updates
import ObjectStore.Proofs.World.Aside
import ObjectStore.Proofs.World.Names
import ObjectStore.Proofs.World.Closed
import ObjectStore.Proofs.World.Deals
import ObjectStore.Proofs.World.Sharing
import ObjectStore.Proofs.World.Lifecycle
import ObjectStore.Proofs.World.Shifts
import ObjectStore.Proofs.World.Writers
import ObjectStore.Proofs.World.Exclusive
import ObjectStore.Proofs.Engine.Alteration
import ObjectStore.Proofs.Engine.Salvage
import ObjectStore.Proofs.World.Salvage
import ObjectStore.Proofs.Depot.Lookup
import ObjectStore.Proofs.Depot.Listing
import ObjectStore.Proofs.World.Reads
import ObjectStore.Proofs.Object.Segments
import ObjectStore.Proofs.Object.Framing
import ObjectStore.Proofs.Cbor.Items
import ObjectStore.Proofs.World.Batches
import ObjectStore.Proofs.Cbor.Spelling
import ObjectStore.Proofs.Cbor.Broken
import ObjectStore.Proofs.Object.Tolerance
import ObjectStore.Proofs.Engine.Checksums
import ObjectStore.Proofs.Engine.Scans
import ObjectStore.Proofs.Object.Summary
import ObjectStore.Proofs.World.Summaries
import ObjectStore.Proofs.World.Orderly
import ObjectStore.Proofs.World.Parting
import ObjectStore.Proofs.World.Dealings
import ObjectStore.Proofs.World.Bookkeeping
