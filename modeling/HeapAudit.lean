import HeapAudit.Audit.Document
import HeapAudit.Audit.Trace
import HeapAudit.Dump.Registry
import HeapAudit.Engine.DriverRoots
import HeapAudit.Engine.Objects
import HeapAudit.Engine.Sessions
import HeapAudit.Engine.Unwinding
import HeapAudit.Engine.Values
import HeapAudit.Heap.Listing
import HeapAudit.Settings.Document
import HeapAudit.Proofs.Audit.CleanReport
import HeapAudit.Proofs.Audit.Following
import HeapAudit.Proofs.Audit.Held
import HeapAudit.Proofs.Audit.Overwriting
import HeapAudit.Proofs.Audit.Progress
import HeapAudit.Proofs.Audit.ReadOnly
import HeapAudit.Proofs.Audit.Sharing
import HeapAudit.Proofs.Audit.Story
import HeapAudit.Proofs.Dump.Confinement
import HeapAudit.Proofs.Dump.Totals
import HeapAudit.Proofs.Engine.Blame
import HeapAudit.Proofs.Engine.DriverRoots
import HeapAudit.Proofs.Engine.Failing
import HeapAudit.Proofs.Engine.Identifiers
import HeapAudit.Proofs.Engine.Layouts
import HeapAudit.Proofs.Engine.Leaks
import HeapAudit.Proofs.Engine.Pinning
import HeapAudit.Proofs.Engine.Reclaiming
import HeapAudit.Proofs.Engine.Settling
import HeapAudit.Proofs.Heap.Histories
import HeapAudit.Proofs.Heap.Listing
import HeapAudit.Proofs.Heap.Rendering
import HeapAudit.Proofs.Heap.Stock
import HeapAudit.Proofs.Settings.Overrides
