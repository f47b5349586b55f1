import StackFlow.Builder
import StackFlow.Listing
import StackFlow.Machine
import StackFlow.Main
import StackFlow.Offset
import StackFlow.Packed.Builder
import StackFlow.Packed.Run
import StackFlow.Proofs.Annotations
import StackFlow.Proofs.Certificate
import StackFlow.Proofs.Exactness
import StackFlow.Proofs.Ledger
import StackFlow.Proofs.Lengths
import StackFlow.Proofs.ListingText
import StackFlow.Proofs.Offsets
import StackFlow.Proofs.Placement
import StackFlow.Proofs.Pushes
import StackFlow.Proofs.Reassembly
import StackFlow.Proofs.Rejections
import StackFlow.Proofs.Resolution
import StackFlow.Proofs.RowOrder
import StackFlow.Proofs.Scan
import StackFlow.Proofs.SharedBodies
import StackFlow.Proofs.SourceText
import StackFlow.Proofs.Storage
import StackFlow.Proofs.Tightening
import StackFlow.Proofs.Views
import StackFlow.Proofs.WaitNumbers
import StackFlow.Proofs.Work
import StackFlow.Runs
