import Patchwork.Diff.Reader
import Patchwork.Main
import Patchwork.Proofs.Apply.Effect
import Patchwork.Proofs.Apply.Reorder
import Patchwork.Proofs.Apply.Scene
import Patchwork.Proofs.Apply.Tracking
import Patchwork.Proofs.Canonical
import Patchwork.Proofs.Codec
import Patchwork.Proofs.CommandLine
import Patchwork.Proofs.Diff.Grouping
import Patchwork.Proofs.Diff.RoundTrip
import Patchwork.Proofs.Diff.Shortest
import Patchwork.Proofs.Diff.Splitting
import Patchwork.Proofs.Lock.Accounting
import Patchwork.Proofs.Lock.Waiting
import Patchwork.Proofs.OnePass
import Patchwork.Proofs.Patch.FirstMarker
import Patchwork.Proofs.Patch.Operations
import Patchwork.Proofs.Patch.Unambiguous
import Patchwork.Proofs.Placement.Context
import Patchwork.Proofs.Placement.Insertion
import Patchwork.Proofs.Placement.Rebuild
import Patchwork.Proofs.Placement.Tail
import Patchwork.Proofs.Placement.Verbatim
import Patchwork.Proofs.Tier
import Patchwork.Proofs.Tool.Encoding
import Patchwork.Proofs.Tool.Session
