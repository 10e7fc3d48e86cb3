import BoundaryTag.Proofs.Separation
import BoundaryTag.Proofs.DoubleFree
import BoundaryTag.Proofs.CheckVerdict
import BoundaryTag.Proofs.ExactReports
import BoundaryTag.Proofs.DamageDetection
import BoundaryTag.Proofs.Progress
import BoundaryTag.Proofs.Soundness
import BoundaryTag.Proofs.Refinement
import BoundaryTag.Proofs.Relocation
import BoundaryTag.Proofs.FreedInAnyOrder
import BoundaryTag.Proofs.Recycling
import BoundaryTag.Proofs.JournalReplay
import BoundaryTag.Proofs.PayloadsUnseen
import BoundaryTag.Proofs.BytesBelow
import BoundaryTag.Proofs.Accounting
import BoundaryTag.Proofs.Requests
import BoundaryTag.Proofs.Resizing
import BoundaryTag.Proofs.LiveBlockSizes
import BoundaryTag.Proofs.LayoutOutcome
import BoundaryTag.Proofs.SearchComplete
import BoundaryTag.Proofs.ListEdits
import BoundaryTag.Proofs.MappingContract
