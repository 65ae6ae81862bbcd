import FairShare.Decimal.Read
import FairShare.Guard
import FairShare.Proofs.Access
import FairShare.Proofs.Admissions
import FairShare.Proofs.Applicable
import FairShare.Proofs.Assignment
import FairShare.Proofs.Built
import FairShare.Proofs.Canonical
import FairShare.Proofs.Coherent
import FairShare.Proofs.Completions
import FairShare.Proofs.Conservation
import FairShare.Proofs.Consistent
import FairShare.Proofs.Counting
import FairShare.Proofs.Cut
import FairShare.Proofs.Detached
import FairShare.Proofs.Draining
import FairShare.Proofs.Endings
import FairShare.Proofs.Exhaustion
import FairShare.Proofs.Fitting
import FairShare.Proofs.Fresh
import FairShare.Proofs.Fruitless
import FairShare.Proofs.Granting
import FairShare.Proofs.Growth
import FairShare.Proofs.Handing
import FairShare.Proofs.Joined
import FairShare.Proofs.Ledger
import FairShare.Proofs.Naming
import FairShare.Proofs.Offer
import FairShare.Proofs.Origin
import FairShare.Proofs.Overshoot
import FairShare.Proofs.Oversubscription
import FairShare.Proofs.Pacing
import FairShare.Proofs.Passes
import FairShare.Proofs.Preemption
import FairShare.Proofs.Ranked
import FairShare.Proofs.Reclaiming
import FairShare.Proofs.Recoding
import FairShare.Proofs.Recount
import FairShare.Proofs.Refresh
import FairShare.Proofs.Rehearsal
import FairShare.Proofs.Reordered
import FairShare.Proofs.Repeat
import FairShare.Proofs.Sated
import FairShare.Proofs.Saving
import FairShare.Proofs.Segments
import FairShare.Proofs.Serving
import FairShare.Proofs.Shape
import FairShare.Proofs.Shedding
import FairShare.Proofs.Starvation
import FairShare.Proofs.Structure
import FairShare.Proofs.Sum
import FairShare.Proofs.System
import FairShare.Proofs.Unmet
import FairShare.Proofs.Usage
import FairShare.Proofs.Walk
import FairShare.Session.Run
