import Bess.Engine.Atomicity
import Bess.Engine.Integrity
import Bess.Flow.Decisions
import Bess.Flow.Publication
import Bess.Napt.RoundTrip
import Bess.Conntrack.Establishment
import Bess.Conntrack.Deadlines
import Bess.Route.Placeholders
import Bess.Route.Table6Runs
import Bess.Route.Forward
import Bess.Classifier.FirstMatch
import Bess.Expiry.Budgets
import Bess.Flow.Handles
import Bess.Napt.Checksums
import Bess.Route.Election
import Bess.Select.Weighted
import Bess.Select.Rendezvous
import Bess.Expiry.TickRate
import Bess.Control.Paging
import Bess.Classifier.Records
import Bess.Classifier.Kernels
import Bess.Utils.Shifts
import Bess.Utils.McsLock
