import Concord.Environment.Lemmas
import Concord.Machine.Session
import Concord.Main
import Concord.Proofs.Equivalence
import Concord.Proofs.Agreement
import Concord.Proofs.Handover
import Concord.Proofs.Acceptance
import Concord.Proofs.Cost
import Concord.Proofs.Footprint
import Concord.Proofs.Noninterference
import Concord.Proofs.Frame
import Concord.Proofs.Commutation
import Concord.Proofs.Operations
import Concord.Proofs.ExactArithmetic
import Concord.Proofs.Interchange
import Concord.Proofs.Selection
import Concord.Proofs.Iterations
import Concord.Proofs.Revisits
import Concord.Proofs.Itemization
import Concord.Proofs.Blocks
import Concord.Proofs.Loops
import Concord.Proofs.Divergence
import Concord.Proofs.ReportRecovery
import Concord.Proofs.ReportAccount
import Concord.Proofs.ArgumentOrder
import Concord.Proofs.NormalForms
import Concord.Proofs.Exhaustion
import Concord.Proofs.SettledResults
import Concord.Proofs.Construction
