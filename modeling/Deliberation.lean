import Deliberation.Agent.Inspection
import Deliberation.Belief.OfDocument
import Deliberation.Value.Tagged
import Deliberation.Proofs.Agent.Accounting
import Deliberation.Proofs.Agent.Journal
import Deliberation.Proofs.Belief.Refinement
import Deliberation.Proofs.Matching.Pairing
import Deliberation.Proofs.Matching.Instance
import Deliberation.Proofs.Belief.Filing
import Deliberation.Proofs.Matching.Binding
import Deliberation.Proofs.Matching.Unification
import Deliberation.Proofs.Matching.Acyclic
import Deliberation.Proofs.Matching.FastPath
import Deliberation.Proofs.Term.Identity
import Deliberation.Proofs.Matching.Soundness
import Deliberation.Proofs.Execution.Frame
import Deliberation.Proofs.Execution.Announcement
import Deliberation.Proofs.Belief.Acyclic
import Deliberation.Proofs.Matching.Rejection
import Deliberation.Proofs.Mirror
import Deliberation.Proofs.Term.Renaming
import Deliberation.Proofs.Term.ContextRenaming
import Deliberation.Proofs.Belief.Renaming
import Deliberation.Proofs.Matching.Renaming
import Deliberation.Proofs.Plan.Renaming
import Deliberation.Proofs.Execution.Renaming
import Deliberation.Proofs.Execution.Hygiene
import Deliberation.Proofs.Matching.Cleared
import Deliberation.Proofs.Plan.Remainder
import Deliberation.Proofs.Execution.Interchange
import Deliberation.Proofs.Term.Writing
import Deliberation.Proofs.Matching.Attempts
import Deliberation.Proofs.Execution.Shape
import Deliberation.Proofs.Execution.Conflict
import Deliberation.Proofs.Execution.Outputs
import Deliberation.Proofs.Execution.Locality
import Deliberation.Proofs.Matching.Interleaving
import Deliberation.Proofs.Table
import Deliberation.Proofs.Plan.Roster
import Deliberation.Proofs.Belief.Orderly
import Deliberation.Proofs.Belief.Reads
import Deliberation.Proofs.Copy.Independence
import Deliberation.Proofs.Term.Grounding
import Deliberation.Proofs.Matching.Commitment
import Deliberation.Proofs.Plan.Comparison
import Deliberation.Proofs.Matching.Structural
import Deliberation.Proofs.Fuzzy.Collectors
import Deliberation.Proofs.Execution.Sequence
import Deliberation.Proofs.Execution.Selection
import Deliberation.Proofs.Execution.Parallel
import Deliberation.Proofs.Term.Keys
import Deliberation.Proofs.Belief.Mutation
import Deliberation.Proofs.Belief.Attaching
import Deliberation.Proofs.Execution.Enumeration
import Deliberation.Proofs.Belief.OnDemand
import Deliberation.Proofs.Belief.Stripping
import Deliberation.Proofs.Path.Text
import Deliberation.Proofs.Term.Structure
import Deliberation.Proofs.Plan.Boxing
