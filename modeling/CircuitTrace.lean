import CircuitTrace.Pipeline
import CircuitTrace.Statement
import CircuitTrace.Proofs.Soundness
import CircuitTrace.Proofs.Completeness
import CircuitTrace.Proofs.Rigidity
import CircuitTrace.Proofs.Acceptance
import CircuitTrace.Proofs.RoundTrip
import CircuitTrace.Proofs.Replay
import CircuitTrace.Proofs.Solving
import CircuitTrace.Proofs.Uniqueness
import CircuitTrace.Proofs.Confluence
import CircuitTrace.Proofs.Arrangement
import CircuitTrace.Proofs.StatementRoundTrip
import CircuitTrace.Proofs.Pipeline
import CircuitTrace.Proofs.Verification
import CircuitTrace.Proofs.Pruning
import CircuitTrace.Proofs.Fixpoint
import CircuitTrace.Proofs.Triangular
import CircuitTrace.Proofs.Shapes
import CircuitTrace.Proofs.Preservation
import CircuitTrace.Proofs.Offsets
import CircuitTrace.Proofs.SectionOrder
import CircuitTrace.Proofs.ChainOrder
import CircuitTrace.Proofs.MergeRounds
import CircuitTrace.Proofs.Truncation
import CircuitTrace.Proofs.Reports
import CircuitTrace.Proofs.Termination
import CircuitTrace.Proofs.Noninterference
import CircuitTrace.Proofs.SubstitutedValue
import CircuitTrace.Proofs.CompiledForm
import CircuitTrace.Proofs.RingLaws
import CircuitTrace.Proofs.EvaluationLaws
import CircuitTrace.Proofs.BitSplitting
import CircuitTrace.Proofs.FirstFailure
import CircuitTrace.Proofs.Limbs
import CircuitTrace.Proofs.IntegerResidues
import CircuitTrace.Proofs.Fingerprint
import CircuitTrace.Proofs.SectionTable
import CircuitTrace.Proofs.PolynomialText
