import Bindery.Ast.Builder
import Bindery.Proofs.Totality
import Bindery.Proofs.Captures
import Bindery.Proofs.Exhaustiveness
import Bindery.Proofs.Soundness
import Bindery.Proofs.ExplicitArguments
import Bindery.Proofs.SignatureAgreement
import Bindery.Proofs.RootCauses
import Bindery.Proofs.ParallelBinding
import Bindery.Proofs.ReturnSoundness
import Bindery.Proofs.SessionHistory
import Bindery.Proofs.ReferentialClosure
import Bindery.Proofs.ControlFlow
import Bindery.Proofs.MatchIssues
import Bindery.Proofs.Construction
import Bindery.Proofs.Inference
import Bindery.Proofs.RecordShape
import Bindery.Proofs.SilentPatterns
import Bindery.Proofs.BranchTyping
import Bindery.Proofs.Positions
import Bindery.Proofs.RegistryHistory
import Bindery.Proofs.ScopeHistory
import Bindery.Proofs.Configuration
import Bindery.Proofs.JsonReading
import Bindery.Proofs.ValueCalls
import Bindery.Proofs.TypeRendering
import Bindery.Proofs.TreePositions
