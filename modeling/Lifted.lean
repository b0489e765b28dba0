import Lifted.Text.Hex
import Lifted.Text.Sha1
import Lifted.Width
import Lifted.Operator
import Lifted.Identity
import Lifted.Expr.Text
import Lifted.Expr.Equality
import Lifted.Expr.Position
import Lifted.Walk
import Lifted.Walk.Recursive
import Lifted.Error
import Lifted.Operator.Arithmetic
import Lifted.Expr.WellFormed
import Lifted.Evaluation.Bindings
import Lifted.Evaluation.Memo
import Lifted.Evaluation.Evaluator
import Lifted.Evaluation.Semantics
import Lifted.Evaluation.Recursive
import Lifted.Registers
import Lifted.Image
import Lifted.Canonical.Options
import Lifted.Canonical.Population
import Lifted.Canonical.Journal
import Lifted.Canonical.Placeholder
import Lifted.Canonical.Ranking
import Lifted.Canonical.Numbering
import Lifted.Canonical.Renaming
import Lifted.Canonical.Canonicalize
import Lifted.Proofs.Expr.Heap
import Lifted.Proofs.Run
import Lifted.Proofs.Walk.Frames
import Lifted.Proofs.Walk.Mint
import Lifted.Proofs.Walk.Replacing
import Lifted.Proofs.Evaluation.Content
import Lifted.Proofs.Evaluation.Memo
import Lifted.Proofs.Expr.Validation
import Lifted.Proofs.Expr.Commute
import Lifted.Proofs.Canonical.Roles
import Lifted.Proofs.Canonical.Tagging
import Lifted.Proofs.Canonical.Occurrences
import Lifted.Proofs.Canonical.Numbering
import Lifted.Proofs.Canonical.Outcome
import Lifted.Proofs.Canonical.Substitution
import Lifted.Proofs.Expr.Alike
import Lifted.Proofs.Canonical.Separation
import Lifted.Proofs.Canonical.Values
import Lifted.Proofs.Canonical.Invariance
import Lifted.Proofs.Canonical.Order
import Lifted.Proofs.Canonical.Standing
import Lifted.Proofs.Canonical.Meaning
import Lifted.Proofs.Canonical.Hygiene
import Lifted.Proofs.Expr.Equality
import Lifted.Proofs.Canonical.Congruence
import Lifted.Proofs.Canonical.Failure
import Lifted.Proofs.Canonical.WellFormed
import Lifted.Proofs.Canonical.Idempotence
import Lifted.Proofs.Expr.Renumbering
import Lifted.Proofs.Lockstep
import Lifted.Proofs.Walk.Lockstep
import Lifted.Proofs.Evaluation.Indifference
import Lifted.Proofs.Canonical.Lockstep
import Lifted.Proofs.Canonical.Allocation
import Lifted.Proofs.Evaluation.Denotation
import Lifted.Proofs.Evaluation.Treewise
import Lifted.Proofs.Walk.Rules
import Lifted.Proofs.Canonical.Noninterference
import Lifted.Proofs.Canonical.Treewise
import Lifted.Proofs.Operator.Exact
import Lifted.Proofs.Evaluation.Calls
import Lifted.Proofs.Canonical.Calls
import Lifted.Proofs.Canonical.Collisions
import Lifted.Proofs.Expr.Place
import Lifted.Proofs.Walk.Sharing
import Lifted.Proofs.Canonical.Stages
import Lifted.Proofs.Canonical.Sharing
import Lifted.Proofs.Image.Location
import Lifted.Proofs.Expr.Observers
import Lifted.Proofs.Evaluation.Definedness
import Lifted.Proofs.Text.Hex
import Lifted.Proofs.Expr.Text
import Lifted.Proofs.Text.Order
import Lifted.Proofs.Canonical.Fingerprint
