import Lifted.Identity
import Lifted.Operator
import Lifted.Text.Hex

/-!
# Errors

A computation over expressions fails as a whole, for one of these causes.

* `EvaluationError`: a node has no value.
* `Malformation`: a tree breaks the rules of well-formed trees.
* `Error`: these two, a collaborator that could not answer, and bad options.
* `Error.message`: the wording. A function spells the identities in it.
-/

namespace Lifted

/-- Why a node has no value. -/
inductive EvaluationError where
  | divisionByZero (dividend : UInt64)
  | remainderByZero (dividend : UInt64)
  /-- A variable without a binding where every variable needs one. -/
  | unbound (name : String)
  /-- A node came to its turn before its child had a value. -/
  | operandUnsolved (child node : NodeId)
  /-- The work ended before the node had a value. -/
  | unsolved (node : NodeId)
  deriving DecidableEq, Repr

/-- How a tree breaks the rules. -/
inductive Malformation where
  /-- A constant or variable, written `text`, is not of 1 to 8 bytes. -/
  | width (node : NodeId) (text : String) (bytes : UInt8)
  | operandCount (node : NodeId) (op : Operator) (got : Nat)
  /-- An operator was given the wrong number of values. -/
  | valueCount (op : Operator) (got : Nat)
  | zeroWidth (op : Operator)
  /-- A memory read was not given the values of its address and size. -/
  | memoryValues (node : NodeId) (got : Nat)
  deriving DecidableEq, Repr

/-- Why a computation failed. -/
inductive Error where
  | evaluation (cause : EvaluationError)
  | malformed (cause : Malformation)
  /-- A register table or image could not answer. -/
  | unavailable (reason : String)
  | placeholderWidth (bytes : UInt8)
  /-- A placeholder was met that stands for nothing known. -/
  | unknownPlaceholder (id : NodeId)
  deriving DecidableEq, Repr

/-- The wording of an evaluation error, with identities spelled by `name`. -/
def EvaluationError.message (name : NodeId → String) : EvaluationError → String
  | divisionByZero dividend => s!"division by zero ({Hex.literal dividend} / 0)"
  | remainderByZero dividend => s!"remainder by zero ({Hex.literal dividend} % 0)"
  | unbound unboundName => s!"no binding for variable '{unboundName}'"
  | operandUnsolved child node => s!"operand {name child} of {name node} is unsolved"
  | unsolved node => s!"node {name node} is unsolved"

/-- The wording of a malformation, with identities spelled by `name`. -/
def Malformation.message (name : NodeId → String) : Malformation → String
  | width node text bytes => s!"node {name node} ({text}) has invalid width {bytes}"
  | operandCount node op got =>
    s!"operator {name node} ({op.name}) expects {op.arity} operands, got {got}"
  | valueCount op got => s!"operator {op.name} expects {op.arity} operands, got {got}"
  | zeroWidth op => s!"operator {op.name} has a zero width"
  | memoryValues node got => s!"memory node {name node} needs 2 solved children, got {got}"

namespace Error

/-- The wording of an error, with identities spelled by `name`. -/
def message (name : NodeId → String) : Error → String
  | evaluation cause => "Evaluation failed - " ++ cause.message name
  | malformed cause => "Malformed tree - " ++ cause.message name
  | unavailable reason => "Collaborator unavailable - " ++ reason
  | placeholderWidth bytes => s!"invalid placeholder width {bytes} (expected 1, 2, 4 or 8)"
  | unknownPlaceholder id => s!"placeholder {name id} has no recorded original"

/-- The error is a missing value. -/
def isEvaluation : Error → Bool
  | evaluation _ => true
  | _ => false

end Error
end Lifted
