import Lifted.Error
import Lifted.Evaluation.Bindings
import Lifted.Expr.Basic

/-!
# Evaluators

An evaluator gives trees a value, at once or node by node.

* `Evaluator`: the two ways of evaluating.
* `Evaluator.treewise`: evaluates a node as the tree it stands for.
* `Evaluator.fixed`: one value for every node.
-/

namespace Lifted

/-- A way to evaluate expressions under bindings. -/
structure Evaluator where
  /-- The value of a tree. -/
  onTree : Bindings → Expr → Except Error UInt64
  /-- The value of a node from the values of its children, given in their order. -/
  onNode : Bindings → Expr → List UInt64 → Except Error UInt64

namespace Evaluator

/-- Evaluates each node as a tree, and has no use for the values of its children. -/
def treewise (onTree : Bindings → Expr → Except Error UInt64) : Evaluator :=
  ⟨onTree, fun b e _ => onTree b e⟩

/-- Gives every node the same value. -/
def fixed (value : UInt64) : Evaluator := ⟨fun _ _ => .ok value, fun _ _ _ => .ok value⟩

end Evaluator
end Lifted
