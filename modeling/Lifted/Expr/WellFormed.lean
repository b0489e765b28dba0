import Lifted.Error
import Lifted.Expr.Position
import Lifted.Expr.Text
import Std.Data.HashSet

/-!
# Well-formed trees

Constants and variables are 1 to 8 bytes wide, and operators have as many operands as they need.

* `Expr.fault`: the rule that a node breaks by itself.
* `Expr.WellFormed`: no node of a tree breaks a rule.
* `Expr.validate`: looks at the nodes one by one, each once, and fails at the first that breaks a
  rule. The last child of a node comes first, with all below it.
-/

namespace Lifted
namespace Expr

/-- The rule that the node itself breaks, whatever its children are. -/
def fault (e : Expr) : Option Malformation :=
  match e with
  | .const id _ bytes | .var id _ bytes _ =>
    if bytes = 0 ∨ 8 < bytes then some (.width id e.text bytes) else none
  | .mem .. => none
  | .op id kind operands =>
    if operands.length = kind.arity then none
    else some (.operandCount id kind operands.length)

/-- Every node of the tree keeps the rules. -/
def WellFormed (e : Expr) : Prop := ∀ x ∈ e.nodes, x.fault = none

/-- Looks at the trees in `pending` and all below them, the first one first, except for nodes whose
identity is in `seen`. -/
def validateAll (seen : Std.HashSet NodeId) : List Expr → Except Error Unit
  | [] => .ok ()
  | e :: rest =>
    if seen.contains e.id then validateAll seen rest
    else
      match e.fault with
      | some cause => .error (.malformed cause)
      | none => validateAll (seen.insert e.id) (e.children.reverse ++ rest)
termination_by pending => sizes pending
decreasing_by
  · have := size_pos e
    simp only [sizes]
    omega
  · have := size_eq e
    simp only [sizes, sizes_append, sizes_reverse]
    omega

/-- Fails at the first node of `e` that breaks a rule. -/
def validate (e : Expr) : Except Error Unit := validateAll ∅ [e]

end Expr
end Lifted
