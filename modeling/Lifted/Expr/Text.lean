import Lifted.Expr.Basic
import Lifted.Text.Hex

/-!
# The text of an expression

* `Expr.text`: constants in hexadecimal, variables by their label or else by their name, memory
  reads as `mem[address:size]`, one operand behind its symbol, two around it in parentheses, and any
  other number of operands in a list behind the operator's name.
* `Expr.taggedText`: the same behind the node's identity.
-/

namespace Lifted
namespace Expr

mutual

/-- The written form. Identities and widths do not show. -/
def text : Expr → String
  | .const _ value _ => Hex.literal value
  | .var _ name _ label => label.getD name
  | .mem _ address size => "mem[" ++ address.text ++ ":" ++ size.text ++ "]"
  | .op _ kind operands =>
    match texts operands with
    | [operand] => kind.symbol ++ operand
    | [left, right] => "(" ++ left ++ " " ++ kind.symbol ++ " " ++ right ++ ")"
    | several => kind.name ++ "(" ++ ", ".intercalate several ++ ")"

/-- The written forms of several trees. -/
def texts : List Expr → List String
  | [] => []
  | e :: rest => e.text :: texts rest

end

theorem texts_eq_map (es : List Expr) : texts es = es.map text := by
  induction es with
  | nil => rfl
  | cons e es ih => simp [texts, ih]

/-- The written form in braces behind the identity, which `name` spells. -/
def taggedText (name : NodeId → String) (e : Expr) : String :=
  name e.id ++ "\x7b" ++ e.text ++ "\x7d"

end Expr
end Lifted
