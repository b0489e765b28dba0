/-!
# Operators

The operations an expression node applies to its operands. Operand order matters for every
operator outside `Operator.isCommutative`.

* `Operator.arity`: how many operands it takes.
* `Operator.name`, `Operator.symbol`: how it is written.
* `Operator.all`: every operator once, in the order of their declaration.
-/

namespace Lifted

/-- An operation on words of one width. `shr` is the logical right shift and `sar` the one that
repeats the sign bit. -/
inductive Operator where
  | add | sub | mul | div | mod | and | or | xor | shl | shr | sar | neg | not
  deriving DecidableEq, Repr, Inhabited

namespace Operator

/-- Every operator once. -/
def all : List Operator := [add, sub, mul, div, mod, and, or, xor, shl, shr, sar, neg, not]

/-- The number of operands. -/
def arity : Operator → Nat
  | neg | not => 1
  | _ => 2

/-- The operator takes one operand. -/
def isUnary (op : Operator) : Bool := op.arity == 1

/-- Swapping the two operands never changes the result. -/
def isCommutative : Operator → Bool
  | add | mul | and | or | xor => true
  | _ => false

/-- The name, as reports spell it. -/
def name : Operator → String
  | add => "Add"
  | sub => "Sub"
  | mul => "Mul"
  | div => "Div"
  | mod => "Mod"
  | and => "And"
  | or => "Or"
  | xor => "Xor"
  | shl => "Shl"
  | shr => "Shr"
  | sar => "Sar"
  | neg => "Neg"
  | not => "Not"

/-- The symbol, as expressions are written: between two operands or in front of one. -/
def symbol : Operator → String
  | add => "+"
  | sub | neg => "-"
  | mul => "*"
  | div => "/"
  | mod => "%"
  | and => "&"
  | or => "|"
  | xor => "^"
  | shl => "<<"
  | shr => ">>"
  | sar => "s>>"
  | not => "~"

theorem mem_all (op : Operator) : op ∈ all := by cases op <;> simp [all]

theorem name_injective {p q : Operator} (h : p.name = q.name) : p = q := by
  cases p <;> cases q <;> first | rfl | simp [name] at h

end Operator
end Lifted
