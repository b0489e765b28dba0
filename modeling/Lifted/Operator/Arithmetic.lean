import Lifted.Error
import Lifted.Width

/-!
# Fixed-width arithmetic

Operators compute on words cut to a width in bytes, and so is what they yield. The arithmetic is
unsigned except for the right shift that repeats the sign bit, which is the top bit of the width.

* `Operator.compute`: the operation on operands that are already cut.
* `Operator.apply`: the value of an operator node from the values of its operands.
-/

namespace Lifted
namespace Operator

/-- `word` with its bit `bits - 1` repeated in all bits above, `0 < bits ≤ 64`. -/
def signExtend (bits word : UInt64) : Int64 :=
  (word <<< (64 - bits)).toInt64 >>> (64 - bits).toInt64

/-- The operation on two operands of `bits` bits. The bits above may hold anything. A shift by
`bits` or more loses every bit; the one that repeats the sign leaves only the sign. An operator
with one operand ignores the right one. -/
def compute (op : Operator) (bits left right : UInt64) : Except EvaluationError UInt64 :=
  match op with
  | add => .ok (left + right)
  | sub => .ok (left - right)
  | mul => .ok (left * right)
  | div => if right = 0 then .error (.divisionByZero left) else .ok (left / right)
  | mod => if right = 0 then .error (.remainderByZero left) else .ok (left % right)
  | and => .ok (left &&& right)
  | or => .ok (left ||| right)
  | xor => .ok (left ^^^ right)
  | shl => .ok (if bits ≤ right then 0 else left <<< right)
  | shr => .ok (if bits ≤ right then 0 else left >>> right)
  | sar => .ok (signExtend bits left >>> (min right (bits - 1)).toInt64).toUInt64
  | neg => .ok (0 - left)
  | not => .ok (~~~left)

/-- The value of a node of `width` bytes from the values of its operands. The number of operands
is looked at first, then the width. -/
def apply (op : Operator) (operands : List UInt64) (width : UInt8) : Except Error UInt64 :=
  if operands.length ≠ op.arity then .error (.malformed (.valueCount op operands.length))
  else if width = 0 then .error (.malformed (.zeroWidth op))
  else
    let left := Width.truncate width (operands.getD 0 0)
    let right := Width.truncate width (operands.getD 1 0)
    match op.compute (Width.bits width) left right with
    | .ok value => .ok (Width.truncate width value)
    | .error cause => .error (.evaluation cause)

end Operator
end Lifted
