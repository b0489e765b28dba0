import Lifted.Evaluation.Semantics

/-!
# Evaluation, by recursion

The value of a tree said by recursion, without a memo: first the children from left to right, then
the root.

* `Expr.valueBy`: the value of a tree, from how a node's value follows from its children's.
* `Evaluator.value`: the value that an evaluator gives node by node.
* `Semantics.value`: the value under a meaning.
-/

namespace Lifted

namespace Expr

mutual

/-- The value of a tree; fails with what fails first. -/
def valueBy (valueOf : (node : Expr) → (values : List UInt64) → Except Error UInt64) (e : Expr) :
    Except Error UInt64 :=
  match e with
  | .const .. | .var .. => valueOf e []
  | .mem _ address size => do
    let address' ← valueBy valueOf address
    let size' ← valueBy valueOf size
    valueOf e [address', size']
  | .op _ _ operands => do
    let operands' ← valuesBy valueOf operands
    valueOf e operands'

/-- The values of several trees, from left to right. -/
def valuesBy (valueOf : (node : Expr) → (values : List UInt64) → Except Error UInt64) :
    List Expr → Except Error (List UInt64)
  | [] => .ok []
  | e :: rest => do
    let first ← valueBy valueOf e
    let others ← valuesBy valueOf rest
    .ok (first :: others)

end

theorem valuesBy_eq_mapM (valueOf : Expr → List UInt64 → Except Error UInt64) (es : List Expr) :
    valuesBy valueOf es = es.mapM (valueBy valueOf) := by
  induction es with
  | nil => rfl
  | cons e es ih => rw [valuesBy, ih, List.mapM_cons]; rfl

theorem valueBy_eq (valueOf : Expr → List UInt64 → Except Error UInt64) (e : Expr) :
    valueBy valueOf e = e.children.mapM (valueBy valueOf) >>= valueOf e := by
  cases e with
  | const | var => rfl
  | mem id address size =>
    cases h : valueBy valueOf address <;> cases h' : valueBy valueOf size <;>
      simp [valueBy, children, h, h', bind, Except.bind, pure, Except.pure]
  | op id kind operands => rw [valueBy, valuesBy_eq_mapM]; rfl

end Expr

/-- The value of a tree, evaluated node by node. -/
def Evaluator.value (v : Evaluator) (b : Bindings) (e : Expr) : Except Error UInt64 :=
  e.valueBy (v.onNode b)

/-- The value of a tree under a meaning. -/
def Semantics.value (s : Semantics) (b : Bindings) (e : Expr) : Except Error UInt64 :=
  e.valueBy (s.onNode b)

end Lifted
