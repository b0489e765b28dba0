import Lifted.Evaluation.Evaluator
import Lifted.Evaluation.Memo
import Lifted.Operator.Arithmetic
import Lifted.Text.Sha1

/-!
# The meaning of expressions

Constants mean their value, variables and memory reads what is bound to them, and operators what
they compute. Where nothing is bound, a digest of the name or of the place stands in, so that the
value is the same in every run; a strict meaning has no such values for variables. Every value is
cut to the width of its node.

* `Semantics`: whether variables need a binding, and the digest.
* `Semantics.onNode`: the value of a node from those of its children.
* `Semantics.solve`: the value of a tree, each node evaluated once.
* `Semantics.evaluator`, `Semantics.treewise`: evaluators with this meaning.
-/

namespace Lifted

/-- A choice in the meaning of expressions. -/
structure Semantics where
  /-- Every variable needs a binding. -/
  strict : Bool := false
  /-- The value that a text stands for where nothing is bound. -/
  digest : List UInt8 → UInt64 := Sha1.word

namespace Semantics

instance : Inhabited Semantics := ⟨{}⟩

/-- The digest of a text's bytes. -/
def digestText (s : Semantics) (text : String) : UInt64 := s.digest text.toUTF8.toList

/-- The value of the variable `name`, not yet cut to a width. -/
def ofVar (s : Semantics) (b : Bindings) (name : String) : Except Error UInt64 :=
  match b.var name with
  | some value => .ok value
  | none =>
    if s.strict then .error (.evaluation (.unbound name)) else .ok (s.digestText name)

/-- The text whose digest stands for `size` bytes read at `address`. -/
def cellText (address size : UInt64) : String :=
  "mem:" ++ Hex.text address.toNat ++ ":" ++ Hex.text size.toNat

/-- The value of `size` bytes read at `address`, not yet cut to a width. -/
def ofCell (s : Semantics) (b : Bindings) (address size : UInt64) : UInt64 :=
  (b.cell address).getD (s.digestText (cellText address size))

/-- The value of a node from those of its children. -/
def onNode (s : Semantics) (b : Bindings) (e : Expr) (values : List UInt64) :
    Except Error UInt64 :=
  match e with
  | .const _ value bytes => .ok (Width.truncate bytes value)
  | .var _ name bytes _ => (s.ofVar b name).map (Width.truncate bytes)
  | .mem id _ _ =>
    match values with
    | [address, size] => .ok (Width.truncate e.width (s.ofCell b address size))
    | _ => .error (.malformed (.memoryValues id values.length))
  | .op _ kind _ => kind.apply values e.width

/-- The value of a tree. -/
def solve (s : Semantics) (b : Bindings) (e : Expr) : Except Error UInt64 :=
  withoutMemo (Lifted.solve (m := Id) (s.onNode b) e)

/-- Evaluates each node from its children. -/
def evaluator (s : Semantics) : Evaluator := ⟨s.solve, s.onNode⟩

/-- Evaluates each node as a tree of its own. -/
def treewise (s : Semantics) : Evaluator := .treewise s.solve

end Semantics
end Lifted
