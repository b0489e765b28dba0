import Lifted.Identity
import Lifted.Operator

/-!
# Expressions

An expression is a tree of constants, variables, memory reads and operators. Every node carries
an identity; a node that stands below several parents stands there with one identity, and that is
all that sharing means.

* `Expr`: the nodes.
* `Expr.children`: the direct children in order, a memory read's address before its size.
* `Expr.width`: the width in bytes of the value a node yields, kept in each node.
* `Expr.newConstant`, `Expr.newVariable`, `Expr.newMemory`, `Expr.newOperator`: nodes with a
  fresh identity.
* `Expr.withLabel`, `Expr.withChildren`: a node made anew from another one.
-/

namespace Lifted

/-- A node of an expression. The label of a variable is shown in place of its name and means
nothing else. An operator may have any number of operands; which number is right is
`Operator.arity`. -/
inductive Expr where
  | const (id : NodeId) (value : UInt64) (bytes : UInt8)
  | var (id : NodeId) (name : String) (bytes : UInt8) (label : Option String)
  | mem (id : NodeId) (address size : Expr)
  | op (id : NodeId) (kind : Operator) (operands : List Expr)
with
  /-- The width of a node's value in bytes: a memory read is as wide as its constant nonzero size,
  at most and otherwise eight; an operator is as wide as its widest operand. -/
  @[computed_field] width : Expr → UInt8
    | .const _ _ bytes => bytes
    | .var _ _ bytes _ => bytes
    | .mem _ _ size =>
      match size with
      | .const _ value _ => if value = 0 then 8 else (min value 8).toUInt8
      | _ => 8
    | .op _ _ operands => (operands.map width).foldl max 0

namespace Expr

instance : Inhabited Expr := ⟨.const 0 0 0⟩

/-- Induction over an expression, with the hypothesis for every operand of an operator. -/
@[elab_as_elim, induction_eliminator]
theorem induct {motive : Expr → Prop}
    (const : ∀ id value bytes, motive (.const id value bytes))
    (var : ∀ id name bytes label, motive (.var id name bytes label))
    (mem : ∀ id address size, motive address → motive size → motive (.mem id address size))
    (op : ∀ id kind operands, (∀ x ∈ operands, motive x) → motive (.op id kind operands))
    (e : Expr) : motive e :=
  match e with
  | .const id value bytes => const id value bytes
  | .var id name bytes label => var id name bytes label
  | .mem id address size =>
    mem id address size (induct const var mem op address) (induct const var mem op size)
  | .op id kind operands => op id kind operands fun x _ => induct const var mem op x

/-- The identity of a node. -/
def id : Expr → NodeId
  | .const id .. => id
  | .var id .. => id
  | .mem id .. => id
  | .op id .. => id

@[simp] theorem width_const (id : NodeId) (value : UInt64) (bytes : UInt8) :
    (const id value bytes).width = bytes := by rw [width]

@[simp] theorem width_var (id : NodeId) (name : String) (bytes : UInt8) (label : Option String) :
    (var id name bytes label).width = bytes := by rw [width]

@[simp] theorem width_op (id : NodeId) (kind : Operator) (operands : List Expr) :
    (op id kind operands).width = (operands.map width).foldl max 0 := by rw [width]

/-- The direct children, from left to right. -/
def children : Expr → List Expr
  | .const .. | .var .. => []
  | .mem _ address size => [address, size]
  | .op _ _ operands => operands

/-- The two nodes are one. -/
def sameNode (e f : Expr) : Bool := e.id == f.id

/-- The value of a constant. -/
def constant? : Expr → Option UInt64
  | .const _ value _ => some value
  | _ => none

theorem width_mem (id : NodeId) (address size : Expr) :
    (mem id address size).width =
      (match size.constant? with
      | some value => if value = 0 then 8 else (min value 8).toUInt8
      | none => 8) := by
  cases size <;> simp [width, constant?]

/-- The name of a variable. -/
def name? : Expr → Option String
  | .var _ name _ _ => some name
  | _ => none

/-- The label of a variable that has one. -/
def label? : Expr → Option String
  | .var _ _ _ label => label
  | _ => none

/-! ## Size -/

mutual

/-- The number of nodes, one below two parents counted twice. -/
def size : Expr → Nat
  | .const .. | .var .. => 1
  | .mem _ address size => 1 + (address.size + size.size)
  | .op _ _ operands => 1 + sizes operands

/-- The number of nodes of several trees. -/
def sizes : List Expr → Nat
  | [] => 0
  | e :: rest => e.size + sizes rest

end

theorem size_eq (e : Expr) : e.size = 1 + sizes e.children := by
  cases e <;> simp [size, sizes, children]

theorem size_pos (e : Expr) : 0 < e.size := by rw [size_eq]; omega

@[simp] theorem sizes_append (xs ys : List Expr) : sizes (xs ++ ys) = sizes xs + sizes ys := by
  induction xs with
  | nil => simp [sizes]
  | cons x xs ih => simp [sizes, ih, Nat.add_assoc]

@[simp] theorem sizes_reverse (xs : List Expr) : sizes xs.reverse = sizes xs := by
  induction xs with
  | nil => rfl
  | cons x xs ih => simp [sizes, ih, Nat.add_comm]

/-! ## New nodes -/

section New

variable {m : Type → Type} [Monad m] [MonadStateOf Supply m]

/-- A new constant. -/
def newConstant (value : UInt64) (bytes : UInt8) : m Expr :=
  return .const (← fresh) value bytes

/-- A new variable without a label. -/
def newVariable (name : String) (bytes : UInt8) : m Expr :=
  return .var (← fresh) name bytes none

/-- A new memory read. -/
def newMemory (address size : Expr) : m Expr := return .mem (← fresh) address size

/-- A new operator node. The number of operands is not looked at. -/
def newOperator (kind : Operator) (operands : List Expr) : m Expr :=
  return .op (← fresh) kind operands

/-- A new variable with this label and the name and width of `e`; any other node is kept. -/
def withLabel (e : Expr) (label : String) : m Expr :=
  match e with
  | .var _ name bytes _ => return .var (← fresh) name bytes (some label)
  | _ => pure e

/-- A new node with these children, in the order of `children`, in place of those of `e`. A leaf
is kept, and so is a memory read for which there are not two of them. -/
def withChildren (e : Expr) (children : List Expr) : m Expr :=
  match e, children with
  | .mem .., [address, size] => newMemory address size
  | .op _ kind _, operands => newOperator kind operands
  | e, _ => pure e

end New

end Expr
end Lifted
