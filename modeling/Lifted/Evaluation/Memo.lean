import Lifted.Error
import Lifted.Expr.Basic
import Std.Data.HashMap

/-!
# Evaluation with a memo

The value of a node follows from the values of its children, so a tree is evaluated from its leaves
upward. A memo keeps the value of each node under its identity, so a node below several parents
is evaluated once; values found before a failure stay in it.

* `Memo`, `MemoT`: the memo, and computations that fill it and may fail.
* `NodeValue`: how a node's value follows from its children's.
* `solvePending`: works off an agenda of nodes.
* `solve`: the value of a tree.
-/

namespace Lifted

/-- The values found so far, by the identity of their nodes. -/
abbrev Memo := Std.HashMap NodeId UInt64

/-- Computations that fill a memo and may fail. A failure keeps the memo. -/
abbrev MemoT (m : Type → Type) := ExceptT Error (StateT Memo m)

/-- How the value of a node follows from the values of its children, given in their order. -/
abbrev NodeValue (m : Type → Type) :=
  (node : Expr) → (values : List UInt64) → m (Except Error UInt64)

/-- A node on the agenda. It is opened when it first comes up, and evaluated when it comes up
again, after its children. -/
structure Task where
  node : Expr
  opened : Bool

/-- A bound on the steps that a task and the tasks it leads to take. -/
def Task.weight (t : Task) : Nat := if t.opened then 1 else 2 * t.node.size

/-- The bounds of several tasks together. -/
def Task.weights : List Task → Nat
  | [] => 0
  | t :: rest => t.weight + weights rest

theorem Task.weights_append (xs ys : List Task) :
    Task.weights (xs ++ ys) = Task.weights xs + Task.weights ys := by
  induction xs with
  | nil => simp [Task.weights]
  | cons x xs ih => simp [Task.weights, ih, Nat.add_assoc]

/-- Opening a node costs no more than the steps that its children take. -/
theorem Task.weights_filter_le (p : Expr → Bool) (es : List Expr) :
    Task.weights ((es.filter p).map (Task.mk · false)) ≤ 2 * Expr.sizes es := by
  induction es with
  | nil => simp [Task.weights]
  | cons e es ih =>
    by_cases h : p e
    · simp only [List.filter_cons_of_pos h, List.map_cons, Task.weights, Task.weight, Expr.sizes]
      simp only [Bool.false_eq_true, ↓reduceIte]
      omega
    · simp only [List.filter_cons_of_neg h, Expr.sizes]
      omega

section

variable {m : Type → Type} [Monad m]

/-- The value in the memo, if there is one. -/
def known (id : NodeId) : MemoT m (Option UInt64) := return (← get)[id]?

/-- The value that a child of `node` has in the memo. -/
def operandValue (node child : Expr) : MemoT m UInt64 := do
  match ← known child.id with
  | some value => pure value
  | none => throw (.evaluation (.operandUnsolved child.id node.id))

/-- Evaluates a node from the values of its children in the memo, and enters its value. -/
@[specialize]
def solveNode (valueOf : NodeValue m) (node : Expr) : MemoT m Unit := do
  let values ← node.children.mapM (operandValue node)
  let value ← ExceptT.mk (StateT.lift (valueOf node values))
  modify (·.insert node.id value)

/-- Works off the agenda, its first task first. A node that is in the memo is passed over. A node
that comes up first and has children goes back behind those of them that are not in the memo. -/
@[specialize]
def solvePending (valueOf : NodeValue m) : List Task → MemoT m Unit
  | [] => pure ()
  | task :: rest => do
    let memo ← get
    if memo.contains task.node.id then solvePending valueOf rest
    else if task.opened || task.node.children.isEmpty then do
      solveNode valueOf task.node
      solvePending valueOf rest
    else
      let unsolved := task.node.children.filter fun child => !memo.contains child.id
      solvePending valueOf (unsolved.map (Task.mk · false) ++ { task with opened := true } :: rest)
termination_by agenda => Task.weights agenda
decreasing_by
  · have := task.node.size_pos
    simp only [Task.weights, Task.weight]
    split <;> omega
  · have := task.node.size_pos
    simp only [Task.weights, Task.weight]
    split <;> omega
  · rename_i h
    have opening := Task.weights_filter_le (fun child => !memo.contains child.id) task.node.children
    have := task.node.size_eq
    simp only [Bool.or_eq_true, not_or, Bool.not_eq_true] at h
    rw [Task.weights_append]
    simp only [Task.weights, Task.weight, h.1, Bool.false_eq_true, ↓reduceIte]
    omega

/-- The value of the tree `root`. Every node of it is in the memo afterwards. -/
@[specialize]
def solve (valueOf : NodeValue m) (root : Expr) : MemoT m UInt64 := do
  solvePending valueOf [⟨root, false⟩]
  match ← known root.id with
  | some value => pure value
  | none => throw (.evaluation (.unsolved root.id))

end

/-- The outcome of a computation that starts with an empty memo. -/
def withoutMemo {α : Type} (x : MemoT Id α) : Except Error α := (x.run.run ∅).run.1

end Lifted
