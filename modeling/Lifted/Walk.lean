import Lifted.Expr.Basic

/-!
# Replacing walk

A walk meets the nodes of a tree in order, a node before its children and these from left to right,
and hands each node to a visitor together with the nodes above it. A node below two parents is met
twice. Where the visitor gives a replacement, the walk takes it and looks below neither the node nor
the replacement. A node whose children all came back as they were is kept, identity and all; any
other is made anew around its new children.

The walk keeps its own stack, so a deep tree needs no deep recursion.

* `walk`: the walk, with a visitor in any monad that holds a supply of identities.
* `visit`: the same walk with a visitor that replaces nothing.
* `Frame`: a node whose children are being walked.
-/

namespace Lifted

/-- What a walk does at a node that stands below `above`, the parent first and the root last. -/
abbrev Visitor (m : Type → Type) := (above : List Expr) → (node : Expr) → m (Option Expr)

/-- A node whose children are being walked. -/
structure Frame where
  node : Expr
  /-- The nodes above `node`, its parent first. -/
  above : List Expr
  /-- The children still to be walked, in order. -/
  pending : List Expr
  /-- What became of the children walked so far, the last one first. -/
  walked : List Expr
  /-- Some child became another node. -/
  changed : Bool

namespace Frame

/-- The frame of a node none of whose children are walked yet. -/
def enter (above : List Expr) (node : Expr) : Frame := ⟨node, above, node.children, [], false⟩

/-- The nodes above the children of this frame's node. -/
def path (f : Frame) : List Expr := f.node :: f.above

/-- The frame once `child`, which left `pending`, has become `result`. -/
def settle (f : Frame) (child result : Expr) : Frame :=
  { f with walked := result :: f.walked, changed := f.changed || !result.sameNode child }

/-- What the frame's node becomes once no child is pending. -/
def leave {m : Type → Type} [Monad m] [MonadStateOf Supply m] (f : Frame) : m Expr :=
  if f.changed then f.node.withChildren f.walked.reverse else pure f.node

/-- A bound on the steps that the pending children of a frame still take. -/
def weight (f : Frame) : Nat := 2 * Expr.sizes f.pending + 1

/-- The bounds of several frames together. -/
def weights : List Frame → Nat
  | [] => 0
  | f :: rest => f.weight + weights rest

end Frame

section

variable {m : Type → Type} [Monad m] [MonadStateOf Supply m]

/-- Walks the pending children of `top`, then those of the frames `below` it, the innermost first;
yields what the node of the outermost frame becomes. -/
@[specialize]
def walkFrames (visitor : Visitor m) (top : Frame) (below : List Frame) : m Expr :=
  match _ : top.pending with
  | [] => do
    let result ← top.leave
    match below with
    | [] => pure result
    | parent :: rest => walkFrames visitor (parent.settle top.node result) rest
  | child :: later => do
    let top' := { top with pending := later }
    match ← visitor top.path child with
    | some replacement => walkFrames visitor (top'.settle child replacement) below
    | none =>
      if child.children.isEmpty then walkFrames visitor (top'.settle child child) below
      else walkFrames visitor (Frame.enter top.path child) (top' :: below)
termination_by Frame.weights (top :: below)
decreasing_by
  · have pending : top.pending = [] := ‹_›
    simp only [Frame.weights, Frame.weight, Frame.settle, pending, Expr.sizes]
    omega
  all_goals
    have pending : top.pending = child :: later := ‹_›
    have := child.size_eq
    simp only [Frame.weights, Frame.weight, Frame.settle, Frame.enter, pending, Expr.sizes]
    omega

/-- Walks the tree `root`; yields what becomes of it. -/
@[specialize]
def walk (visitor : Visitor m) (root : Expr) : m Expr := do
  match ← visitor [] root with
  | some replacement => pure replacement
  | none => if root.children.isEmpty then pure root else walkFrames visitor (Frame.enter [] root) []

/-- Shows every node of the tree `root` to `visitor`. -/
@[specialize]
def visit (visitor : (above : List Expr) → (node : Expr) → m Unit) (root : Expr) : m Unit :=
  discard <| walk (fun above node => do visitor above node; pure none) root

end

end Lifted
