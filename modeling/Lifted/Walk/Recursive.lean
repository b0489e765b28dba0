import Lifted.Walk

/-!
# Replacing walk, by recursion

The rule of the replacing walk, said by recursion on the tree.

* `walkTree`: what becomes of a tree that stands below some nodes.
* `walkTrees`: what becomes of several trees below the same nodes, from left to right.
-/

namespace Lifted

section

variable {m : Type → Type} [Monad m] [MonadStateOf Supply m]

/-- The node `node`, kept if the children came back as they were and otherwise made anew around
what they became. -/
def rebuild (node : Expr) (results : List Expr) : m Expr :=
  if (node.children.zip results).all fun p => p.2.sameNode p.1 then pure node
  else node.withChildren results

mutual

/-- What becomes of `node`, which stands below `above`: the visitor's replacement, or else the
node around what became of its children. -/
def walkTree (visitor : Visitor m) (above : List Expr) (node : Expr) : m Expr := do
  match ← visitor above node with
  | some replacement => pure replacement
  | none =>
    match node with
    | .const .. | .var .. => pure node
    | .mem _ address size => do
      let address' ← walkTree visitor (node :: above) address
      let size' ← walkTree visitor (node :: above) size
      rebuild node [address', size']
    | .op _ _ operands => do
      let operands' ← walkTrees visitor (node :: above) operands
      rebuild node operands'

/-- What becomes of several trees that stand below `above`. -/
def walkTrees (visitor : Visitor m) (above : List Expr) : List Expr → m (List Expr)
  | [] => pure []
  | node :: rest => do
    let node' ← walkTree visitor above node
    let rest' ← walkTrees visitor above rest
    pure (node' :: rest')

end

end

end Lifted
