import Lifted.Proofs.Evaluation.Content

/-!
# Equality is equality of content

`==` compares content, but takes a node to be equal to itself without a look below it. Where one
identity is one node that is no more than a short cut.

* `Expr.equal_leaf_iff`, `Expr.equal_mem_iff`, `Expr.equal_op_iff`: what `==` compares.
* `Expr.beq_of_tree_eq`: trees of one content are equal.
* `Expr.tree_eq_of_beq`: equal trees have one content, if one identity is one node.
-/

namespace Lifted
namespace Expr

/-! ## What is compared -/

theorem equals_iff {es fs : List Expr} :
    equals es fs = true ↔ List.Forall₂ (fun e f => e.equal f = true) es fs := by
  induction es generalizing fs with
  | nil => cases fs <;> simp [equals]
  | cons e es ih => cases fs <;> simp [equals, ih]

theorem equal_leaf_iff {e f : Expr} (leaf : e.isLeaf) :
    e.equal f = true ↔ e.id = f.id ∨ e.tree = f.tree := by
  cases e with
  | const | var => cases f <;> simp [equal, tree, Expr.id]
  | mem | op => cases leaf

theorem equal_mem_iff {id : NodeId} {address size f : Expr} :
    (mem id address size).equal f = true ↔ id = f.id ∨ ∃ id' address' size',
      f = .mem id' address' size' ∧ address.equal address' = true ∧ size.equal size' = true := by
  cases f <;> simp [equal]

theorem equal_op_iff {id : NodeId} {kind : Operator} {operands : List Expr} {f : Expr} :
    (op id kind operands).equal f = true ↔ id = f.id ∨ ∃ id' operands',
      f = .op id' kind operands' ∧
        List.Forall₂ (fun e f => e.equal f = true) operands operands' := by
  cases f with
  | const | var | mem => simp [equal]
  | op id' kind' operands' => simp [equal, equals_iff, eq_comm (a := kind)]

/-! ## Equality and content -/

/-- Whatever their identities are. -/
theorem beq_of_tree_eq {e f : Expr} (same : e.tree = f.tree) : (e == f) = true := by
  show e.equal f = true
  induction e generalizing f with
  | const | var => exact (equal_leaf_iff rfl).mpr (.inr same)
  | mem id address size ihAddress ihSize =>
    obtain ⟨id', address', size', rfl, sameAddress, sameSize⟩ := eq_mem_of_tree_eq same
    exact equal_mem_iff.mpr (.inr ⟨_, _, _, rfl, ihAddress sameAddress, ihSize sameSize⟩)
  | op id kind operands ih =>
    obtain ⟨id', operands', rfl, contents⟩ := eq_op_of_tree_eq same
    exact equal_op_iff.mpr (.inr ⟨_, _, rfl,
      (forall₂_mem (map_eq_map_iff.mp contents)).imp fun x y h => ih x h.1 h.2.2⟩)

/-- By induction on the first tree: either both roots are one node, or they are of one shape and
their children are equal. -/
theorem tree_eq_of_beq {e f : Expr}
    (one : ∀ x ∈ e.nodes, ∀ y ∈ f.nodes, x.id = y.id → x = y) (h : (e == f) = true) :
    e.tree = f.tree := by
  have equal : e.equal f = true := h
  clear h
  have root : ∀ {e f : Expr}, (∀ x ∈ e.nodes, ∀ y ∈ f.nodes, x.id = y.id → x = y) →
      e.id = f.id → e.tree = f.tree := fun one same =>
    congrArg tree (one _ (self_mem_nodes _) _ (self_mem_nodes _) same)
  have child : ∀ {e f c d : Expr}, (∀ x ∈ e.nodes, ∀ y ∈ f.nodes, x.id = y.id → x = y) →
      c ∈ e.children → d ∈ f.children → ∀ x ∈ c.nodes, ∀ y ∈ d.nodes, x.id = y.id → x = y :=
    fun one hc hd x hx y hy => one x (mem_nodes_of_child hc hx) y (mem_nodes_of_child hd hy)
  induction e generalizing f with
  | const | var => exact ((equal_leaf_iff rfl).mp equal).elim (root one) fun same => same
  | mem id address size ihAddress ihSize =>
    rcases equal_mem_iff.mp equal with same | ⟨id', address', size', rfl, hAddress, hSize⟩
    · exact root one same
    · rw [tree, tree,
        ihAddress (child one (by simp [children]) (by simp [children])) hAddress,
        ihSize (child one (by simp [children]) (by simp [children])) hSize]
  | op id kind operands ih =>
    rcases equal_op_iff.mp equal with same | ⟨id', operands', rfl, each⟩
    · exact root one same
    · have contents := (forall₂_mem each).imp fun x y h =>
        ih x h.1 (child one h.1 h.2.1) h.2.2
      rw [tree_op, tree_op, map_eq_map_iff.mpr contents]

end Expr
end Lifted
