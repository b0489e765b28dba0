import Lifted.Proofs.Evaluation.Content

/-!
# Trees that are alike but for their leaves

* `Expr.Alike`: one shape, with leaves that are related place by place.
* `Expr.Alike.of_tree_eq`: trees that become equal by a change of leaves have been alike.
* `Expr.Alike.exists_leaf`: every leaf has its partner.
-/

namespace Lifted
namespace Expr

/-- The trees have the same inner nodes, and `r` holds between the leaves of each place. -/
inductive Alike (r : Expr → Expr → Prop) : Expr → Expr → Prop
  | leaf {x y : Expr} (hx : x.isLeaf) (hy : y.isLeaf) (h : r x y) : Alike r x y
  | mem (id id' : NodeId) {address address' size size' : Expr} (hAddress : Alike r address address')
    (hSize : Alike r size size') : Alike r (.mem id address size) (.mem id' address' size')
  | op (id id' : NodeId) (kind : Operator) {operands operands' : List Expr}
    (h : List.Forall₂ (Alike r) operands operands') :
    Alike r (.op id kind operands) (.op id' kind operands')

namespace Alike

variable {r r' : Expr → Expr → Prop} {e e' : Expr}

/-- Only the leaves that stand in the trees matter. -/
theorem imp (h : Alike r e e')
    (each : ∀ x ∈ e.nodes, ∀ y ∈ e'.nodes, x.isLeaf → y.isLeaf → r x y → r' x y) :
    Alike r' e e' := by
  induction e generalizing e' with
  | const | var =>
    cases h with
    | leaf hx hy h => exact .leaf hx hy (each _ (self_mem_nodes _) _ (self_mem_nodes _) hx hy h)
  | mem id address size ihAddress ihSize =>
    cases h with
    | leaf hx => cases hx
    | mem _ id' hAddress hSize =>
      refine .mem id id' (ihAddress hAddress fun x hx y hy => each x ?_ y ?_)
        (ihSize hSize fun x hx y hy => each x ?_ y ?_)
      · exact mem_nodes_of_child (by simp [children]) hx
      · exact mem_nodes_of_child (by simp [children]) hy
      · exact mem_nodes_of_child (by simp [children]) hx
      · exact mem_nodes_of_child (by simp [children]) hy
  | op id kind operands ih =>
    cases h with
    | leaf hx => cases hx
    | op _ id' _ h =>
      refine .op id id' kind ((forall₂_mem h).imp fun c d hcd => ?_)
      obtain ⟨hc, hd, hcd⟩ := hcd
      exact ih c hc hcd fun x hx y hy =>
        each x (mem_nodes_of_child hc hx) y (mem_nodes_of_child hd hy)

theorem exists_leaf (h : Alike r e e') {x : Expr} (hx : x ∈ e.nodes) (leaf : x.isLeaf) :
    ∃ y ∈ e'.nodes, y.isLeaf ∧ r x y := by
  induction e generalizing e' with
  | const | var =>
    rw [nodes_of_isLeaf rfl, List.mem_singleton] at hx
    subst hx
    cases h with
    | leaf _ hy h => exact ⟨_, self_mem_nodes _, hy, h⟩
  | mem id address size ihAddress ihSize =>
    cases h with
    | leaf hx => cases hx
    | mem _ id' hAddress hSize =>
      rcases mem_nodes_iff.mp hx with rfl | ⟨c, hc, below⟩
      · cases leaf
      · simp only [children, List.mem_cons, List.not_mem_nil, or_false] at hc
        rcases hc with rfl | rfl
        · obtain ⟨y, hy, h⟩ := ihAddress hAddress below
          exact ⟨y, mem_nodes_of_child (by simp [children]) hy, h⟩
        · obtain ⟨y, hy, h⟩ := ihSize hSize below
          exact ⟨y, mem_nodes_of_child (by simp [children]) hy, h⟩
  | op id kind operands ih =>
    cases h with
    | leaf hx => cases hx
    | op _ id' _ h =>
      rcases mem_nodes_iff.mp hx with rfl | ⟨c, hc, below⟩
      · cases leaf
      · obtain ⟨d, hd, hcd⟩ := exists_mem_of_forall₂ h hc
        obtain ⟨y, hy, h⟩ := ih c hc hcd below
        exact ⟨y, mem_nodes_of_child hd hy, h⟩

/-- A change of leaves hides nothing but leaves. By induction on the first tree: the other one has a
leaf where it has a leaf, and the same inner node where it has one. -/
theorem of_tree_eq {f g : Expr → Expr} (hf : ∀ x : Expr, x.isLeaf → (f x).isLeaf)
    (hg : ∀ x : Expr, x.isLeaf → (g x).isLeaf)
    (same : (e.mapLeaves f).tree = (e'.mapLeaves g).tree) :
    Alike (fun x y => (f x).tree = (g y).tree) e e' := by
  have leaves : ∀ {c d : Expr}, (c.mapLeaves f).tree = (d.mapLeaves g).tree →
      c.isLeaf = d.isLeaf := by
    intro c d hcd
    rw [← isLeaf_mapLeaves hf c, ← isLeaf_mapLeaves hg d]
    exact isLeaf_congr hcd
  have root := leaves same
  induction e generalizing e' with
  | const | var =>
    refine .leaf rfl root.symm ?_
    rwa [mapLeaves_of_isLeaf f rfl, mapLeaves_of_isLeaf g root.symm] at same
  | mem id address size ihAddress ihSize =>
    cases e' with
    | const | var => cases root
    | op => simp [mapLeaves, tree] at same
    | mem id' address' size' =>
      simp only [mapLeaves, tree, Tree.mem.injEq] at same
      exact .mem id id' (ihAddress same.1 (leaves same.1)) (ihSize same.2 (leaves same.2))
  | op id kind operands ih =>
    cases e' with
    | const | var => cases root
    | mem => simp [mapLeaves, tree] at same
    | op id' kind' operands' =>
      rw [mapLeaves_op, mapLeaves_op, tree_op, tree_op, Tree.op.injEq, List.map_map,
        List.map_map] at same
      obtain ⟨rfl, same⟩ := same
      refine .op id id' kind ((forall₂_mem (map_eq_map_iff.mp same)).imp fun c d hcd => ?_)
      obtain ⟨hc, -, same⟩ := hcd
      exact ih c hc same (leaves same)

end Alike

end Expr
end Lifted
