import Lifted.Proofs.Evaluation.Memo
import Lifted.Proofs.Evaluation.Content
import Lifted.Proofs.Lockstep

/-!
# Evaluation is indifferent to identities

An evaluator that goes by the content of a node, or by which of the nodes below it are one node,
gives the same values where other identities stand, or fails in the same way.

* `Evaluator.Indifferent`: other identities do not change the value of a node.
* `Expr.matches_valueBy`: then they do not change the value of a tree.
* `Semantics.indifferent_evaluator`, `Semantics.indifferent_treewise`: the meanings of expressions
  are so, node by node and tree by tree.
-/

namespace Lifted

/-- Other identities do not change the value of a node, nor how it fails. The nodes below are shared
soundly, and they are shared alike. -/
def Evaluator.Indifferent (v : Evaluator) (b : Bindings) : Prop :=
  ∀ e e' vs, Expr.Coherent [e] → Expr.Renumbered [e] [e'] →
    Matches Eq (v.onNode b e vs) (v.onNode b e' vs)

namespace Expr

theorem Coherent.child {e c : Expr} (h : Coherent [e]) (hc : c ∈ e.children) : Coherent [c] := by
  refine h.mono fun x hx => ?_
  rw [nodesOf_singleton] at hx ⊢
  exact mem_nodes_of_child hc hx

/-- The values of twins match. -/
theorem matches_valueBy {v : Evaluator} {b : Bindings} (indifferent : v.Indifferent b)
    {r : NodeId → NodeId → Prop} (unique : Relator.BiUnique r) {e e' : Expr}
    (coherent : Coherent [e]) (h : e.Twins r e') : Matches Eq (v.value b e) (v.value b e') := by
  induction e using induct_children generalizing e' with
  | step e ih =>
  unfold Evaluator.value
  rw [valueBy_eq, valueBy_eq]
  have children : Matches (List.Forall₂ Eq) (e.children.mapM (v.value b))
      (e'.children.mapM (v.value b)) :=
    .mapM (forall₂_mem h.children) fun c c' hc => ih c hc.1 (coherent.child hc.1) hc.2.2
  refine children.bind fun vs vs' same => ?_
  obtain rfl : vs = vs' := List.forall₂_eq_eq_eq ▸ same
  exact indifferent e e' vs coherent (renumbered_of_twins unique (.cons h .nil))

end Expr

/-! ## Meanings -/

theorem Evaluator.indifferent_fixed (value : UInt64) (b : Bindings) :
    (Evaluator.fixed value).Indifferent b := fun _ _ _ _ _ => .ok rfl

namespace Semantics

variable (S : Semantics) (b : Bindings)

/-- Only the error for a memory read that is not given two values names a node. -/
theorem indifferent_evaluator : S.evaluator.Indifferent b := by
  intro e e' vs _ same
  have width : e.width = e'.width := Expr.width_congr (List.cons.inj same.map_tree).1.symm
  obtain ⟨r, -, twins, -⟩ := same.exists_twins
  obtain _ | ⟨h, -⟩ := twins
  cases h with
  | const | var => exact .rfl
  | op kind _ _ =>
    simp only [evaluator, onNode, width]
    exact .rfl
  | mem _ _ _ =>
    simp only [evaluator, onNode, width]
    split
    · exact .ok rfl
    · exact .error rfl

/-- A tree that shares its nodes soundly has the value of its content. -/
theorem indifferent_treewise : S.treewise.Indifferent b := by
  intro e e' vs coherent same
  have value : S.solve b e = S.solve b e' := by
    rw [S.solve_eq_value b (Heap.holds_of coherent List.mem_cons_self),
      S.solve_eq_value b (Heap.holds_of (same.coherent coherent) List.mem_cons_self)]
    exact S.value_congr (List.cons.inj same.map_tree).1.symm rfl fun _ _ => rfl
  simp only [treewise, Evaluator.treewise, value]
  exact .rfl

end Semantics

end Lifted
