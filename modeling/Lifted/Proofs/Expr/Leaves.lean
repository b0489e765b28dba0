import Lifted.Expr.Equality
import Lifted.Expr.Position
import Mathlib.Data.List.Basic

/-!
# Nodes and leaves

* `Expr.nodes_eq`: the nodes of a tree are its root and the nodes of its children, so
  `Expr.forall_mem_nodes_iff`: what holds of all of them holds of these.
* `Expr.mem_nodes_of_mem_path`: what stands above a node of a tree is a node of the tree.
* `Expr.Coherent.mono`: part of what is shared soundly is shared soundly.
* `Expr.isLeaf`: constants and variables.
-/

namespace Lifted
namespace Expr

/-! ## Nodes -/

/-- Induction over a tree, with the hypothesis for every child. -/
theorem induct_children {motive : Expr → Prop}
    (step : ∀ e : Expr, (∀ c ∈ e.children, motive c) → motive e) (e : Expr) : motive e := by
  induction e with
  | const | var => exact step _ fun c hc => by cases hc
  | mem id address size ihAddress ihSize =>
    refine step _ fun c hc => ?_
    simp only [children, List.mem_cons, List.not_mem_nil, or_false] at hc
    rcases hc with rfl | rfl
    · exact ihAddress
    · exact ihSize
  | op id kind operands ih => exact step _ ih

theorem map_node_positionsBelow (above : List Expr) (e : Expr) :
    (positionsBelow above e).map Position.node = e.nodes := by
  induction e using induct_children generalizing above with
  | step e ih =>
    rw [nodes, positions, positionsBelow_eq, positionsBelow_eq [], List.map_cons, List.map_cons,
      List.map_flatMap, List.map_flatMap]
    congr 1
    exact List.flatMap_congr fun c hc => (ih c hc _).trans (ih c hc _).symm

theorem nodes_eq (e : Expr) : e.nodes = e :: e.children.flatMap nodes := by
  rw [nodes, positions, positionsBelow_eq, List.map_cons, List.map_flatMap]
  congr 1
  exact List.flatMap_congr fun x _ => map_node_positionsBelow _ x

theorem nodes_of_children_nil {e : Expr} (h : e.children = []) : e.nodes = [e] := by
  rw [nodes_eq, h, List.flatMap_nil]

theorem self_mem_nodes (e : Expr) : e ∈ e.nodes := by
  rw [nodes_eq]
  exact List.mem_cons_self

theorem mem_nodes_iff {e x : Expr} : x ∈ e.nodes ↔ x = e ∨ ∃ c ∈ e.children, x ∈ c.nodes := by
  rw [nodes_eq, List.mem_cons, List.mem_flatMap]

theorem mem_nodes_of_child {e c x : Expr} (hc : c ∈ e.children) (hx : x ∈ c.nodes) :
    x ∈ e.nodes :=
  mem_nodes_iff.mpr (.inr ⟨c, hc, hx⟩)

/-- What holds of all nodes holds of the root and of all nodes of the children. -/
theorem forall_mem_nodes_iff {P : Expr → Prop} {e : Expr} :
    (∀ x ∈ e.nodes, P x) ↔ P e ∧ ∀ c ∈ e.children, ∀ x ∈ c.nodes, P x := by
  constructor
  · intro all
    exact ⟨all e e.self_mem_nodes, fun c hc x hx => all x (mem_nodes_of_child hc hx)⟩
  · rintro ⟨root, below⟩ x hx
    rcases mem_nodes_iff.mp hx with rfl | ⟨c, hc, hx⟩
    · exact root
    · exact below c hc x hx

theorem nodesOf_cons (e : Expr) (es : List Expr) : nodesOf (e :: es) = e.nodes ++ nodesOf es := by
  rw [nodesOf, List.flatMap_cons, nodesOf]

theorem nodesOf_append (es fs : List Expr) : nodesOf (es ++ fs) = nodesOf es ++ nodesOf fs :=
  List.flatMap_append

@[simp] theorem nodesOf_nil : nodesOf [] = [] := rfl

theorem nodesOf_singleton (e : Expr) : nodesOf [e] = e.nodes := List.flatMap_singleton ..

theorem mem_nodesOf {es : List Expr} {x : Expr} : x ∈ nodesOf es ↔ ∃ e ∈ es, x ∈ e.nodes :=
  List.mem_flatMap

theorem nodesOf_eq_map_node (es : List Expr) :
    nodesOf es = (es.flatMap positions).map Position.node := by
  unfold nodesOf
  rw [List.map_flatMap]
  rfl

theorem node_mem_nodesOf {es : List Expr} {p : Position} (hp : p ∈ es.flatMap positions) :
    p.node ∈ nodesOf es := by
  rw [nodesOf_eq_map_node]
  exact List.mem_map_of_mem hp

/-- Every node has a position. -/
theorem exists_position {es : List Expr} {x : Expr} (hx : x ∈ nodesOf es) :
    ∃ p ∈ es.flatMap positions, p.node = x := by
  rw [nodesOf_eq_map_node] at hx
  exact List.mem_map.mp hx

theorem nodes_eq_nodesOf (e : Expr) : e.nodes = e :: nodesOf e.children := nodes_eq e

theorem nodes_trans {e x y : Expr} (hx : x ∈ e.nodes) (hy : y ∈ x.nodes) : y ∈ e.nodes := by
  induction e using induct_children with
  | step e ih =>
    rcases mem_nodes_iff.mp hx with rfl | ⟨c, hc, hx⟩
    · exact hy
    · exact mem_nodes_of_child hc (ih c hc hx)

/-- All nodes on the way to a position below `above` are in the tree or in `above`. -/
theorem mem_nodes_of_mem_above {above : List Expr} {e : Expr} {p : Position}
    (hp : p ∈ positionsBelow above e) {x : Expr} (hx : x ∈ p.above) :
    x ∈ e.nodes ∨ x ∈ above := by
  induction e using induct_children generalizing above with
  | step e ih =>
    rw [positionsBelow_eq] at hp
    rcases List.mem_cons.mp hp with rfl | hp
    · exact .inr hx
    · obtain ⟨c, hc, hp⟩ := List.mem_flatMap.mp hp
      rcases ih c hc hp with h | h
      · exact .inl (mem_nodes_of_child hc h)
      · rcases List.mem_cons.mp h with rfl | h
        · exact .inl (self_mem_nodes _)
        · exact .inr h

theorem node_mem_nodes {e : Expr} {p : Position} (hp : p ∈ e.positions) : p.node ∈ e.nodes :=
  List.mem_map_of_mem hp

theorem mem_nodes_of_mem_path {e : Expr} {p : Position} (hp : p ∈ e.positions) {x : Expr}
    (hx : x ∈ p.path) : x ∈ e.nodes := by
  unfold Position.path at hx
  rw [List.mem_reverse, List.mem_cons] at hx
  rcases hx with rfl | hx
  · exact node_mem_nodes hp
  · rcases mem_nodes_of_mem_above hp hx with h | h
    · exact h
    · cases h

theorem mem_nodesOf_of_mem_path {es : List Expr} {p : Position} (hp : p ∈ es.flatMap positions)
    {x : Expr} (hx : x ∈ p.path) : x ∈ nodesOf es := by
  obtain ⟨e, he, hp⟩ := List.mem_flatMap.mp hp
  exact mem_nodesOf.mpr ⟨e, he, mem_nodes_of_mem_path hp hx⟩

theorem mem_nodesOf_of_mem_nodes {es : List Expr} {x y : Expr} (hx : x ∈ nodesOf es)
    (hy : y ∈ x.nodes) : y ∈ nodesOf es := by
  obtain ⟨e, he, hx⟩ := mem_nodesOf.mp hx
  exact mem_nodesOf.mpr ⟨e, he, nodes_trans hx hy⟩

/-- A batch of nodes of a coherent one is coherent. -/
theorem Coherent.mono {es fs : List Expr} (coherent : Coherent es)
    (within : ∀ x ∈ nodesOf fs, x ∈ nodesOf es) : Coherent fs := fun x hx y hy =>
  coherent x (within x hx) y (within y hy)

/-! ## Leaves -/

/-- The node is a constant or a variable. -/
def isLeaf : Expr → Bool
  | .const .. | .var .. => true
  | .mem .. | .op .. => false

theorem children_of_isLeaf {e : Expr} (h : e.isLeaf) : e.children = [] := by
  cases e <;> first | rfl | cases h

theorem nodes_of_isLeaf {e : Expr} (h : e.isLeaf) : e.nodes = [e] :=
  nodes_of_children_nil (children_of_isLeaf h)

end Expr
end Lifted
