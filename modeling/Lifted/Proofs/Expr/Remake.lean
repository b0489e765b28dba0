import Lifted.Proofs.Expr.Leaves

/-!
# Trees made again with other leaves

A tree is made again with new leaves and new identities. One node is made into one node, so sharing
is kept where the new identities of different nodes are different.

* `Expr.remake`: new leaves, and a new identity for each inner node.
* `Expr.tree_remake_congr`: the new content follows from the content of the new leaves.
* `Expr.positions_remake`: the same positions, with the new nodes.
* `Expr.mapLeaves`: new leaves alone. The identities of inner nodes are forgotten, as a rewriting
  walk is free to renew them.
* `Expr.outline`: nothing changed but that; two trees with one outline agree in their content
  (`Expr.tree_outline`) and have the same leaves at the same positions.
-/

namespace Lifted

namespace Expr

mutual

/-- The tree with each leaf `x` replaced by `f x`, and the identity `i` of each inner node by
`node i`. -/
def remake (node : NodeId → NodeId) (f : Expr → Expr) : Expr → Expr
  | .const id value bytes => f (.const id value bytes)
  | .var id name bytes label => f (.var id name bytes label)
  | .mem id address size => .mem (node id) (address.remake node f) (size.remake node f)
  | .op id kind operands => .op (node id) kind (remakeOf node f operands)

/-- `remake` on several trees. -/
def remakeOf (node : NodeId → NodeId) (f : Expr → Expr) : List Expr → List Expr
  | [] => []
  | e :: rest => e.remake node f :: remakeOf node f rest

end

end Expr

/-- A position with nodes that are made again. -/
def Position.remake (node : NodeId → NodeId) (f : Expr → Expr) (p : Position) : Position :=
  ⟨p.above.map (Expr.remake node f), p.node.remake node f⟩

theorem Position.path_remake (node : NodeId → NodeId) (f : Expr → Expr) (p : Position) :
    (p.remake node f).path = p.path.map (Expr.remake node f) := by
  unfold path
  rw [List.map_reverse, List.map_cons, remake]

namespace Expr

variable {node node' : NodeId → NodeId} {f g : Expr → Expr}

theorem remakeOf_eq_map (es : List Expr) : remakeOf node f es = es.map (remake node f) := by
  induction es with
  | nil => rfl
  | cons e es ih => rw [remakeOf, ih, List.map_cons]

theorem remake_op (id : NodeId) (kind : Operator) (operands : List Expr) :
    (op id kind operands).remake node f = .op (node id) kind (operands.map (remake node f)) := by
  rw [remake, remakeOf_eq_map]

theorem remake_of_isLeaf {e : Expr} (h : e.isLeaf) : e.remake node f = f e := by
  cases e <;> first | rfl | cases h

theorem isLeaf_remake (hf : ∀ x : Expr, x.isLeaf → (f x).isLeaf) (e : Expr) :
    (e.remake node f).isLeaf = e.isLeaf := by
  cases e with
  | const id value bytes => exact hf (.const id value bytes) rfl
  | var id name bytes label => exact hf (.var id name bytes label) rfl
  | mem | op => rfl

theorem children_remake (hf : ∀ x : Expr, x.isLeaf → (f x).isLeaf) (e : Expr) :
    (e.remake node f).children = e.children.map (remake node f) := by
  cases e with
  | const id value bytes => exact children_of_isLeaf (hf (.const id value bytes) rfl)
  | var id name bytes label => exact children_of_isLeaf (hf (.var id name bytes label) rfl)
  | mem id address size => rfl
  | op id kind operands => rw [remake_op, children, children]

theorem id_remake (hid : ∀ x : Expr, x.isLeaf → (f x).id = node x.id) (e : Expr) :
    (e.remake node f).id = node e.id := by
  cases e with
  | const id value bytes => exact hid (.const id value bytes) rfl
  | var id name bytes label => exact hid (.var id name bytes label) rfl
  | mem | op => rfl

/-- Only what becomes of the leaves that stand in the tree matters. -/
theorem remake_congr {e : Expr} (h : ∀ x ∈ e.nodes, x.isLeaf → f x = g x) :
    e.remake node f = e.remake node g := by
  induction e with
  | const | var => exact h _ (self_mem_nodes _) rfl
  | mem id address size ihAddress ihSize =>
    obtain ⟨-, below⟩ := forall_mem_nodes_iff.mp h
    rw [remake, remake, ihAddress (below _ (by simp [children])),
      ihSize (below _ (by simp [children]))]
  | op id kind operands ih =>
    obtain ⟨-, below⟩ := forall_mem_nodes_iff.mp h
    rw [remake_op, remake_op]
    congr 1
    exact List.map_congr_left fun c hc => ih c hc (below c hc)

theorem remake_remake (hf : ∀ x : Expr, x.isLeaf → (f x).isLeaf) (e : Expr) :
    (e.remake node f).remake node' g = e.remake (node' ∘ node) (g ∘ f) := by
  induction e with
  | const id value bytes => exact remake_of_isLeaf (hf (.const id value bytes) rfl)
  | var id name bytes label => exact remake_of_isLeaf (hf (.var id name bytes label) rfl)
  | mem id address size ihAddress ihSize =>
    rw [remake, remake, remake, ihAddress, ihSize, Function.comp]
  | op id kind operands ih =>
    rw [remake_op, remake_op, remake_op, List.map_map]
    congr 1
    exact List.map_congr_left ih

theorem tree_op (id : NodeId) (kind : Operator) (operands : List Expr) :
    (op id kind operands).tree = .op kind (operands.map tree) := by
  rw [tree, trees_eq_map]

/-- Leaves of the same content in all places make trees of the same content. -/
theorem tree_remake_congr {e : Expr} (h : ∀ x ∈ e.nodes, x.isLeaf → (f x).tree = (g x).tree) :
    (e.remake node f).tree = (e.remake node' g).tree := by
  induction e with
  | const | var => exact h _ (self_mem_nodes _) rfl
  | mem id address size ihAddress ihSize =>
    obtain ⟨-, below⟩ := forall_mem_nodes_iff.mp h
    rw [remake, remake, tree, tree, ihAddress (below _ (by simp [children])),
      ihSize (below _ (by simp [children]))]
  | op id kind operands ih =>
    obtain ⟨-, below⟩ := forall_mem_nodes_iff.mp h
    rw [remake_op, remake_op, tree_op, tree_op, List.map_map, List.map_map]
    congr 1
    exact List.map_congr_left fun c hc => ih c hc (below c hc)

/-- A tree made again with its own leaves is the tree, up to identities. -/
theorem tree_remake_of_leaves {e : Expr} (h : ∀ x ∈ e.nodes, x.isLeaf → (f x).tree = x.tree) :
    (e.remake node f).tree = e.tree := by
  have itself : e.remake (fun i => i) (fun x => x) = e := by
    clear h
    induction e with
    | const | var => rfl
    | mem id address size ihAddress ihSize => rw [remake, ihAddress, ihSize]
    | op id kind operands ih => rw [remake_op, List.map_congr_left ih, List.map_id']
  calc (e.remake node f).tree
      = (e.remake (fun i => i) fun x => x).tree := tree_remake_congr h
    _ = e.tree := by rw [itself]

theorem positionsBelow_remake (hf : ∀ x : Expr, x.isLeaf → (f x).isLeaf) (above : List Expr)
    (e : Expr) : positionsBelow (above.map (remake node f)) (e.remake node f) =
      (positionsBelow above e).map (Position.remake node f) := by
  induction e using induct_children generalizing above with
  | step e ih =>
    rw [positionsBelow_eq, positionsBelow_eq above, List.map_cons, children_remake hf,
      List.flatMap_map, List.map_flatMap]
    congr 1
    exact List.flatMap_congr fun c hc => ih c hc (e :: above)

theorem positions_remake (hf : ∀ x : Expr, x.isLeaf → (f x).isLeaf) (es : List Expr) :
    (es.map (remake node f)).flatMap positions =
      (es.flatMap positions).map (Position.remake node f) := by
  rw [List.flatMap_map, List.map_flatMap]
  exact List.flatMap_congr fun e _ => positionsBelow_remake hf [] e

theorem nodesOf_remake (hf : ∀ x : Expr, x.isLeaf → (f x).isLeaf) (es : List Expr) :
    nodesOf (es.map (remake node f)) = (nodesOf es).map (remake node f) := by
  rw [nodesOf_eq_map_node, nodesOf_eq_map_node, positions_remake hf, List.map_map, List.map_map]
  rfl

theorem mapIds_eq_remake (node : NodeId → NodeId) :
    mapIds node = remake node (mapIds node) := by
  funext e
  induction e with
  | const | var => rfl
  | mem id address size ihAddress ihSize => rw [mapIds, remake, ihAddress, ihSize]
  | op id kind operands ih =>
    rw [mapIds, mapIdsOf_eq_map, remake_op]
    congr 1
    exact List.map_congr_left ih

theorem tree_mapIds (node : NodeId → NodeId) (e : Expr) : (e.mapIds node).tree = e.tree := by
  rw [mapIds_eq_remake]
  refine tree_remake_of_leaves fun x _ leaf => ?_
  cases x with
  | const | var => rfl
  | mem | op => cases leaf

/-! ## Leaves alone -/

mutual

/-- The tree with each leaf `x` replaced by `f x`. The identities of inner nodes are forgotten. -/
def mapLeaves (f : Expr → Expr) : Expr → Expr
  | .const id value bytes => f (.const id value bytes)
  | .var id name bytes label => f (.var id name bytes label)
  | .mem _ address size => .mem 0 (address.mapLeaves f) (size.mapLeaves f)
  | .op _ kind operands => .op 0 kind (mapLeavesOf f operands)

/-- `mapLeaves` on several trees. -/
def mapLeavesOf (f : Expr → Expr) : List Expr → List Expr
  | [] => []
  | e :: rest => e.mapLeaves f :: mapLeavesOf f rest

end

theorem mapLeavesOf_eq_map (f : Expr → Expr) (es : List Expr) :
    mapLeavesOf f es = es.map (mapLeaves f) := by
  induction es with
  | nil => rfl
  | cons e es ih => rw [mapLeavesOf, ih, List.map_cons]

theorem mapLeaves_op (f : Expr → Expr) (id : NodeId) (kind : Operator) (operands : List Expr) :
    (op id kind operands).mapLeaves f = .op 0 kind (operands.map (mapLeaves f)) := by
  rw [mapLeaves, mapLeavesOf_eq_map]

/-- The tree is made again with one identity for all inner nodes. -/
theorem mapLeaves_eq_remake (f : Expr → Expr) : mapLeaves f = remake (fun _ => 0) f := by
  funext e
  induction e with
  | const | var => rfl
  | mem id address size ihAddress ihSize => rw [mapLeaves, remake, ihAddress, ihSize]
  | op id kind operands ih =>
    rw [mapLeaves_op, remake_op]
    congr 1
    exact List.map_congr_left ih

theorem mapLeaves_of_isLeaf (f : Expr → Expr) {e : Expr} (h : e.isLeaf) : e.mapLeaves f = f e := by
  rw [mapLeaves_eq_remake, remake_of_isLeaf h]

theorem isLeaf_mapLeaves (hf : ∀ x : Expr, x.isLeaf → (f x).isLeaf) (e : Expr) :
    (e.mapLeaves f).isLeaf = e.isLeaf := by
  rw [mapLeaves_eq_remake, isLeaf_remake hf]

theorem children_mapLeaves (hf : ∀ x : Expr, x.isLeaf → (f x).isLeaf) (e : Expr) :
    (e.mapLeaves f).children = e.children.map (mapLeaves f) := by
  rw [mapLeaves_eq_remake, children_remake hf]

theorem mapLeaves_congr {e : Expr} (h : ∀ x ∈ e.nodes, x.isLeaf → f x = g x) :
    e.mapLeaves f = e.mapLeaves g := by
  rw [mapLeaves_eq_remake, mapLeaves_eq_remake, remake_congr h]

theorem mapLeaves_remake (hf : ∀ x : Expr, x.isLeaf → (f x).isLeaf) (g : Expr → Expr) (e : Expr) :
    (e.remake node f).mapLeaves g = e.mapLeaves (g ∘ f) := by
  rw [mapLeaves_eq_remake, mapLeaves_eq_remake, remake_remake hf]
  rfl

theorem mapLeaves_mapLeaves (hf : ∀ x : Expr, x.isLeaf → (f x).isLeaf) (g : Expr → Expr)
    (e : Expr) : (e.mapLeaves f).mapLeaves g = e.mapLeaves (g ∘ f) := by
  rw [mapLeaves_eq_remake f, mapLeaves_remake hf]

theorem tree_mapLeaves_congr {e : Expr}
    (h : ∀ x ∈ e.nodes, x.isLeaf → (f x).tree = (g x).tree) :
    (e.mapLeaves f).tree = (e.mapLeaves g).tree := by
  rw [mapLeaves_eq_remake, mapLeaves_eq_remake, tree_remake_congr h]

/-- Two changes of leaves agree on a tree if they agree on its children. -/
theorem mapLeaves_eq_of_children {e : Expr} (leaf : e.isLeaf → f e = g e)
    (h : e.children.map (mapLeaves f) = e.children.map (mapLeaves g)) :
    e.mapLeaves f = e.mapLeaves g := by
  cases e with
  | const | var => exact leaf rfl
  | mem id address size =>
    simp only [children, List.map_cons, List.map_nil, List.cons.injEq, and_true] at h
    rw [mapLeaves, mapLeaves, h.1, h.2]
  | op id kind operands =>
    rw [mapLeaves_op, mapLeaves_op]
    exact congrArg (op 0 kind) h

/-- The content with labels, which is all but the identities. -/
theorem mapIds_zero (e : Expr) :
    e.mapIds (fun _ => 0) = e.mapLeaves fun x => x.mapIds fun _ => 0 := by
  rw [mapLeaves_eq_remake, ← mapIds_eq_remake]

/-! ## Outlines -/

/-- The tree without the identities of its inner nodes. -/
def outline (e : Expr) : Expr := e.mapLeaves fun x => x

theorem isLeaf_outline (e : Expr) : e.outline.isLeaf = e.isLeaf := isLeaf_mapLeaves (fun _ h => h) e

theorem outline_of_isLeaf {e : Expr} (h : e.isLeaf) : e.outline = e := mapLeaves_of_isLeaf _ h

theorem mapLeaves_outline (f : Expr → Expr) (e : Expr) : e.outline.mapLeaves f = e.mapLeaves f :=
  mapLeaves_mapLeaves (fun _ h => h) f e

@[simp] theorem tree_outline (e : Expr) : e.outline.tree = e.tree := by
  unfold outline
  rw [mapLeaves_eq_remake]
  exact tree_remake_of_leaves fun _ _ _ => rfl

end Expr

/-- A position with other leaves. -/
def Position.mapLeaves (f : Expr → Expr) (p : Position) : Position :=
  ⟨p.above.map (Expr.mapLeaves f), p.node.mapLeaves f⟩

theorem Expr.positions_mapLeaves {f : Expr → Expr} (hf : ∀ x : Expr, x.isLeaf → (f x).isLeaf)
    (e : Expr) : (e.mapLeaves f).positions = e.positions.map (Position.mapLeaves f) := by
  have same : Position.mapLeaves f = Position.remake (fun _ => 0) f := by
    funext p
    rw [Position.mapLeaves, Position.remake, mapLeaves_eq_remake]
  rw [same, mapLeaves_eq_remake]
  exact positionsBelow_remake hf [] e

end Lifted
