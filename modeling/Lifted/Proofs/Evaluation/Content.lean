import Lifted.Evaluation.Recursive
import Lifted.Proofs.Expr.Remake
import Lifted.Proofs.Lists

/-!
# Values follow from content

The value of a tree is a matter of its content and of what is bound to the names and cells it uses:
neither identities nor labels count, and no error of an evaluation names a node.

* `Expr.eq_mem_of_tree_eq`, `Expr.eq_op_of_tree_eq`: a tree of the content of an inner node is such
  a node.
* `Expr.width_congr`: the width follows from the content.
* `Semantics.value_congr`: so does the value, failures included.
* `Expr.width_mapLeaves`, `Semantics.value_mapLeaves`: new leaves of the same widths and values
  change neither the widths nor the values of the nodes above them.
-/

namespace Lifted

namespace Expr

theorem constant?_congr {e f : Expr} (same : e.tree = f.tree) : e.constant? = f.constant? := by
  cases e <;> cases f <;> simp_all [tree, constant?]

theorem name?_congr {e f : Expr} (same : e.tree = f.tree) : e.name? = f.name? := by
  cases e <;> cases f <;> simp_all [tree, name?]

theorem isLeaf_congr {e f : Expr} (same : e.tree = f.tree) : e.isLeaf = f.isLeaf := by
  cases e <;> cases f <;> simp_all [tree, isLeaf]

theorem map_tree_children_congr {e f : Expr} (same : e.tree = f.tree) :
    e.children.map tree = f.children.map tree := by
  cases e <;> cases f <;> simp_all [tree, children, trees_eq_map]

theorem eq_mem_of_tree_eq {id : NodeId} {address size f : Expr}
    (same : (mem id address size).tree = f.tree) : ∃ id' address' size',
      f = .mem id' address' size' ∧ address.tree = address'.tree ∧ size.tree = size'.tree := by
  cases f with
  | mem id' address' size' =>
    simp only [tree, Tree.mem.injEq] at same
    exact ⟨id', address', size', rfl, same⟩
  | const | var | op => simp [tree] at same

theorem eq_op_of_tree_eq {id : NodeId} {kind : Operator} {operands : List Expr} {f : Expr}
    (same : (op id kind operands).tree = f.tree) : ∃ id' operands',
      f = .op id' kind operands' ∧ operands.map tree = operands'.map tree := by
  cases f with
  | op id' kind' operands' =>
    rw [tree_op, tree_op, Tree.op.injEq] at same
    obtain ⟨rfl, same⟩ := same
    exact ⟨id', operands', rfl, same⟩
  | const | var | mem => simp [tree] at same

theorem width_congr {e f : Expr} (same : e.tree = f.tree) : e.width = f.width := by
  induction e generalizing f with
  | const | var => cases f <;> simp_all [tree]
  | mem id address size =>
    obtain ⟨id', address', size', rfl, -, sameSize⟩ := eq_mem_of_tree_eq same
    rw [width_mem, width_mem, constant?_congr sameSize]
  | op id kind operands ih =>
    obtain ⟨id', operands', rfl, contents⟩ := eq_op_of_tree_eq same
    rw [width_op, width_op, map_eq_of_map_eq contents fun x hx y hxy => ih x hx hxy]

/-- New leaves that are as wide, and constants where the old ones were, keep all widths: that of a
memory read follows from its size if that is constant. -/
theorem width_mapLeaves {f : Expr → Expr} {e : Expr}
    (h : ∀ x ∈ e.nodes, x.isLeaf → (f x).width = x.width ∧ (f x).constant? = x.constant?) :
    (e.mapLeaves f).width = e.width := by
  induction e with
  | const | var => exact (h _ (self_mem_nodes _) rfl).1
  | mem id address size =>
    obtain ⟨-, below⟩ := forall_mem_nodes_iff.mp h
    have constant : (size.mapLeaves f).constant? = size.constant? := by
      cases leaf : size.isLeaf with
      | true =>
        rw [mapLeaves_of_isLeaf f leaf]
        exact (below size (by simp [children]) size size.self_mem_nodes leaf).2
      | false => cases size <;> first | rfl | cases leaf
    rw [mapLeaves, width_mem, width_mem, constant]
  | op id kind operands ih =>
    obtain ⟨-, below⟩ := forall_mem_nodes_iff.mp h
    have widths : operands.map (width ∘ mapLeaves f) = operands.map width :=
      List.map_congr_left fun c hc => ih c hc (below c hc)
    rw [mapLeaves_op, width_op, width_op, List.map_map, widths]

/-- A change of leaves that looks at their content alone keeps trees of the same content so. -/
theorem tree_mapLeaves_of_tree_eq {f : Expr → Expr}
    (hf : ∀ x y : Expr, x.tree = y.tree → (f x).tree = (f y).tree) {e e' : Expr}
    (same : e.tree = e'.tree) : (e.mapLeaves f).tree = (e'.mapLeaves f).tree := by
  induction e generalizing e' with
  | const | var =>
    rw [mapLeaves_of_isLeaf f rfl, mapLeaves_of_isLeaf f (by rw [← isLeaf_congr same]; rfl)]
    exact hf _ e' same
  | mem id address size ihAddress ihSize =>
    obtain ⟨id', address', size', rfl, sameAddress, sameSize⟩ := eq_mem_of_tree_eq same
    rw [mapLeaves, mapLeaves, tree, tree, ihAddress sameAddress, ihSize sameSize]
  | op id kind operands ih =>
    obtain ⟨id', operands', rfl, contents⟩ := eq_op_of_tree_eq same
    rw [mapLeaves_op, mapLeaves_op, tree_op, tree_op, List.map_map, List.map_map]
    congr 1
    exact map_eq_of_map_eq contents fun x hx y hxy => ih x hx hxy

/-- The names that the variables of a tree have. -/
def Names (e : Expr) (name : String) : Prop := ∃ x ∈ e.nodes, x.name? = some name

theorem Names.child {e c : Expr} (hc : c ∈ e.children) {name : String} (h : c.Names name) :
    e.Names name := by
  obtain ⟨x, hx, same⟩ := h
  exact ⟨x, mem_nodes_of_child hc hx, same⟩

/-- The variables of a tree with other leaves are among these leaves. -/
theorem Names.exists_leaf {f : Expr → Expr} (hf : ∀ x : Expr, x.isLeaf → (f x).isLeaf) {e : Expr}
    {name : String} (h : (e.mapLeaves f).Names name) :
    ∃ x ∈ e.nodes, x.isLeaf ∧ (f x).name? = some name := by
  obtain ⟨y, hy, hn⟩ := h
  rw [nodes, positions_mapLeaves hf, List.map_map, List.mem_map] at hy
  obtain ⟨p, hp, rfl⟩ := hy
  have hn : (p.node.mapLeaves f).name? = some name := hn
  have leaf : p.node.isLeaf := by
    rw [← isLeaf_mapLeaves hf p.node]
    cases h : p.node.mapLeaves f <;> rw [h] at hn <;> first | rfl | cases hn
  rw [mapLeaves_of_isLeaf f leaf] at hn
  exact ⟨p.node, node_mem_nodes hp, leaf, hn⟩

end Expr

namespace Semantics

variable (S : Semantics) {b b' : Bindings}

theorem value_eq (b : Bindings) (e : Expr) :
    S.value b e = e.children.mapM (S.value b) >>= S.onNode b e :=
  Expr.valueBy_eq (S.onNode b) e

theorem onNode_congr {e f : Expr} (same : e.tree = f.tree) (cells : b.cell = b'.cell)
    (names : ∀ name, e.name? = some name → b.var name = b'.var name) {values : List UInt64}
    (len : values.length = e.children.length) : S.onNode b e values = S.onNode b' f values := by
  have width := Expr.width_congr same
  cases e with
  | const id value bytes =>
    cases f <;> simp_all [Expr.tree, onNode]
  | var id name bytes label =>
    cases f with
    | var id' name' bytes' label' =>
      simp only [Expr.tree, Tree.var.injEq] at same
      obtain ⟨rfl, rfl⟩ := same
      rw [onNode, onNode, ofVar, ofVar, names name rfl]
    | const | mem | op => simp [Expr.tree] at same
  | mem id address size =>
    obtain ⟨id', address', size', rfl, -⟩ := Expr.eq_mem_of_tree_eq same
    obtain ⟨x, y, rfl⟩ := List.length_eq_two.mp len
    simp only [onNode, ofCell, width, cells]
  | op id kind operands =>
    obtain ⟨id', operands', rfl, -⟩ := Expr.eq_op_of_tree_eq same
    unfold onNode
    rw [width]

/-- Trees of the same content have the same value, or fail alike, under bindings that agree on
the cells and on the names in the trees. -/
theorem value_congr {e f : Expr} (same : e.tree = f.tree) (cells : b.cell = b'.cell)
    (names : ∀ name, e.Names name → b.var name = b'.var name) : S.value b e = S.value b' f := by
  induction e using Expr.induct_children generalizing f with
  | step e ih =>
  have children : e.children.mapM (S.value b) = f.children.mapM (S.value b') :=
    mapM_eq_of_map_eq (Expr.map_tree_children_congr same) fun c hc d hcd =>
      ih c hc hcd fun name hn => names name (hn.child hc)
  rw [value_eq S b e, value_eq S b' f, ← children]
  cases values : e.children.mapM (S.value b) with
  | error err => rfl
  | ok vs =>
    exact onNode_congr S same cells
      (fun name hn => names name ⟨e, e.self_mem_nodes, hn⟩) (length_of_mapM_ok values)

/-- New leaves that are as wide, are constants where the old ones were, and have the same values,
give the tree the same value, or let it fail alike. -/
theorem value_mapLeaves {f : Expr → Expr} (hf : ∀ x : Expr, x.isLeaf → (f x).isLeaf)
    (cells : b'.cell = b.cell) {e : Expr}
    (h : ∀ x ∈ e.nodes, x.isLeaf → (f x).width = x.width ∧ (f x).constant? = x.constant? ∧
      S.value b' (f x) = S.value b x) : S.value b' (e.mapLeaves f) = S.value b e := by
  induction e using Expr.induct_children with
  | step e ih =>
  cases leaf : e.isLeaf with
  | true =>
    rw [Expr.mapLeaves_of_isLeaf f leaf]
    exact (h e e.self_mem_nodes leaf).2.2
  | false =>
    obtain ⟨-, below⟩ := Expr.forall_mem_nodes_iff.mp h
    have children : (e.mapLeaves f).children.mapM (S.value b') = e.children.mapM (S.value b) := by
      rw [Expr.children_mapLeaves hf, List.mapM_map]
      refine mapM_eq_of_map_eq (f := fun c => c) rfl fun c hc d same => ?_
      rw [← same]
      exact ih c hc (below c hc)
    have width : (e.mapLeaves f).width = e.width :=
      Expr.width_mapLeaves fun x hx leaf => ⟨(h x hx leaf).1, (h x hx leaf).2.1⟩
    rw [value_eq, value_eq, children]
    cases values : e.children.mapM (S.value b) with
    | error err => rfl
    | ok vs =>
      show S.onNode b' (e.mapLeaves f) vs = S.onNode b e vs
      cases e with
      | const | var => cases leaf
      | mem id address size =>
        obtain ⟨x, y, rfl⟩ := List.length_eq_two.mp (length_of_mapM_ok values)
        rw [Expr.mapLeaves] at width ⊢
        simp only [onNode, ofCell, width, cells]
      | op id kind operands =>
        rw [Expr.mapLeaves] at width ⊢
        simp only [onNode, width]

end Semantics
end Lifted
