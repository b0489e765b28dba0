import Lifted.Evaluation.Recursive
import Lifted.Proofs.Expr.Leaves
import Lifted.Proofs.Lists

/-!
# The order of an evaluation

An evaluation comes to a node after all its children, and these from left to right. Where a tree has
no value, the first node in this order that has none has children with values, so it is the node
itself that fails.

* `Expr.postorder`, `Expr.postorderOf`: the nodes of trees, the children of a node before it.
* `Expr.value_of_mem_nodes`: where a tree has a value, so has each node of it.
* `Expr.mem_before_of_child`: a child stands somewhere before its node.
* `Expr.forM_postorderOf`: trees are evaluated node by node in this order.
* `Expr.forM_postorderOf_error_iff`, `Expr.exists_of_valueBy_error`: the node at which that fails.
-/

namespace Lifted
namespace Expr

mutual

/-- The nodes of a tree, once for each position, a node after its children and these from left to
right. -/
def postorder (e : Expr) : List Expr :=
  match e with
  | .const .. | .var .. => [e]
  | .mem _ address size => postorder address ++ (postorder size ++ [e])
  | .op _ _ operands => postorderOf operands ++ [e]

/-- `postorder` of several trees, from left to right. -/
def postorderOf : List Expr → List Expr
  | [] => []
  | e :: rest => postorder e ++ postorderOf rest

end

theorem postorderOf_eq_flatMap (es : List Expr) : postorderOf es = es.flatMap postorder := by
  induction es with
  | nil => rfl
  | cons e es ih => rw [postorderOf, ih, List.flatMap_cons]

theorem postorder_eq (e : Expr) : e.postorder = postorderOf e.children ++ [e] := by
  cases e <;> simp [postorder, postorderOf, children]

/-! ## Children first -/

/-- Every node has its children somewhere before it. -/
def ChildrenFirst (xs : List Expr) : Prop :=
  ∀ before x after, xs = before ++ x :: after → ∀ c ∈ x.children, c ∈ before

theorem ChildrenFirst.append {xs ys : List Expr} (hx : ChildrenFirst xs) (hy : ChildrenFirst ys) :
    ChildrenFirst (xs ++ ys) := by
  intro before x after split c hc
  rcases List.append_eq_append_iff.mp split with ⟨more, rfl, h⟩ | ⟨more, rfl, h⟩
  · exact List.mem_append_right _ (hy more x after h c hc)
  · cases more with
    | nil =>
      have := hy [] x after (by simpa using h.symm) c hc
      cases this
    | cons y more =>
      obtain ⟨rfl, rfl⟩ := List.cons.inj h
      exact hx before x more rfl c hc

theorem ChildrenFirst.concat {xs : List Expr} (hx : ChildrenFirst xs) {e : Expr}
    (he : ∀ c ∈ e.children, c ∈ xs) : ChildrenFirst (xs ++ [e]) := by
  intro before x after split c hc
  rcases List.append_eq_append_iff.mp split with ⟨more, rfl, h⟩ | ⟨more, rfl, h⟩
  · cases more with
    | nil =>
      obtain ⟨rfl, -⟩ := List.cons.inj h
      exact List.mem_append_left _ (he c hc)
    | cons y more => simp at h
  · cases more with
    | nil =>
      obtain ⟨rfl, -⟩ := List.cons.inj h
      simpa using he c hc
    | cons y more =>
      obtain ⟨rfl, -⟩ := List.cons.inj h
      exact hx before x more rfl c hc

theorem self_mem_postorder (e : Expr) : e ∈ e.postorder := by simp [postorder_eq]

theorem childrenFirst_postorderOf {es : List Expr}
    (each : ∀ e ∈ es, ChildrenFirst e.postorder) : ChildrenFirst (postorderOf es) := by
  induction es with
  | nil =>
    intro before x after h
    simp [postorderOf] at h
  | cons e es ih =>
    rw [postorderOf]
    exact (each e List.mem_cons_self).append (ih fun x hx => each x (List.mem_cons_of_mem _ hx))

theorem childrenFirst_postorder (e : Expr) : ChildrenFirst e.postorder := by
  induction e using induct_children with
  | step e ih =>
    rw [postorder_eq]
    refine (childrenFirst_postorderOf ih).concat fun c hc => ?_
    rw [postorderOf_eq_flatMap]
    exact List.mem_flatMap.mpr ⟨c, hc, c.self_mem_postorder⟩

theorem mem_before_of_child {es before after : List Expr} {x c : Expr}
    (split : postorderOf es = before ++ x :: after) (hc : c ∈ x.children) : c ∈ before :=
  childrenFirst_postorderOf (fun e _ => e.childrenFirst_postorder) before x after split c hc

theorem mem_nodes_of_mem_postorder {e x : Expr} (hx : x ∈ e.postorder) : x ∈ e.nodes := by
  induction e using induct_children with
  | step e ih =>
    rw [postorder_eq, postorderOf_eq_flatMap] at hx
    simp only [List.mem_append, List.mem_flatMap, List.mem_singleton] at hx
    rcases hx with ⟨c, hc, hx⟩ | rfl
    · exact mem_nodes_of_child hc (ih c hc hx)
    · exact x.self_mem_nodes

theorem mem_nodesOf_of_mem_postorderOf {es : List Expr} {x : Expr} (hx : x ∈ postorderOf es) :
    x ∈ nodesOf es := by
  rw [postorderOf_eq_flatMap] at hx
  obtain ⟨e, he, hx⟩ := List.mem_flatMap.mp hx
  exact mem_nodesOf.mpr ⟨e, he, mem_nodes_of_mem_postorder hx⟩

/-! ## Evaluation -/

section

variable {valueOf : (node : Expr) → (values : List UInt64) → Except Error UInt64}

theorem forM_postorderOf_of_each {f : Expr → Except Error PUnit} {es : List Expr}
    (each : ∀ e ∈ es, e.postorder.forM f = f e) : (postorderOf es).forM f = es.forM f := by
  induction es with
  | nil => rfl
  | cons e es ih =>
    rw [postorderOf, forM_append, List.forM, each e List.mem_cons_self,
      ih fun x hx => each x (List.mem_cons_of_mem _ hx)]

/-- To evaluate a tree is to evaluate its nodes one after the other. -/
theorem forM_postorder (e : Expr) :
    (e.postorder.forM fun x => discard (x.valueBy valueOf)) = discard (e.valueBy valueOf) := by
  induction e using induct_children with
  | step e ih =>
    rw [postorder_eq, forM_append, forM_postorderOf_of_each ih, ← discard_mapM]
    cases values : e.children.mapM (valueBy valueOf) with
    | error err =>
      rw [valueBy_eq, values]
      rfl
    | ok vs =>
      show (discard (e.valueBy valueOf) >>= fun _ => pure ()) = _
      cases e.valueBy valueOf <;> rfl

theorem forM_postorderOf (es : List Expr) :
    ((postorderOf es).forM fun x => discard (x.valueBy valueOf)) =
      es.forM fun e => discard (e.valueBy valueOf) :=
  forM_postorderOf_of_each fun e _ => e.forM_postorder

/-- The nodes of a tree with a value have values. -/
theorem value_of_mem_nodes {e : Expr} (he : ∃ v, e.valueBy valueOf = .ok v) {x : Expr}
    (hx : x ∈ e.nodes) : ∃ v, x.valueBy valueOf = .ok v := by
  induction e using induct_children with
  | step e ih =>
  rcases mem_nodes_iff.mp hx with rfl | ⟨c, hc, hx⟩
  · exact he
  · obtain ⟨v, hv⟩ := he
    rw [valueBy_eq] at hv
    obtain ⟨vs, hvs, -⟩ := ok_of_bind hv
    exact ih c hc (exists_mapM_ok_iff.mp ⟨vs, hvs⟩ c hc) hx

/-- An evaluation fails at the first node that fails on the values of its children. -/
theorem forM_postorderOf_error_iff {es : List Expr} {err : Error} :
    ((postorderOf es).forM fun x => discard (x.valueBy valueOf)) = .error err ↔
      ∃ before x after vs, postorderOf es = before ++ x :: after ∧
        (∀ y ∈ before, ∃ v, y.valueBy valueOf = .ok v) ∧
        x.children.mapM (valueBy valueOf) = .ok vs ∧ valueOf x vs = .error err := by
  rw [forM_error_iff]
  constructor
  · rintro ⟨before, x, after, split, earlier, hx⟩
    have values : ∀ y ∈ before, ∃ v, y.valueBy valueOf = .ok v := fun y hy =>
      discard_ok_iff.mp (earlier y hy)
    obtain ⟨vs, hvs⟩ := exists_mapM_ok_iff.mpr fun c hc =>
      values c (mem_before_of_child split hc)
    refine ⟨before, x, after, vs, split, values, hvs, ?_⟩
    rw [valueBy_eq, hvs] at hx
    exact discard_error_iff.mp hx
  · rintro ⟨before, x, after, vs, split, values, hvs, hx⟩
    refine ⟨before, x, after, split, fun y hy => discard_ok_iff.mpr (values y hy), ?_⟩
    rw [valueBy_eq, hvs]
    exact discard_error_iff.mpr hx

/-- A tree that has no value has a node that fails on the values of its children. -/
theorem exists_of_valueBy_error {e : Expr} {err : Error} (h : e.valueBy valueOf = .error err) :
    ∃ x ∈ e.nodes, ∃ vs,
      x.children.mapM (valueBy valueOf) = .ok vs ∧ valueOf x vs = .error err := by
  have failed : ((postorderOf [e]).forM fun x => discard (x.valueBy valueOf)) = .error err := by
    rw [forM_postorderOf, List.forM, h]
    rfl
  obtain ⟨before, x, after, vs, split, -, values, hx⟩ := forM_postorderOf_error_iff.mp failed
  have there : x ∈ nodesOf [e] := mem_nodesOf_of_mem_postorderOf (by simp [split])
  exact ⟨x, by rwa [nodesOf_singleton] at there, vs, values, hx⟩

end

end Expr
end Lifted
