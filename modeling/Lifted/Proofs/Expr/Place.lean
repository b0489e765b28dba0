import Lifted.Proofs.Expr.Remake
import Lifted.Proofs.Lists
import Mathlib.Data.List.Nodup

/-!
# Places

A place in a batch is a tree and the way down from its root, child by child. A node that stands
twice below one parent has one position there but two places.

* `Expr.descend`, `Place`, `Place.node?`: the node at a place.
* `Expr.descend_inj`, `Place.inj`: where the nodes of one kind have different identities, no two
  places share such a node.
* `Alongside`: what stands at a place of one tree is related to what stands there in another.
* `Alongside.of_outline`: so it is with a tree whose leaves are replaced.
-/

namespace Lifted

/-- The node that the way leads to from the root, by the children to take. -/
def Expr.descend (e : Expr) : List Nat → Option Expr
  | [] => some e
  | i :: way => e.children[i]?.bind fun c => c.descend way

/-- A place in a batch. -/
structure Place where
  /-- The tree, counted from the first one. -/
  tree : Nat
  /-- The children to take from the root down, each counted from the left. -/
  way : List Nat
  deriving DecidableEq, Repr

/-- The node at a place of the batch, if the batch has that place. -/
def Place.node? (p : Place) (es : List Expr) : Option Expr :=
  es[p.tree]?.bind fun e => e.descend p.way

namespace Expr

variable {e x y : Expr} {way way' : List Nat}

/-- A way that goes on leads to a place among the children. -/
theorem descend_cons (i : Nat) (way : List Nat) :
    e.descend (i :: way) = (Place.mk i way).node? e.children := rfl

theorem mem_nodes_of_descend (hx : e.descend way = some x) : x ∈ e.nodes := by
  induction way generalizing e with
  | nil =>
    obtain rfl := Option.some.inj hx
    exact e.self_mem_nodes
  | cons i way ih =>
    rw [descend_cons] at hx
    obtain ⟨c, hc, hx⟩ := Option.bind_eq_some_iff.mp hx
    exact mem_nodes_of_child (List.mem_of_getElem? hc) (ih hx)

end Expr

namespace Place

variable {es : List Expr} {p p' : Place} {x y : Expr}

theorem mem_nodesOf (hx : p.node? es = some x) : x ∈ Expr.nodesOf es := by
  obtain ⟨e, he, hx⟩ := Option.bind_eq_some_iff.mp hx
  exact Expr.mem_nodesOf.mpr ⟨e, List.mem_of_getElem? he, Expr.mem_nodes_of_descend hx⟩

end Place

/-! ## One place for a node -/

section

variable (kind : Expr → Bool)

/-- The identities of the nodes of this kind, once for each place. -/
def idsOf (es : List Expr) : List NodeId := ((Expr.nodesOf es).filter kind).map Expr.id

variable {kind} {es : List Expr} {e x y : Expr}

theorem idsOf_eq_flatMap (es : List Expr) : idsOf kind es = es.flatMap fun e => idsOf kind [e] := by
  unfold idsOf
  simp only [Expr.nodesOf, List.filter_flatMap, List.map_flatMap, List.flatMap_cons,
    List.flatMap_nil, List.append_nil]

theorem idsOf_cons (e : Expr) (es : List Expr) :
    idsOf kind (e :: es) = idsOf kind [e] ++ idsOf kind es := by
  rw [idsOf_eq_flatMap, List.flatMap_cons, ← idsOf_eq_flatMap]

/-- The root and then the children. -/
theorem idsOf_singleton (e : Expr) :
    idsOf kind [e] = (if kind e then [e.id] else []) ++ idsOf kind e.children := by
  unfold idsOf
  rw [Expr.nodesOf_singleton, Expr.nodes_eq_nodesOf]
  by_cases he : kind e = true
  · rw [if_pos he, List.filter_cons_of_pos he]
    rfl
  · rw [if_neg he, List.filter_cons_of_neg he]
    rfl

theorem mem_idsOf {i : NodeId} : i ∈ idsOf kind es ↔ ∃ x ∈ Expr.nodesOf es, kind x ∧ x.id = i := by
  simp [idsOf, and_assoc]

/-- No two places of the batch have one node, if no two places of one of its trees have. -/
theorem Place.inj_of_each {p p' : Place} (distinct : (idsOf kind es).Nodup)
    (each : ∀ e ∈ es, ∀ way way' : List Nat, e.descend way = some x → e.descend way' = some y →
      way = way')
    (hx : p.node? es = some x) (hy : p'.node? es = some y) (kx : kind x) (ky : kind y)
    (same : x.id = y.id) : p = p' := by
  obtain ⟨i, way⟩ := p
  obtain ⟨k, way'⟩ := p'
  obtain ⟨e, he, hx⟩ := Option.bind_eq_some_iff.mp hx
  obtain ⟨f, hf, hy⟩ := Option.bind_eq_some_iff.mp hy
  have there : x.id ∈ idsOf kind [e] :=
    mem_idsOf.mpr ⟨x, by simpa [Expr.nodesOf_singleton] using Expr.mem_nodes_of_descend hx, kx, rfl⟩
  have there' : x.id ∈ idsOf kind [f] :=
    mem_idsOf.mpr ⟨y, by simpa [Expr.nodesOf_singleton] using Expr.mem_nodes_of_descend hy, ky,
      same.symm⟩
  obtain ⟨hi, rfl⟩ := List.getElem?_eq_some_iff.mp he
  obtain ⟨hk, rfl⟩ := List.getElem?_eq_some_iff.mp hf
  rw [idsOf_eq_flatMap, List.nodup_flatMap] at distinct
  have apart := List.pairwise_iff_getElem.mp distinct.2
  rcases Nat.lt_trichotomy i k with lt | rfl | gt
  · exact absurd there' (apart i k hi hk lt there)
  · rw [each _ (List.getElem_mem hi) way way' hx hy]
  · exact absurd there (apart k i hk hi gt there')

theorem Expr.descend_inj (distinct : (idsOf kind [e]).Nodup) {way way' : List Nat}
    (hx : e.descend way = some x) (hy : e.descend way' = some y) (kx : kind x) (ky : kind y)
    (same : x.id = y.id) : way = way' := by
  induction e using Expr.induct_children generalizing way way' with
  | step e ih =>
  rw [idsOf_singleton] at distinct
  obtain ⟨-, below, apart⟩ := List.nodup_append'.mp distinct
  -- A node of this kind at the root is met nowhere below.
  have root : ∀ {z : Expr} {i : Nat} {rest : List Nat}, e.descend (i :: rest) = some z → kind z →
      kind e → e.id ≠ z.id := by
    intro z i rest hz kz ke same
    rw [descend_cons] at hz
    exact apart (a := e.id) (by simp [ke]) (mem_idsOf.mpr ⟨z, Place.mem_nodesOf hz, kz, same.symm⟩)
  cases way with
  | nil =>
    obtain rfl := Option.some.inj hx
    cases way' with
    | nil => rfl
    | cons k way' => exact absurd same (root hy ky kx)
  | cons i way =>
    cases way' with
    | nil =>
      obtain rfl := Option.some.inj hy
      exact absurd same.symm (root hx kx ky)
    | cons k way' =>
      have each : ∀ c ∈ e.children, ∀ way way' : List Nat, c.descend way = some x →
          c.descend way' = some y → way = way' := by
        intro c hc way way' hx hy
        refine ih c hc ?_ hx hy
        rw [idsOf_eq_flatMap, List.nodup_flatMap] at below
        exact below.1 c hc
      rw [descend_cons] at hx hy
      have place := Place.inj_of_each below each hx hy kx ky same
      rw [(Place.mk.inj place).1, (Place.mk.inj place).2]

/-- Where the nodes of one kind have different identities, no two places share such a node. -/
theorem Place.inj {p p' : Place} (distinct : (idsOf kind es).Nodup) (hx : p.node? es = some x)
    (hy : p'.node? es = some y) (kx : kind x) (ky : kind y) (same : x.id = y.id) : p = p' := by
  refine Place.inj_of_each distinct (fun e he way way' hx hy => ?_) hx hy kx ky same
  rw [idsOf_eq_flatMap, List.nodup_flatMap] at distinct
  exact Expr.descend_inj (distinct.1 e he) hx hy kx ky same

end

/-! ## Two trees side by side -/

section

variable {R S : Expr → Expr → Prop} {e e' : Expr} {es es' : List Expr}

/-- Whatever stands at a place in `e` is related to what stands there in `e'`. -/
def Alongside (R : Expr → Expr → Prop) (e e' : Expr) : Prop :=
  ∀ way, Option.Rel R (e.descend way) (e'.descend way)

theorem Alongside.root (h : Alongside R e e') : R e e' := by
  obtain ⟨f, same, r⟩ := exists_of_rel_some (h [])
  rwa [Option.some.inj same]

/-- What holds at all places of the trees holds at all places of the batches. -/
theorem rel_node? (h : List.Forall₂ (Alongside R) es es') (p : Place) :
    Option.Rel R (p.node? es) (p.node? es') := by
  obtain ⟨i, way⟩ := p
  unfold Place.node?
  induction h generalizing i with
  | nil => exact .none
  | cons here _ ih =>
    cases i with
    | zero => exact here way
    | succ i => exact ih i

theorem Alongside.node (here : R e e')
    (below : List.Forall₂ (Alongside R) e.children e'.children) : Alongside R e e' := by
  intro way
  cases way with
  | nil => exact .some here
  | cons i way =>
    rw [Expr.descend_cons, Expr.descend_cons]
    exact rel_node? below ⟨i, way⟩

theorem Alongside.leaf (here : R e e') (leaf : e.isLeaf) (leaf' : e'.isLeaf) :
    Alongside R e e' := by
  refine .node here ?_
  rw [Expr.children_of_isLeaf leaf, Expr.children_of_isLeaf leaf']
  exact .nil

theorem Alongside.of_outline {f : Expr → Expr} (hf : ∀ x : Expr, x.isLeaf → (f x).isLeaf)
    (same : e'.outline = e.mapLeaves f) :
    Alongside (fun x y => y.outline = x.mapLeaves f) e e' := by
  induction e using Expr.induct_children generalizing e' with
  | step e ih =>
  refine .node same ?_
  have children := congrArg Expr.children same
  rw [Expr.outline, Expr.children_mapLeaves (fun _ h => h), Expr.children_mapLeaves hf] at children
  refine (forall₂_mem (map_eq_map_iff.mp children)).flip.imp ?_
  rintro c c' ⟨-, hc, same⟩
  exact ih c hc same

theorem Alongside.of_outlines {f : Expr → Expr} (hf : ∀ x : Expr, x.isLeaf → (f x).isLeaf)
    (same : es'.map Expr.outline = es.map (Expr.mapLeaves f)) :
    List.Forall₂ (Alongside fun x y => y.outline = x.mapLeaves f) es es' :=
  (map_eq_map_iff.mp same).flip.imp fun _ _ => .of_outline hf

end

end Lifted
