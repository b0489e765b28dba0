import Lifted.Expr.WellFormed
import Lifted.Proofs.Expr.Remake
import Lifted.Proofs.Lists
import Mathlib.Data.Set.Function
import Mathlib.Logic.Relator

/-!
# Trees with other identities

Two batches are the same up to identities if the one has other identities in place of the other's,
and different ones in place of different ones. Their contents and labels are equal then, and they
share their nodes in the same way.

* `Expr.Renumbered`: one batch is the other with other identities.
* `Expr.Renumbered.content`, `Expr.Renumbered.sharing`: what that means for contents and sharing.
* `Expr.Twins`: the identities of the nodes of each place are related, and all else is equal.
* `Expr.Renumbered.exists_twins`, `Expr.renumbered_of_twins`: renumbered batches are twins under a
  relation that is one to one.
* `Expr.Twins.positions`: the positions of twins correspond.
-/

namespace Lifted

namespace Expr

/-- The batch `es'` is `es` with other identities, different ones for different nodes. -/
def Renumbered (es es' : List Expr) : Prop :=
  ∃ f : NodeId → NodeId, Set.InjOn f {i | ∃ x ∈ nodesOf es, x.id = i} ∧ es' = es.map (mapIds f)

/-- The trees are equal but for identities, and `r` holds between the identities of each place. -/
inductive Twins (r : NodeId → NodeId → Prop) : Expr → Expr → Prop
  | const {id id' : NodeId} (value : UInt64) (bytes : UInt8) (h : r id id') :
    Twins r (.const id value bytes) (.const id' value bytes)
  | var {id id' : NodeId} (name : String) (bytes : UInt8) (label : Option String) (h : r id id') :
    Twins r (.var id name bytes label) (.var id' name bytes label)
  | mem {id id' : NodeId} {address address' size size' : Expr} (h : r id id')
    (hAddress : Twins r address address') (hSize : Twins r size size') :
    Twins r (.mem id address size) (.mem id' address' size')
  | op {id id' : NodeId} (kind : Operator) {operands operands' : List Expr} (h : r id id')
    (hOperands : List.Forall₂ (Twins r) operands operands') :
    Twins r (.op id kind operands) (.op id' kind operands')

end Expr

/-- The nodes of two positions are twins, down from the roots. -/
def Position.Twins (r : NodeId → NodeId → Prop) (p p' : Position) : Prop :=
  List.Forall₂ (Expr.Twins r) p.above p'.above ∧ p.node.Twins r p'.node

theorem Position.Twins.path {r : NodeId → NodeId → Prop} {p p' : Position} (h : p.Twins r p') :
    List.Forall₂ (Expr.Twins r) p.path p'.path :=
  List.rel_reverse (.cons h.2 h.1)

namespace Expr

namespace Twins

variable {r : NodeId → NodeId → Prop} {f : NodeId → NodeId} {e e' : Expr} {es es' : List Expr}

theorem id (h : Twins r e e') : r e.id e'.id := by
  cases h <;> assumption

theorem children (h : Twins r e e') : List.Forall₂ (Twins r) e.children e'.children := by
  cases h with
  | const | var => exact .nil
  | mem _ hAddress hSize => exact .cons hAddress (.cons hSize .nil)
  | op _ _ hOperands => exact hOperands

/-- The trees differ in nothing but identities. -/
theorem eq_mapIds (h : Twins r e e') (hf : ∀ i i', r i i' → f i = i') : e' = e.mapIds f := by
  induction e generalizing e' with
  | const => cases h with
    | const _ _ h => rw [mapIds, hf _ _ h]
  | var => cases h with
    | var _ _ _ h => rw [mapIds, hf _ _ h]
  | mem id address size ihAddress ihSize => cases h with
    | mem h hAddress hSize => rw [mapIds, hf _ _ h, ← ihAddress hAddress, ← ihSize hSize]
  | op id kind operands ih => cases h with
    | op _ h hOperands =>
      have each : List.Forall₂ (fun d c => d = c.mapIds f) _ operands :=
        ((forall₂_mem hOperands).imp fun c d hcd => ih c hcd.1 hcd.2.2).flip
      rw [mapIds, hf _ _ h, mapIdsOf_eq_map, ← map_eq_map_iff.mpr each, List.map_id']

theorem of_mapIds (h : ∀ x ∈ e.nodes, r x.id (f x.id)) : Twins r e (e.mapIds f) := by
  obtain ⟨root, below⟩ := forall_mem_nodes_iff.mp h
  induction e with
  | const | var => constructor; exact root
  | mem id address size ihAddress ihSize =>
    have hAddress := below address (by simp [Expr.children])
    have hSize := below size (by simp [Expr.children])
    obtain ⟨root', below'⟩ := forall_mem_nodes_iff.mp hAddress
    obtain ⟨root'', below''⟩ := forall_mem_nodes_iff.mp hSize
    exact .mem root (ihAddress hAddress root' below') (ihSize hSize root'' below'')
  | op id kind operands ih =>
    rw [mapIds, mapIdsOf_eq_map]
    refine .op kind root (List.forall₂_map_right_iff.mpr (List.forall₂_same.mpr fun c hc => ?_))
    obtain ⟨root', below'⟩ := forall_mem_nodes_iff.mp (below c hc)
    exact ih c hc (below c hc) root' below'

theorem flip (h : Twins r e e') : Twins (Function.swap r) e' e := by
  induction e generalizing e' with
  | const => cases h with
    | const _ _ h => exact .const _ _ h
  | var => cases h with
    | var _ _ _ h => exact .var _ _ _ h
  | mem id address size ihAddress ihSize => cases h with
    | mem h hAddress hSize => exact .mem h (ihAddress hAddress) (ihSize hSize)
  | op id kind operands ih => cases h with
    | op _ h hOperands =>
      exact .op _ h ((forall₂_mem hOperands).imp fun c d hcd => ih c hcd.1 hcd.2.2).flip

theorem imp {r' : NodeId → NodeId → Prop} (h : Twins r e e') (weaker : ∀ i i', r i i' → r' i i') :
    Twins r' e e' := by
  induction e generalizing e' with
  | const => cases h with
    | const _ _ h => exact .const _ _ (weaker _ _ h)
  | var => cases h with
    | var _ _ _ h => exact .var _ _ _ (weaker _ _ h)
  | mem id address size ihAddress ihSize => cases h with
    | mem h hAddress hSize => exact .mem (weaker _ _ h) (ihAddress hAddress) (ihSize hSize)
  | op id kind operands ih => cases h with
    | op _ h hOperands =>
      exact .op _ (weaker _ _ h) ((forall₂_mem hOperands).imp fun c d hcd => ih c hcd.1 hcd.2.2)

theorem positionsBelow (h : Twins r e e') {above above' : List Expr}
    (ha : List.Forall₂ (Twins r) above above') :
    List.Forall₂ (Position.Twins r) (e.positionsBelow above) (e'.positionsBelow above') := by
  induction e using induct_children generalizing e' above above' with
  | step e ih =>
    rw [positionsBelow_eq, positionsBelow_eq]
    refine .cons ⟨ha, h⟩ (List.rel_flatMap (forall₂_mem h.children) fun c c' hc => ?_)
    exact ih c hc.1 hc.2.2 (.cons h ha)

theorem positions (h : List.Forall₂ (Twins r) es es') :
    List.Forall₂ (Position.Twins r) (es.flatMap Expr.positions) (es'.flatMap Expr.positions) :=
  List.rel_flatMap h fun _ _ he => he.positionsBelow .nil

theorem nodes (h : List.Forall₂ (Twins r) es es') :
    List.Forall₂ (Twins r) (nodesOf es) (nodesOf es') := by
  rw [nodesOf_eq_map_node, nodesOf_eq_map_node, List.forall₂_map_left_iff,
    List.forall₂_map_right_iff]
  exact (positions h).imp fun _ _ hp => hp.2

end Twins

/-! ## Renumbered batches -/

theorem mapIds_mapIds (f g : NodeId → NodeId) (e : Expr) :
    (e.mapIds f).mapIds g = e.mapIds (g ∘ f) := by
  induction e with
  | const | var => rfl
  | mem id address size ihAddress ihSize => rw [mapIds, mapIds, ihAddress, ihSize, mapIds]; rfl
  | op id kind operands ih =>
    rw [mapIds, mapIds, mapIds, mapIdsOf_eq_map, mapIdsOf_eq_map, mapIdsOf_eq_map, List.map_map]
    congr 1
    exact List.map_congr_left ih

theorem mapIds_id (e : Expr) : e.mapIds (fun i => i) = e := by
  induction e with
  | const | var => rfl
  | mem id address size ihAddress ihSize => rw [mapIds, ihAddress, ihSize]
  | op id kind operands ih =>
    rw [mapIds, mapIdsOf_eq_map, List.map_congr_left ih, List.map_id']

theorem nodesOf_mapIds (f : NodeId → NodeId) (es : List Expr) :
    nodesOf (es.map (mapIds f)) = (nodesOf es).map (mapIds f) := by
  rw [mapIds_eq_remake]
  exact nodesOf_remake (fun x leaf => by cases x <;> first | rfl | cases leaf) es

theorem renumbered_of_twins {r : NodeId → NodeId → Prop} (unique : Relator.BiUnique r)
    {es es' : List Expr} (h : List.Forall₂ (Twins r) es es') : Renumbered es es' := by
  classical
  let f (i : NodeId) : NodeId := if known : ∃ i', r i i' then known.choose else 0
  have along : ∀ i i', r i i' → f i = i' := by
    intro i i' hi
    have known : ∃ i', r i i' := ⟨i', hi⟩
    exact (dif_pos known).trans (unique.2 known.choose_spec hi)
  refine ⟨f, ?_, ?_⟩
  · rintro i ⟨x, hx, rfl⟩ k ⟨y, hy, rfl⟩ same
    obtain ⟨x', -, hx⟩ := exists_mem_of_forall₂ (Twins.nodes h) hx
    obtain ⟨y', -, hy⟩ := exists_mem_of_forall₂ (Twins.nodes h) hy
    rw [along _ _ hx.id, along _ _ hy.id] at same
    exact unique.1 (same ▸ hx.id) hy.id
  · have each : List.Forall₂ (fun e' e => e' = e.mapIds f) es' es :=
      (h.imp fun e e' he => he.eq_mapIds along).flip
    rw [← map_eq_map_iff.mpr each, List.map_id']

namespace Renumbered

variable {es es' es'' : List Expr}

/-- The identities of the two batches go together one by one. -/
theorem exists_twins (h : Renumbered es es') :
    ∃ r : NodeId → NodeId → Prop, Relator.BiUnique r ∧ List.Forall₂ (Twins r) es es' ∧
      ∀ i i', r i i' → (∃ x ∈ nodesOf es, x.id = i) ∧ ∃ y ∈ nodesOf es', y.id = i' := by
  obtain ⟨f, inj, rfl⟩ := h
  let r (i i' : NodeId) : Prop := (∃ x ∈ nodesOf es, x.id = i) ∧ f i = i'
  have twins : List.Forall₂ (Twins r) es (es.map (mapIds f)) := by
    refine List.forall₂_map_right_iff.mpr (List.forall₂_same.mpr fun e he => ?_)
    exact Twins.of_mapIds fun x hx => ⟨⟨x, mem_nodesOf.mpr ⟨e, he, hx⟩, rfl⟩, rfl⟩
  refine ⟨r, ⟨?_, ?_⟩, twins, ?_⟩
  · rintro i k i' ⟨hi, rfl⟩ ⟨hk, same⟩
    exact inj hi hk same.symm
  · rintro i i' k' ⟨-, rfl⟩ ⟨-, rfl⟩
    rfl
  · rintro i i' ⟨⟨x, hx, rfl⟩, rfl⟩
    obtain ⟨y, hy, -, same⟩ := exists_mem_of_forall₂ ((Twins.nodes twins).imp fun _ _ h => h.id) hx
    exact ⟨⟨x, hx, rfl⟩, y, hy, same.symm⟩

/-- The contents and labels are the same. -/
theorem content (h : Renumbered es es') :
    es'.map (mapIds fun _ => 0) = es.map (mapIds fun _ => 0) := by
  obtain ⟨f, -, rfl⟩ := h
  rw [List.map_map]
  exact List.map_congr_left fun e _ => mapIds_mapIds f (fun _ => 0) e

theorem map_tree (h : Renumbered es es') : es'.map tree = es.map tree := by
  obtain ⟨f, -, rfl⟩ := h
  rw [List.map_map]
  exact List.map_congr_left fun e _ => tree_mapIds f e

/-- One identity is one node in the one batch if it is in the other. -/
theorem coherent (h : Renumbered es es') (coherent : Coherent es) : Coherent es' := by
  obtain ⟨f, inj, rfl⟩ := h
  unfold Coherent
  rw [nodesOf_mapIds]
  intro x' hx' y' hy' same
  obtain ⟨x, hx, rfl⟩ := List.mem_map.mp hx'
  obtain ⟨y, hy, rfl⟩ := List.mem_map.mp hy'
  rw [id_mapIds, id_mapIds] at same
  rw [coherent x hx y hy (inj ⟨x, hx, rfl⟩ ⟨y, hy, rfl⟩ same)]

theorem refl (es : List Expr) : Renumbered es es := by
  have same : es.map (mapIds fun i => i) = es := by
    rw [List.map_congr_left fun e _ => mapIds_id e, List.map_id']
  exact ⟨fun i => i, Set.injOn_id _, same.symm⟩

theorem symm (h : Renumbered es es') : Renumbered es' es := by
  obtain ⟨r, unique, twins, -⟩ := h.exists_twins
  have unique' : Relator.BiUnique (Function.swap r) :=
    ⟨fun _ _ _ h h' => unique.2 h h', fun _ _ _ h h' => unique.1 h h'⟩
  exact renumbered_of_twins unique' (twins.imp fun _ _ h => h.flip).flip

theorem trans (h : Renumbered es es') (h' : Renumbered es' es'') : Renumbered es es'' := by
  obtain ⟨f, inj, rfl⟩ := h
  obtain ⟨g, inj', rfl⟩ := h'
  refine ⟨g ∘ f, Set.InjOn.comp inj' inj ?_, ?_⟩
  · rintro i ⟨x, hx, rfl⟩
    refine ⟨x.mapIds f, ?_, id_mapIds f x⟩
    rw [nodesOf_mapIds]
    exact List.mem_map_of_mem hx
  · rw [List.map_map]
    exact List.map_congr_left fun e _ => mapIds_mapIds f g e

/-- Two places have one node in the one batch if they have one node in the other. -/
theorem sharing (h : Renumbered es es') {p q : Expr × Expr}
    (hp : p ∈ (nodesOf es).zip (nodesOf es')) (hq : q ∈ (nodesOf es).zip (nodesOf es')) :
    p.1.id = q.1.id ↔ p.2.id = q.2.id := by
  obtain ⟨r, unique, twins, -⟩ := h.exists_twins
  obtain ⟨-, each⟩ := List.forall₂_iff_zip.mp (Twins.nodes twins)
  have left := (each hp).id
  have right := (each hq).id
  constructor
  · intro same
    exact unique.2 left (same ▸ right)
  · intro same
    exact unique.1 left (same ▸ right)

end Renumbered

end Expr
end Lifted
