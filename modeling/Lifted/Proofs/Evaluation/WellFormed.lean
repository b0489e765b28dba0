import Lifted.Proofs.Evaluation.Postorder
import Lifted.Proofs.Expr.Validation

/-!
# Values of well-formed trees

Every node of a well-formed tree has a width, so a well-formed tree can lack a value for reasons of
arithmetic and of bindings, but not because it is malformed.

* `Width.Legal`: the widths that constants and variables may have.
* `Expr.Keeps`: the rule for a node, over any choice of these widths.
* `Expr.width_ne_zero`: where no leaf has width zero, no node has.
* `Expr.forall_keeps_mapLeaves_iff`: with other leaves a tree keeps the rules if these do.
* `Semantics.isEvaluation_of_value`: how a tree without leaves of width zero fails.
-/

namespace Lifted

/-- The widths that constants and variables of well-formed trees have. -/
def Width.Legal (bytes : UInt8) : Prop := bytes ≠ 0 ∧ bytes ≤ 8

instance : DecidablePred Width.Legal := fun _ => inferInstanceAs (Decidable (_ ∧ _))

namespace Expr

/-- The node keeps the rules, if `ok` says which widths a constant or variable may have. -/
def Keeps (ok : UInt8 → Prop) (x : Expr) : Prop :=
  match x with
  | .const _ _ bytes | .var _ _ bytes _ => ok bytes
  | .mem .. => True
  | .op _ kind operands => operands.length = kind.arity

variable {ok ok' : UInt8 → Prop} {x e : Expr} {f : Expr → Expr}

@[simp] theorem keeps_const (id : NodeId) (value : UInt64) (bytes : UInt8) :
    (const id value bytes).Keeps ok ↔ ok bytes := Iff.rfl

@[simp] theorem keeps_var (id : NodeId) (name : String) (bytes : UInt8) (label : Option String) :
    (var id name bytes label).Keeps ok ↔ ok bytes := Iff.rfl

theorem fault_eq_none_iff : x.fault = none ↔ x.Keeps Width.Legal := by
  cases x <;> simp [fault, Keeps, Width.Legal]

theorem wellFormed_iff_keeps : e.WellFormed ↔ ∀ x ∈ e.nodes, x.Keeps Width.Legal := by
  simp only [WellFormed, fault_eq_none_iff]

theorem Keeps.imp (h : x.Keeps ok) (weaker : ∀ bytes, ok bytes → ok' bytes) : x.Keeps ok' := by
  cases x with
  | const | var => exact weaker _ h
  | mem | op => exact h

/-! ## Other leaves -/

theorem nodes_mapLeaves (hf : ∀ x : Expr, x.isLeaf → (f x).isLeaf) (e : Expr) :
    (e.mapLeaves f).nodes = e.nodes.map (mapLeaves f) := by
  rw [nodes, nodes, positions_mapLeaves hf, List.map_map, List.map_map]
  rfl

theorem keeps_mapLeaves_of_inner (inner : x.isLeaf = false) :
    (x.mapLeaves f).Keeps ok ↔ x.Keeps ok := by
  cases x with
  | const | var => cases inner
  | mem => exact Iff.rfl
  | op id kind operands => rw [mapLeaves_op, Keeps, Keeps, List.length_map]

/-- With other leaves a tree keeps the rules if its inner nodes do and the new leaves do. -/
theorem forall_keeps_mapLeaves_iff (hf : ∀ x : Expr, x.isLeaf → (f x).isLeaf)
    (inner : ∀ x ∈ e.nodes, x.isLeaf = false → x.Keeps ok) :
    (∀ y ∈ (e.mapLeaves f).nodes, y.Keeps ok) ↔ ∀ x ∈ e.nodes, x.isLeaf → (f x).Keeps ok := by
  rw [nodes_mapLeaves hf, List.forall_mem_map]
  refine forall₂_congr fun x hx => ?_
  cases leaf : x.isLeaf with
  | true => simp [mapLeaves_of_isLeaf f leaf]
  | false => simp [keeps_mapLeaves_of_inner leaf, inner x hx leaf]

/-! ## Widths -/

theorem foldl_max_le_iff {ws : List UInt8} {w bound : UInt8} :
    ws.foldl max w ≤ bound ↔ w ≤ bound ∧ ∀ v ∈ ws, v ≤ bound := by
  induction ws generalizing w with
  | nil => simp
  | cons v ws ih =>
    have both : max w v ≤ bound ↔ w ≤ bound ∧ v ≤ bound := by
      simp only [UInt8.le_iff_toNat_le, UInt8.toNat_max]
      exact Nat.max_le
    rw [List.foldl_cons, ih, both, List.forall_mem_cons, and_assoc]

theorem width_le_of_mem {id : NodeId} {kind : Operator} {operands : List Expr} {c : Expr}
    (hc : c ∈ operands) : c.width ≤ (op id kind operands).width := by
  rw [width_op]
  exact (foldl_max_le_iff.mp (UInt8.le_refl _)).2 _ (List.mem_map_of_mem hc)

theorem toNat_toUInt8_min (v : UInt64) : (min v 8).toUInt8.toNat = min v.toNat 8 := by
  rw [UInt64.toNat_toUInt8, UInt64.toNat_min]
  exact Nat.mod_eq_of_lt (Nat.lt_of_le_of_lt (Nat.min_le_right ..) (by decide))

/-- Where every leaf has a width, every node has one. -/
theorem width_ne_zero (keeps : ∀ x ∈ e.nodes, x.Keeps (· ≠ 0)) : e.width ≠ 0 := by
  induction e with
  | const | var => simpa using keeps _ (self_mem_nodes _)
  | mem id address size =>
    rw [width_mem]
    split
    · split
      · decide
      · rename_i v _ pos
        rw [Ne, ← UInt8.toNat_inj, toNat_toUInt8_min]
        have : v.toNat ≠ 0 := fun zero => pos (UInt64.toNat_inj.mp zero)
        show min v.toNat 8 ≠ 0
        omega
    · decide
  | op id kind operands ih =>
    obtain ⟨arity, below⟩ := forall_mem_nodes_iff.mp keeps
    have arity : operands.length = kind.arity := arity
    obtain ⟨first, rest, rfl⟩ : ∃ first rest, operands = first :: rest := by
      cases operands with
      | nil => cases kind <;> cases arity
      | cons first rest => exact ⟨first, rest, rfl⟩
    have wider : first.width ≤ (op id kind (first :: rest)).width :=
      width_le_of_mem List.mem_cons_self
    intro zero
    rw [zero] at wider
    exact ih first List.mem_cons_self (below first List.mem_cons_self)
      (UInt8.le_antisymm wider (UInt8.zero_le ..))

end Expr

/-! ## Values -/

namespace Semantics

variable {S : Semantics} {b : Bindings} {e x : Expr} {vs : List UInt64} {err : Error}

/-- A variable has no value just where it has no binding and needs one. -/
theorem onNode_var_eq_error_iff {id : NodeId} {name : String} {bytes : UInt8}
    {label : Option String} : S.onNode b (.var id name bytes label) vs = .error err ↔
      S.strict = true ∧ b.var name = none ∧ err = .evaluation (.unbound name) := by
  simp only [onNode, ofVar]
  cases bound : b.var name with
  | some v => simp [Except.map]
  | none => cases strict : S.strict <;> simp [Except.map, eq_comm]

/-- A node that has a width and as many values as it needs fails in the evaluation. -/
theorem isEvaluation_of_onNode (keeps : x.Keeps (· ≠ 0)) (wide : x.width ≠ 0)
    (len : vs.length = x.children.length) (h : S.onNode b x vs = .error err) :
    err.isEvaluation = true := by
  cases x with
  | const id value bytes => cases h
  | var id name bytes label =>
    rw [(onNode_var_eq_error_iff.mp h).2.2]
    rfl
  | mem id address size =>
    obtain ⟨a, n, rfl⟩ := List.length_eq_two.mp len
    cases h
  | op id kind operands =>
    have arity : vs.length = kind.arity := len.trans keeps
    simp only [onNode, Operator.apply, arity, ne_eq, not_true, if_false, wide] at h
    split at h <;> cases h
    rfl

theorem isEvaluation_of_value (keeps : ∀ x ∈ e.nodes, x.Keeps (· ≠ 0))
    (h : S.value b e = .error err) : err.isEvaluation = true := by
  obtain ⟨x, hx, vs, values, failed⟩ := Expr.exists_of_valueBy_error h
  have wide := Expr.width_ne_zero fun y hy => keeps y (Expr.nodes_trans hx hy)
  exact isEvaluation_of_onNode (keeps x hx) wide (length_of_mapM_ok values) failed

end Semantics
end Lifted
