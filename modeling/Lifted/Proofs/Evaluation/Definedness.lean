import Lifted.Proofs.Evaluation.Memo
import Lifted.Proofs.Evaluation.WellFormed
import Lifted.Proofs.Operator.Exact
import Mathlib

/-!
# Which trees have a value

Validation says exactly whether a tree keeps the rules, and that is enough for an evaluation: a
well-formed tree lacks a value only for a division by zero or for a variable that needs a binding
and has none. Whatever has a value fits its width.

* `Malformation.Blames`: what validation says of the node that it fails at.
* `Expr.Trait`: what the rules see of a node; `Expr.validate_ok_iff_of_traits`: how often a node
  stands where in a tree does not count.
* `Semantics.toNat_lt_of_value`: values fit the widths of their nodes.
* `Expr.DividesByZero`, `Expr.Unbound`: the two reasons for a missing value, and
  `Semantics.exists_error_iff`: there is no other.
* `Expr.validate_exact`: what validation says, and what it is worth.
-/

namespace Lifted

/-! ## What validation says -/

/-- The malformation says which rule the node breaks, and names it by its identity. -/
inductive Malformation.Blames : Malformation → Expr → Prop where
  | const (id : NodeId) (value : UInt64) (bytes : UInt8) (illegal : ¬Width.Legal bytes) :
    Blames (.width id (Hex.literal value) bytes) (.const id value bytes)
  | var (id : NodeId) (name : String) (bytes : UInt8) (label : Option String)
    (illegal : ¬Width.Legal bytes) :
    Blames (.width id (label.getD name) bytes) (.var id name bytes label)
  | op (id : NodeId) (kind : Operator) (operands : List Expr)
    (wrong : operands.length ≠ kind.arity) :
    Blames (.operandCount id kind operands.length) (.op id kind operands)

namespace Expr

variable {e f x : Expr} {ok : UInt8 → Prop}

theorem blames_of_fault {cause : Malformation} (broken : x.fault = some cause) :
    cause.Blames x := by
  cases x with
  | const id value bytes =>
    simp only [fault, Option.ite_none_right_eq_some, Option.some.injEq] at broken
    obtain ⟨illegal, rfl⟩ := broken
    exact .const id value bytes (by simpa [Width.Legal, or_iff_not_imp_left] using illegal)
  | var id name bytes label =>
    simp only [fault, Option.ite_none_right_eq_some, Option.some.injEq] at broken
    obtain ⟨illegal, rfl⟩ := broken
    exact .var id name bytes label (by simpa [Width.Legal, or_iff_not_imp_left] using illegal)
  | mem => cases broken
  | op id kind operands =>
    simp only [fault, Option.ite_none_left_eq_some, Option.some.injEq] at broken
    obtain ⟨wrong, rfl⟩ := broken
    exact .op id kind operands wrong

/-- What the rules see of a node. -/
inductive Trait where
  | leaf (bytes : UInt8)
  | cell
  | operation (kind : Operator) (operands : Nat)

/-- What the rules see of this node: neither its identity nor what its children are. -/
def trait : Expr → Trait
  | .const _ _ bytes | .var _ _ bytes _ => .leaf bytes
  | .mem .. => .cell
  | .op _ kind operands => .operation kind operands.length

theorem keeps_congr (same : x.trait = e.trait) : x.Keeps ok ↔ e.Keeps ok := by
  cases x <;> cases e <;> simp_all [trait, Keeps]

theorem validate_ok_iff_keeps (sound : Coherent [e]) :
    e.validate = .ok () ↔ ∀ x ∈ e.nodes, x.Keeps Width.Legal :=
  (validate_ok_iff (Heap.holds_of sound List.mem_cons_self)).trans wellFormed_iff_keeps

/-- The rules hold of one tree as of another if the same can be seen among their nodes, in whatever
order and however often. -/
theorem validate_ok_iff_of_traits (sound : Coherent [e]) (sound' : Coherent [f])
    (same : ∀ t, t ∈ f.nodes.map trait ↔ t ∈ e.nodes.map trait) :
    f.validate = .ok () ↔ e.validate = .ok () := by
  have transfer : ∀ {e f : Expr}, (∀ t, t ∈ f.nodes.map trait → t ∈ e.nodes.map trait) →
      (∀ x ∈ e.nodes, x.Keeps Width.Legal) → ∀ y ∈ f.nodes, y.Keeps Width.Legal := by
    intro e f within keeps y hy
    obtain ⟨x, hx, twin⟩ := List.mem_map.mp (within _ (List.mem_map_of_mem hy))
    exact (keeps_congr twin).mp (keeps x hx)
  rw [validate_ok_iff_keeps sound, validate_ok_iff_keeps sound']
  exact ⟨transfer fun t => (same t).mpr, transfer fun t => (same t).mp⟩

/-! ## Widths -/

/-- A node is at most eight bytes wide if its leaves are. -/
theorem width_le (keeps : ∀ x ∈ e.nodes, x.Keeps (· ≤ 8)) : e.width ≤ 8 := by
  induction e with
  | const | var => simpa using keeps _ (self_mem_nodes _)
  | mem id address size =>
    rw [width_mem]
    split
    · split
      · decide
      · rw [UInt8.le_iff_toNat_le, toNat_toUInt8_min]
        exact Nat.min_le_right ..
    · decide
  | op id kind operands ih =>
    obtain ⟨-, below⟩ := forall_mem_nodes_iff.mp keeps
    rw [width_op, foldl_max_le_iff, List.forall_mem_map]
    exact ⟨by decide, fun c hc => ih c hc (below c hc)⟩

/-- A node of a well-formed tree has as many bits as its bytes say. -/
theorem WellFormed.size_width (wf : e.WellFormed) : Width.size e.width = 8 * e.width.toNat := by
  have le : e.width.toNat ≤ 8 := UInt8.le_iff_toNat_le.mp
    (width_le fun x hx => (wellFormed_iff_keeps.mp wf x hx).imp fun _ legal => legal.2)
  rw [Width.size, Nat.min_eq_left le]

theorem WellFormed.width_ne_zero (wf : e.WellFormed) : e.width ≠ 0 :=
  Expr.width_ne_zero fun x hx => (wellFormed_iff_keeps.mp wf x hx).imp fun _ legal => legal.1

theorem WellFormed.node (wf : e.WellFormed) (hx : x ∈ e.nodes) : x.WellFormed := fun y hy =>
  wf y (nodes_trans hx hy)

end Expr

theorem Width.size_le_size {u w : UInt8} (h : u ≤ w) : Width.size u ≤ Width.size w := by
  have : u.toNat ≤ w.toNat := UInt8.le_iff_toNat_le.mp h
  unfold Width.size
  omega

theorem Width.toNat_truncate_lt (width : UInt8) (word : UInt64) :
    (Width.truncate width word).toNat < 2 ^ Width.size width := by
  rw [Width.toNat_truncate]
  exact Nat.mod_lt _ (by positivity)

/-! ## Values -/

theorem Operator.toNat_lt_of_apply {op : Operator} {operands : List UInt64} {width : UInt8}
    {v : UInt64} (h : op.apply operands width = .ok v) : v.toNat < 2 ^ Width.size width := by
  by_cases illegal : operands.length ≠ op.arity ∨ width = 0
  · obtain ⟨cause, failed⟩ := apply_malformed illegal
    rw [failed] at h
    cases h
  · obtain ⟨count, wide⟩ := not_or.mp illegal
    rcases apply_cases (not_not.mp count) wide with ⟨-, cause, failed⟩ | ⟨-, value, done, yields⟩
    · rw [failed] at h
      cases h
    · obtain rfl := Except.ok.inj (done.symm.trans h)
      exact yields.below

namespace Semantics

variable {S : Semantics} {b : Bindings} {e x : Expr} {v : UInt64} {vs : List UInt64} {err : Error}

/-- Whatever the values of its children are, the value of a node fits the node. -/
theorem toNat_lt_of_onNode (h : S.onNode b x vs = .ok v) : v.toNat < 2 ^ Width.size x.width := by
  cases x with
  | const id value bytes =>
    obtain rfl := Except.ok.inj h
    rw [Expr.width_const]
    exact Width.toNat_truncate_lt ..
  | var id name bytes label =>
    obtain ⟨word, -, rfl⟩ := ok_of_map h
    rw [Expr.width_var]
    exact Width.toNat_truncate_lt ..
  | mem id address size =>
    simp only [onNode] at h
    split at h
    · obtain rfl := Except.ok.inj h
      exact Width.toNat_truncate_lt ..
    · cases h
  | op id kind operands => exact Operator.toNat_lt_of_apply h

/-- What a node with a value makes of the values of its children. -/
theorem exists_of_value_ok (h : S.value b e = .ok v) :
    ∃ vs, e.children.mapM (S.value b) = .ok vs ∧ S.onNode b e vs = .ok v := by
  rw [value_eq] at h
  exact ok_of_bind h

theorem toNat_lt_of_value (h : S.value b e = .ok v) : v.toNat < 2 ^ Width.size e.width := by
  obtain ⟨vs, -, done⟩ := exists_of_value_ok h
  exact toNat_lt_of_onNode done

end Semantics

/-! ## Missing values -/

namespace Expr

/-- The node is a quotient or remainder whose right operand is zero. All below it has values, as
`value` says. -/
def DividesByZero (value : Expr → Except Error UInt64) (x : Expr) : Prop :=
  ∃ id kind left right, x = .op id kind [left, right] ∧ (kind = .div ∨ kind = .mod) ∧
    (∀ y ∈ nodesOf x.children, ∃ v, value y = .ok v) ∧ value right = .ok 0

/-- Only the values of the nodes below count. -/
theorem DividesByZero.congr {value value' : Expr → Except Error UInt64} {x : Expr}
    (h : x.DividesByZero value) (same : ∀ y ∈ nodesOf x.children, value y = value' y) :
    x.DividesByZero value' := by
  obtain ⟨id, kind, left, right, rfl, divides, below, zero⟩ := h
  refine ⟨id, kind, left, right, rfl, divides, fun y hy => same y hy ▸ below y hy, ?_⟩
  rwa [← same right (mem_nodesOf.mpr ⟨right, by simp [children], right.self_mem_nodes⟩)]

/-- The node is a variable without a binding. -/
def Unbound (b : Bindings) (x : Expr) : Prop := ∃ name, x.name? = some name ∧ b.var name = none

end Expr

namespace Semantics

variable {S : Semantics} {b : Bindings} {e x : Expr} {v : UInt64} {vs : List UInt64} {err : Error}

/-- The divisor that an operator takes in is the value of its right operand: that one is no larger
than the node, so it is not cut to zero. -/
theorem byZero_iff (id : NodeId) {kind : Operator} {operands : List Expr}
    (arity : operands.length = kind.arity) (values : operands.mapM (S.value b) = .ok vs) :
    kind.ByZero (Operator.operand vs (Expr.op id kind operands).width 1) ↔
      (kind = .div ∨ kind = .mod) ∧
        ∃ left right, operands = [left, right] ∧ S.value b right = .ok 0 := by
  refine and_congr_right fun divides => ?_
  obtain ⟨left, right, rfl⟩ := List.length_eq_two.mp
    (show operands.length = 2 by rcases divides with rfl | rfl <;> exact arity)
  obtain _ | ⟨-, _ | ⟨hr, ⟨⟩⟩⟩ := mapM_ok_iff.mp values
  rename_i l r
  have small : r.toNat < 2 ^ Width.size (Expr.op id kind [left, right]).width :=
    (toNat_lt_of_value hr).trans_le (Nat.pow_le_pow_right (by decide)
      (Width.size_le_size (Expr.width_le_of_mem (by simp))))
  have uncut : Operator.operand [l, r] (Expr.op id kind [left, right]).width 1 = r.toNat :=
    Nat.mod_eq_of_lt small
  rw [uncut]
  constructor
  · intro zero
    obtain rfl : r = 0 := UInt64.toNat_inj.mp zero
    exact ⟨left, right, rfl, hr⟩
  · rintro ⟨_, _, same, zero⟩
    obtain ⟨-, rfl⟩ : left = _ ∧ right = _ := by simpa using same
    obtain rfl := Except.ok.inj (hr.symm.trans zero)
    rfl

/-- Where its operands have values, an operator of a well-formed tree has none exactly if it divides
by zero. -/
theorem exists_error_of_op_iff {id : NodeId} {kind : Operator} {operands : List Expr}
    (wf : (Expr.op id kind operands).WellFormed) (values : operands.mapM (S.value b) = .ok vs) :
    (∃ err, S.onNode b (.op id kind operands) vs = .error err) ↔ (kind = .div ∨ kind = .mod) ∧
      ∃ left right, operands = [left, right] ∧ S.value b right = .ok 0 := by
  have arity : operands.length = kind.arity :=
    Expr.wellFormed_iff_keeps.mp wf _ (Expr.self_mem_nodes _)
  have count : vs.length = kind.arity := (length_of_mapM_ok values).trans arity
  rw [← byZero_iff id arity values]
  rcases Operator.apply_cases count wf.width_ne_zero with
    ⟨zero, cause, failed⟩ | ⟨fine, value, done, -⟩
  · exact iff_of_true ⟨_, failed⟩ zero
  · refine iff_of_false ?_ fine
    rintro ⟨err, failed⟩
    cases done.symm.trans failed

theorem exists_error_of_mem_nodes (hx : x ∈ e.nodes) (h : ∃ err, S.value b x = .error err) :
    ∃ err, S.value b e = .error err := by
  cases hv : S.value b e with
  | error err => exact ⟨err, rfl⟩
  | ok v =>
    obtain ⟨err, failed⟩ := h
    obtain ⟨w, hw⟩ := Expr.value_of_mem_nodes ⟨v, hv⟩ hx
    cases hw.symm.trans failed

/-- A node of a well-formed tree that fails on values of its children is one of the two. -/
theorem dividesByZero_or_unbound (wf : x.WellFormed) (values : x.children.mapM (S.value b) = .ok vs)
    (failed : S.onNode b x vs = .error err) :
    x.DividesByZero (S.value b) ∨ S.strict = true ∧ x.Unbound b := by
  cases x with
  | const => cases failed
  | var id name bytes label =>
    obtain ⟨strict, unbound, -⟩ := onNode_var_eq_error_iff.mp failed
    exact .inr ⟨strict, name, rfl, unbound⟩
  | mem id address size =>
    obtain ⟨a, n, rfl⟩ := List.length_eq_two.mp (length_of_mapM_ok values)
    cases failed
  | op id kind operands =>
    obtain ⟨divides, left, right, rfl, zero⟩ := (exists_error_of_op_iff wf values).mp ⟨err, failed⟩
    refine .inl ⟨id, kind, left, right, rfl, divides, fun y hy => ?_, zero⟩
    obtain ⟨c, hc, hy⟩ := Expr.mem_nodesOf.mp hy
    exact Expr.value_of_mem_nodes (exists_mapM_ok_iff.mp ⟨vs, values⟩ c hc) hy

theorem exists_error_of_dividesByZero (wf : x.WellFormed) (h : x.DividesByZero (S.value b)) :
    ∃ err, S.value b x = .error err := by
  obtain ⟨id, kind, left, right, rfl, divides, below, zero⟩ := h
  obtain ⟨vs, values⟩ := exists_mapM_ok_iff.mpr fun c hc =>
    below c (Expr.mem_nodesOf.mpr ⟨c, hc, c.self_mem_nodes⟩)
  rw [value_eq, values]
  exact (exists_error_of_op_iff wf values).mpr ⟨divides, left, right, rfl, zero⟩

theorem exists_error_of_unbound (strict : S.strict = true) (h : x.Unbound b) :
    ∃ err, S.value b x = .error err := by
  obtain ⟨name, hn, unbound⟩ := h
  cases x with
  | var id name' bytes label =>
    obtain rfl : name' = name := Option.some.inj hn
    have failed : S.onNode b (.var id name' bytes label) [] =
        .error (.evaluation (.unbound name')) :=
      onNode_var_eq_error_iff.mpr ⟨strict, unbound, rfl⟩
    exact ⟨_, failed⟩
  | const | mem | op => cases hn

/-- A well-formed tree has no value exactly if a node of it divides by zero, or a variable of it has
no binding and needs one. -/
theorem exists_error_iff (wf : e.WellFormed) : (∃ err, S.value b e = .error err) ↔
    (∃ x ∈ e.nodes, x.DividesByZero (S.value b)) ∨
      S.strict = true ∧ ∃ x ∈ e.nodes, x.Unbound b := by
  constructor
  · rintro ⟨err, failed⟩
    obtain ⟨x, hx, vs, values, failed⟩ := Expr.exists_of_valueBy_error failed
    rcases dividesByZero_or_unbound (wf.node hx) values failed with divides | ⟨strict, unbound⟩
    · exact .inl ⟨x, hx, divides⟩
    · exact .inr ⟨strict, x, hx, unbound⟩
  · rintro (⟨x, hx, divides⟩ | ⟨strict, x, hx, unbound⟩)
    · exact exists_error_of_mem_nodes hx (exists_error_of_dividesByZero (wf.node hx) divides)
    · exact exists_error_of_mem_nodes hx (exists_error_of_unbound strict unbound)

end Semantics

/-! ## Validation -/

/-- Validation succeeds exactly on trees whose nodes all keep the rules, however they share nodes
and in whatever order these stand, and it blames a node that breaks one otherwise. The evaluation of
a tree that it accepts never fails as malformed. It fails exactly if a node divides by zero, or if
variables need a binding and one of them has none. All values on the way fit their nodes. -/
theorem Expr.validate_exact {e : Expr} (sound : Coherent [e]) :
    (e.validate = .ok () ↔ ∀ x ∈ e.nodes, x.Keeps Width.Legal) ∧
    (∀ err, e.validate = .error err →
      ∃ x ∈ e.nodes, ∃ cause : Malformation, err = .malformed cause ∧ cause.Blames x) ∧
    (∀ f, Coherent [f] → (∀ t, t ∈ f.nodes.map trait ↔ t ∈ e.nodes.map trait) →
      (f.validate = .ok () ↔ e.validate = .ok ())) ∧
    (e.validate = .ok () → ∀ (S : Semantics) (b : Bindings),
      (∀ cause, S.solve b e ≠ .error (.malformed cause)) ∧
      ((∃ err, S.solve b e = .error err) ↔
        (∃ x ∈ e.nodes, x.DividesByZero (S.solve b)) ∨
          S.strict = true ∧ ∃ x ∈ e.nodes, x.Unbound b) ∧
      ∀ x ∈ e.nodes, ∀ v, S.solve b x = .ok v → v.toNat < 2 ^ (8 * x.width.toNat)) := by
  have held := Heap.holds_of sound List.mem_cons_self
  refine ⟨validate_ok_iff_keeps sound, fun err failed => ?_,
    fun f sound' => validate_ok_iff_of_traits sound sound', fun accepted S b => ?_⟩
  · obtain ⟨x, hx, cause, broken, rfl⟩ := exists_fault_of_validateAll failed
    rw [nodesOf_singleton] at hx
    exact ⟨x, hx, cause, rfl, blames_of_fault broken⟩
  · have wf := (validate_ok_iff held).mp accepted
    -- Evaluations with a memo come to what the recursion comes to, on each node of the tree.
    have solve : ∀ x ∈ e.nodes, S.solve b x = S.value b x := fun x hx =>
      S.solve_eq_value b (held.node hx)
    have divides : ∀ x ∈ e.nodes,
        (x.DividesByZero (S.value b) ↔ x.DividesByZero (S.solve b)) := by
      intro x hx
      have below : ∀ y ∈ nodesOf x.children, S.solve b y = S.value b y := fun y hy =>
        solve y (nodes_trans hx (by rw [nodes_eq_nodesOf]; exact List.mem_cons_of_mem _ hy))
      exact ⟨fun h => h.congr fun y hy => (below y hy).symm, fun h => h.congr below⟩
    refine ⟨fun cause failed => ?_, ?_, fun x hx v done => ?_⟩
    · rw [solve e e.self_mem_nodes] at failed
      have keeps : ∀ x ∈ e.nodes, x.Keeps (· ≠ 0) := fun x hx =>
        (wellFormed_iff_keeps.mp wf x hx).imp fun _ legal => legal.1
      cases Semantics.isEvaluation_of_value keeps failed
    · rw [solve e e.self_mem_nodes, Semantics.exists_error_iff wf]
      exact or_congr_left (exists_congr fun x => and_congr_right (divides x))
    · rw [solve x hx] at done
      rw [← (wf.node hx).size_width]
      exact Semantics.toNat_lt_of_value done

namespace Sample

/-- A quotient by the difference of a node and itself. -/
def ratio : Expr :=
  let x := .var 0 "x" 2 none
  .op 3 .div [.const 1 7 2, .op 2 .sub [x, x]]

theorem coherent_ratio : Expr.Coherent [ratio] := by
  simp [Expr.Coherent, ratio, Expr.nodesOf_cons, Expr.nodes_eq, Expr.children, Expr.id]

theorem dividesByZero_ratio :
    ratio.DividesByZero (({} : Semantics).solve (.setVar .empty "x" 5)) := by
  have below : Expr.nodesOf ratio.children = [.const 1 7 2,
      .op 2 .sub [.var 0 "x" 2 none, .var 0 "x" 2 none], .var 0 "x" 2 none, .var 0 "x" 2 none] := by
    simp [ratio, Expr.nodesOf_cons, Expr.nodes_eq, Expr.children]
  refine ⟨3, .div, _, _, rfl, .inl rfl, ?_, by cbv⟩
  rw [below]
  simp only [List.forall_mem_cons, List.not_mem_nil, false_imp_iff, implies_true, and_true]
  exact ⟨⟨7, by cbv⟩, ⟨0, by cbv⟩, ⟨5, by cbv⟩, 5, by cbv⟩

end Sample

/-- With `x` bound the quotient is one by zero, and without a binding where it needs one the tree
has no value either. -/
theorem Expr.validate_exact_sample : Sample.ratio.validate = .ok () ∧
    (∃ err, ({} : Semantics).solve (.setVar .empty "x" 5) Sample.ratio = .error err) ∧
    ∃ err, ({ strict := true } : Semantics).solve .empty Sample.ratio = .error err := by
  obtain ⟨rules, -, -, enough⟩ := Expr.validate_exact Sample.coherent_ratio
  have accepted : Sample.ratio.validate = .ok () := rules.mpr (by
    simp [Sample.ratio, Expr.nodes_eq, Expr.children, Expr.Keeps, Operator.arity, Width.Legal])
  obtain ⟨-, fails, -⟩ := enough accepted {} (.setVar .empty "x" 5)
  obtain ⟨-, fails', -⟩ := enough accepted { strict := true } .empty
  refine ⟨accepted, fails.mpr (.inl ⟨_, self_mem_nodes _, Sample.dividesByZero_ratio⟩), ?_⟩
  exact fails'.mpr (.inr ⟨rfl, .var 0 "x" 2 none, by
    simp [Sample.ratio, Expr.nodes_eq, Expr.children], "x", rfl, rfl⟩)

end Lifted
