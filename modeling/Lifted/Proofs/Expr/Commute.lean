import Lifted.Proofs.Evaluation.Content
import Lifted.Proofs.Expr.Validation

/-!
# Exchanged operands

The operands of commutative operators may be exchanged at any choice of places. Neither the value
of a tree nor its width shows it, and the ways from the root to the leaves are the same ones in
another order.

* `Expr.commute`: the tree with its operands exchanged at chosen places.
* `Expr.commute_mapLeaves`: a change of leaves goes before or after.
* `Expr.paths_commute`: the ways down to all nodes, seen through what no exchange changes.
* `Semantics.value?_commute`: the value, if there is one.
* `Expr.wellFormed_commute`: the rules are kept.
-/

namespace Lifted

/-- The list with its two members exchanged, if there are two. -/
def exchange {α : Type} : List α → List α
  | [x, y] => [y, x]
  | xs => xs

section

variable {α β : Type}

theorem exchange_cases (xs : List α) :
    exchange xs = xs ∨ ∃ x y, xs = [x, y] ∧ exchange xs = [y, x] :=
  match xs with
  | [] | [_] | _ :: _ :: _ :: _ => .inl rfl
  | [x, y] => .inr ⟨x, y, rfl, rfl⟩

theorem map_exchange (f : α → β) (xs : List α) : (exchange xs).map f = exchange (xs.map f) :=
  match xs with
  | [] | [_] | _ :: _ :: _ :: _ => rfl
  | [_, _] => rfl

theorem length_exchange (xs : List α) : (exchange xs).length = xs.length :=
  match xs with
  | [] | [_] | _ :: _ :: _ :: _ => rfl
  | [_, _] => rfl

theorem exchange_perm (xs : List α) : (exchange xs).Perm xs := by
  rcases exchange_cases xs with same | ⟨x, y, rfl, swapped⟩
  · rw [same]
  · rw [swapped]
    exact List.Perm.swap x y []

end

namespace Expr

mutual

/-- The tree with the operands of commutative operators exchanged where `swap` says so. It is told
the way from the root, as the numbers of the children taken. -/
def commute (swap : List Nat → Bool) : Expr → Expr
  | .const id value bytes => .const id value bytes
  | .var id name bytes label => .var id name bytes label
  | .mem id address size =>
    .mem id (address.commute fun way => swap (0 :: way)) (size.commute fun way => swap (1 :: way))
  | .op id kind operands =>
    if kind.isCommutative && swap [] then .op id kind (exchange (commuteFrom swap 0 operands))
    else .op id kind (commuteFrom swap 0 operands)

/-- `commute` on several trees, which are the children from number `i` on. -/
def commuteFrom (swap : List Nat → Bool) (i : Nat) : List Expr → List Expr
  | [] => []
  | e :: rest => e.commute (fun way => swap (i :: way)) :: commuteFrom swap (i + 1) rest

end

/-! ## Children -/

/-- Whatever `commute` keeps in every operand it keeps in their list. -/
theorem map_commuteFrom {α : Type} {f g : Expr → α} {es : List Expr}
    (each : ∀ e ∈ es, ∀ swap, f (e.commute swap) = g e) (swap : List Nat → Bool) (i : Nat) :
    (commuteFrom swap i es).map f = es.map g := by
  induction es generalizing i with
  | nil => rfl
  | cons e es ih =>
    rw [commuteFrom, List.map_cons, List.map_cons, each e List.mem_cons_self,
      ih fun x hx => each x (List.mem_cons_of_mem _ hx)]

theorem length_commuteFrom (swap : List Nat → Bool) (i : Nat) (es : List Expr) :
    (commuteFrom swap i es).length = es.length := by
  induction es generalizing i with
  | nil => rfl
  | cons e es ih => rw [commuteFrom, List.length_cons, List.length_cons, ih]

/-- An operator's operands are commuted each, and then exchanged or not. -/
theorem commute_op (swap : List Nat → Bool) (id : NodeId) (kind : Operator) (operands : List Expr) :
    ∃ operands', (op id kind operands).commute swap = .op id kind operands' ∧
      (operands' = commuteFrom swap 0 operands ∨
        kind.isCommutative = true ∧ operands' = exchange (commuteFrom swap 0 operands)) := by
  unfold commute
  by_cases h : (kind.isCommutative && swap []) = true
  · rw [if_pos h]
    exact ⟨_, rfl, .inr ⟨(Bool.and_eq_true_iff.mp h).1, rfl⟩⟩
  · rw [if_neg h]
    exact ⟨_, rfl, .inl rfl⟩

theorem commute_of_isLeaf (swap : List Nat → Bool) {e : Expr} (leaf : e.isLeaf) :
    e.commute swap = e := by
  cases e <;> first | rfl | cases leaf

/-! ## Leaves and content -/

theorem commuteFrom_congr {f : Expr → Expr} {es : List Expr}
    (each : ∀ e ∈ es, ∀ swap, (e.commute swap).mapLeaves f = (e.mapLeaves f).commute swap)
    (swap : List Nat → Bool) (i : Nat) :
    (commuteFrom swap i es).map (mapLeaves f) = commuteFrom swap i (es.map (mapLeaves f)) := by
  induction es generalizing i with
  | nil => rfl
  | cons e es ih =>
    rw [commuteFrom, List.map_cons, List.map_cons, commuteFrom, each e List.mem_cons_self,
      ih fun x hx => each x (List.mem_cons_of_mem _ hx)]

theorem commute_mapLeaves {f : Expr → Expr} (hf : ∀ x : Expr, x.isLeaf → (f x).isLeaf) (e : Expr)
    (swap : List Nat → Bool) : (e.commute swap).mapLeaves f = (e.mapLeaves f).commute swap := by
  induction e generalizing swap with
  | const id value bytes => exact (commute_of_isLeaf swap (hf (.const id value bytes) rfl)).symm
  | var id name bytes label =>
    exact (commute_of_isLeaf swap (hf (.var id name bytes label) rfl)).symm
  | mem id address size ihAddress ihSize =>
    rw [commute, mapLeaves, mapLeaves, commute, ihAddress, ihSize]
  | op id kind operands ih =>
    rw [mapLeaves_op, commute, commute, ← commuteFrom_congr ih]
    split
    · rw [mapLeaves_op, map_exchange]
    · rw [mapLeaves_op]

theorem trees_commuteFrom_congr {es fs : List Expr} (same : es.map tree = fs.map tree)
    (each : ∀ e ∈ es, ∀ f : Expr, e.tree = f.tree → ∀ swap,
      (e.commute swap).tree = (f.commute swap).tree)
    (swap : List Nat → Bool) (i : Nat) :
    (commuteFrom swap i es).map tree = (commuteFrom swap i fs).map tree := by
  induction es generalizing fs i with
  | nil =>
    cases fs with
    | nil => rfl
    | cons f fs => cases same
  | cons e es ih =>
    cases fs with
    | nil => cases same
    | cons f fs =>
      obtain ⟨hef, same⟩ := List.cons.inj same
      rw [commuteFrom, commuteFrom, List.map_cons, List.map_cons,
        each e List.mem_cons_self f hef, ih same fun x hx => each x (List.mem_cons_of_mem _ hx)]

theorem tree_commute_congr {e f : Expr} (same : e.tree = f.tree) (swap : List Nat → Bool) :
    (e.commute swap).tree = (f.commute swap).tree := by
  induction e generalizing f swap with
  | const | var =>
    have leaf : f.isLeaf := by
      rw [← isLeaf_congr same]
      rfl
    rw [commute_of_isLeaf swap leaf]
    exact same
  | mem id address size ihAddress ihSize =>
    obtain ⟨id', address', size', rfl, sameAddress, sameSize⟩ := eq_mem_of_tree_eq same
    rw [commute, commute, tree, tree, ihAddress sameAddress, ihSize sameSize]
  | op id kind operands ih =>
    obtain ⟨id', operands', rfl, contents⟩ := eq_op_of_tree_eq same
    have operands :=
      trees_commuteFrom_congr contents (fun x hx y hxy swap => ih x hx hxy swap) swap 0
    unfold commute
    split
    · rw [tree_op, tree_op, map_exchange, map_exchange, operands]
    · rw [tree_op, tree_op, operands]

/-! ## Widths and rules -/

theorem max_zero_comm (x y : UInt8) : max (max 0 x) y = max (max 0 y) x := by
  have max_def : ∀ a b : UInt8, max a b = if a ≤ b then b else a := fun _ _ => rfl
  have zero : ∀ a : UInt8, max 0 a = a := fun a => if_pos (UInt8.le_iff_toNat_le.mpr (by simp))
  rw [zero, zero, max_def, max_def]
  by_cases hxy : x ≤ y
  · by_cases hyx : y ≤ x
    · rw [if_pos hxy, if_pos hyx, UInt8.le_antisymm hxy hyx]
    · rw [if_pos hxy, if_neg hyx]
  · rw [if_neg hxy, if_pos ((UInt8.le_total x y).resolve_left hxy)]

theorem constant?_commute (swap : List Nat → Bool) (e : Expr) :
    (e.commute swap).constant? = e.constant? := by
  cases e with
  | const | var | mem => rfl
  | op id kind operands =>
    obtain ⟨operands', eq, -⟩ := commute_op swap id kind operands
    rw [eq]
    rfl

theorem name?_commute (swap : List Nat → Bool) (e : Expr) :
    (e.commute swap).name? = e.name? := by
  cases e with
  | const | var | mem => rfl
  | op id kind operands =>
    obtain ⟨operands', eq, -⟩ := commute_op swap id kind operands
    rw [eq]
    rfl

@[simp] theorem width_commute (swap : List Nat → Bool) (e : Expr) :
    (e.commute swap).width = e.width := by
  induction e generalizing swap with
  | const | var => rfl
  | mem id address size => rw [commute, width_mem, width_mem, constant?_commute]
  | op id kind operands ih =>
    have widths := map_commuteFrom (f := width) (g := width) ih swap 0
    obtain ⟨operands', eq, h⟩ := commute_op swap id kind operands
    rw [eq, width_op, width_op]
    rcases h with rfl | ⟨-, rfl⟩
    · rw [widths]
    · rw [map_exchange, widths]
      rcases exchange_cases (operands.map width) with same | ⟨x, y, pair, swapped⟩
      · rw [same]
      · rw [swapped, pair]
        exact max_zero_comm y x

theorem wellFormed_commute (swap : List Nat → Bool) (e : Expr) :
    (e.commute swap).WellFormed ↔ e.WellFormed := by
  induction e generalizing swap with
  | const | var => rfl
  | mem id address size ihAddress ihSize =>
    rw [commute, wellFormed_iff, wellFormed_iff]
    simp [fault, children, ihAddress, ihSize]
  | op id kind operands ih =>
    have all := map_commuteFrom (f := WellFormed) (g := WellFormed)
      (fun e he swap => propext (ih e he swap)) swap 0
    have len := length_commuteFrom swap 0 operands
    obtain ⟨operands', eq, h⟩ := commute_op swap id kind operands
    rw [eq, wellFormed_iff, wellFormed_iff, children, children, forall_wellFormed_iff,
      forall_wellFormed_iff, ← all]
    rcases h with rfl | ⟨-, rfl⟩
    · simp [fault, len]
    · have mem : ∀ p, p ∈ (exchange (commuteFrom swap 0 operands)).map WellFormed ↔
          p ∈ (commuteFrom swap 0 operands).map WellFormed := by
        intro p
        exact ((exchange_perm _).map WellFormed).mem_iff
      simp only [fault, length_exchange, len, mem]

/-! ## Ways down -/

theorem map_paths_eq {α : Type} (f : Expr → α) (above : List Expr) (e : Expr) :
    ((positionsBelow above e).map fun p => p.path.map f) =
      (f e :: above.map f).reverse ::
        e.children.flatMap fun c => (positionsBelow (e :: above) c).map fun p => p.path.map f := by
  rw [positionsBelow_eq, List.map_cons, List.map_flatMap, Position.path, List.map_reverse,
    List.map_cons]

/-- The ways from the root, seen through what content tells, follow from the content. -/
theorem paths_congr {α : Type} {f : Expr → α} (hf : ∀ x y : Expr, x.tree = y.tree → f x = f y)
    {e e' : Expr} (same : e.tree = e'.tree) {above above' : List Expr}
    (upper : above.map f = above'.map f) :
    ((positionsBelow above e).map fun p => p.path.map f) =
      (positionsBelow above' e').map fun p => p.path.map f := by
  induction e using induct_children generalizing e' above above' with
  | step e ih =>
  have root := hf e e' same
  have upper : (e :: above).map f = (e' :: above').map f := by
    rw [List.map_cons, List.map_cons, root, upper]
  have children :
      e.children.map (fun c => (positionsBelow (e :: above) c).map fun p => p.path.map f) =
        e'.children.map fun c => (positionsBelow (e' :: above') c).map fun p => p.path.map f :=
    map_eq_of_map_eq (map_tree_children_congr same) fun c hc d hcd => ih c hc hcd upper
  rw [map_paths_eq, map_paths_eq f above', ← List.map_cons, upper, List.map_cons, List.flatMap,
    List.flatMap, children]

/-- The ways from the root, seen through what no exchange changes, are the same ones in another
order. By induction on the tree, below nodes that look the same. -/
theorem paths_commute {α : Type} {f : Expr → α} (hf : ∀ swap x, f (commute swap x) = f x)
    (swap : List Nat → Bool) (e : Expr) {above above' : List Expr}
    (same : above'.map f = above.map f) :
    ((positionsBelow above' (e.commute swap)).map fun p => p.path.map f).Perm
      ((positionsBelow above e).map fun p => p.path.map f) := by
  induction e generalizing swap above above' with
  | const | var =>
    rw [commute_of_isLeaf swap rfl, map_paths_eq, map_paths_eq f above, same]
    exact List.Perm.refl _
  | mem id address size ihAddress ihSize =>
    have root := hf swap (mem id address size)
    rw [commute] at root ⊢
    rw [map_paths_eq, map_paths_eq f above, root, same]
    simp only [children, List.flatMap_cons, List.flatMap_nil, List.append_nil]
    refine List.Perm.cons _ (List.Perm.append (ihAddress _ ?_) (ihSize _ ?_))
    · rw [List.map_cons, List.map_cons, root, same]
    · rw [List.map_cons, List.map_cons, root, same]
  | op id kind operands ih =>
    have root := hf swap (op id kind operands)
    obtain ⟨operands', eq, h⟩ := commute_op swap id kind operands
    rw [eq] at root ⊢
    rw [map_paths_eq, map_paths_eq f above, root, same, children, children]
    refine List.Perm.cons _ ?_
    have upper : (op id kind operands' :: above').map f = (op id kind operands :: above).map f := by
      rw [List.map_cons, List.map_cons, root, same]
    generalize op id kind operands' :: above' = up' at upper
    generalize op id kind operands :: above = up at upper
    -- Each operand has its ways in another order; an exchange puts two of them the other way round.
    have each : ∀ (i : Nat) (es : List Expr), (∀ x ∈ es, x ∈ operands) →
        ((commuteFrom swap i es).flatMap fun c =>
          (positionsBelow up' c).map fun p => p.path.map f).Perm
        (es.flatMap fun c => (positionsBelow up c).map fun p => p.path.map f) := by
      intro i es hes
      induction es generalizing i with
      | nil => exact List.Perm.refl _
      | cons e es ihes =>
        rw [commuteFrom, List.flatMap_cons, List.flatMap_cons]
        exact (ih e (hes e List.mem_cons_self) _ upper).append
          (ihes (i + 1) fun x hx => hes x (List.mem_cons_of_mem _ hx))
    rcases h with rfl | ⟨-, rfl⟩
    · exact each 0 operands fun _ hx => hx
    · exact ((exchange_perm _).flatMap_right _).trans (each 0 operands fun _ hx => hx)

end Expr

/-! ## Values -/

theorem Operator.apply_comm {kind : Operator} (comm : kind.isCommutative = true) (x y : UInt64)
    (width : UInt8) : kind.apply [x, y] width = kind.apply [y, x] width := by
  have compute : ∀ bits x y, kind.compute bits x y = kind.compute bits y x := by
    intro bits x y
    cases kind <;> try cases comm
    · rw [Operator.compute, Operator.compute, UInt64.add_comm]
    · rw [Operator.compute, Operator.compute, UInt64.mul_comm]
    · rw [Operator.compute, Operator.compute, UInt64.and_comm]
    · rw [Operator.compute, Operator.compute, UInt64.or_comm]
    · rw [Operator.compute, Operator.compute, UInt64.xor_comm]
  simp only [Operator.apply, List.getD_cons_zero, List.getD_cons_succ,
    compute _ (Width.truncate width x)]
  rfl

namespace Semantics

variable (S : Semantics) (b : Bindings)

/-- The value of a tree, if it has one. -/
def value? (e : Expr) : Option UInt64 := (S.value b e).toOption

theorem value?_eq (e : Expr) :
    S.value? b e =
      (e.children.map (S.value? b)).mapM id >>= fun values => (S.onNode b e values).toOption := by
  have all : ∀ es : List Expr, (es.mapM (S.value b)).toOption = (es.map (S.value? b)).mapM id := by
    intro es
    induction es with
    | nil => rfl
    | cons e es ih =>
      rw [List.mapM_cons, List.map_cons, List.mapM_cons, ← ih, id, value?]
      cases S.value b e with
      | error err => rfl
      | ok v =>
        cases es.mapM (S.value b) <;> rfl
  rw [value?, ← all, value_eq]
  cases e.children.mapM (S.value b) <;> rfl

theorem value?_commute (swap : List Nat → Bool) (e : Expr) :
    S.value? b (e.commute swap) = S.value? b e := by
  induction e generalizing swap with
  | const | var => rfl
  | mem id address size ihAddress ihSize =>
    have width := Expr.width_commute swap (.mem id address size)
    rw [Expr.commute] at width ⊢
    rw [value?_eq, value?_eq]
    simp only [Expr.children, List.map_cons, List.map_nil, ihAddress, ihSize, onNode, width]
  | op id kind operands ih =>
    have values := Expr.map_commuteFrom (f := S.value? b) (g := S.value? b) ih swap 0
    have width := Expr.width_commute swap (.op id kind operands)
    obtain ⟨operands', eq, h⟩ := Expr.commute_op swap id kind operands
    rw [eq] at width ⊢
    rw [value?_eq, value?_eq]
    simp only [Expr.children, onNode, width]
    rcases h with rfl | ⟨comm, rfl⟩
    · rw [values]
    · rw [map_exchange, values]
      rcases exchange_cases (operands.map (S.value? b)) with same | ⟨x, y, pair, swapped⟩
      · rw [same]
      · rw [swapped, pair]
        cases x with
        | none => cases y <;> rfl
        | some x =>
          cases y with
          | none => rfl
          | some y => exact congrArg Except.toOption (Operator.apply_comm comm y x _)

end Semantics
end Lifted
