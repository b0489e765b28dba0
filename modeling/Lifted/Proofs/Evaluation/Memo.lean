import Lifted.Evaluation.Recursive
import Lifted.Proofs.Expr.Heap

/-!
# Evaluation with a memo is evaluation

Over trees that share nodes soundly a memo changes no value: an agenda that starts from a memo of
true values ends with the values and with the first failure that the recursion has.

* `Memo.Sound`: every entry is the value of the node with that identity.
* `Memo.run`: a computation from a memo, with the memo that it leaves.
* `Settles`: the agenda takes a node off with its value in the memo, or ends with its failure.
* `settles`: it does so with every tree of the heap.
* `Agrees`: a computation yields what a computation without a memo does, from every sound memo.
* `Semantics.solve_eq_value`: this for the value of a tree.
-/

namespace Lifted

variable {α β : Type} {valueOf : (node : Expr) → (values : List UInt64) → Except Error UInt64}
  {h : Heap} {M M' M'' : Memo}

namespace Memo

/-- Every entry is the value of a tree of the heap. -/
def Sound (valueOf : (node : Expr) → (values : List UInt64) → Except Error UInt64) (h : Heap)
    (M : Memo) : Prop :=
  ∀ id v, M[id]? = some v → ∃ e, h.Holds e ∧ e.id = id ∧ e.valueBy valueOf = .ok v

/-- `M'` has all entries of `M`. -/
def Le (M M' : Memo) : Prop := ∀ (id : NodeId) (v : UInt64), M[id]? = some v → M'[id]? = some v

/-- `x` from the memo `M`, with the memo that it leaves. -/
def run (M : Memo) (x : MemoT Id α) : Except Error α × Memo := ((ExceptT.run x).run M).run

theorem run_bind (M : Memo) (x : MemoT Id α) (f : α → MemoT Id β) :
    run M (x >>= f) =
      match run M x with
      | (.ok a, M') => run M' (f a)
      | (.error e, M') => (.error e, M') := by
  simp only [run, ExceptT.run_bind, StateT.run_bind, Id.run_bind]
  generalize ((ExceptT.run x).run M).run = out
  obtain ⟨r, M'⟩ := out
  cases r <;> rfl

theorem run_bind_ok {x : MemoT Id α} {f : α → MemoT Id β} {a : α} (hx : run M x = (.ok a, M')) :
    run M (x >>= f) = run M' (f a) := by
  rw [run_bind, hx]

theorem run_pure (M : Memo) (a : α) : run M (pure a : MemoT Id α) = (.ok a, M) := rfl

theorem run_mk_lift (M : Memo) (x : Except Error α) :
    run M (ExceptT.mk (StateT.lift (m := Id) x)) = (x, M) := rfl

theorem run_known (M : Memo) (id : NodeId) : run M (known (m := Id) id) = (.ok M[id]?, M) := rfl

theorem Le.refl (M : Memo) : Le M M := fun _ _ hv => hv

theorem Le.trans (hle : Le M M') (hle' : Le M' M'') : Le M M'' := fun id v hv =>
  hle' id v (hle id v hv)

theorem sound_empty : Sound valueOf h ∅ := by
  intro id v hv
  simp at hv

/-- In a sound memo the entry of a node of the heap is the node's value. -/
theorem Sound.value (hM : Sound valueOf h M) {e : Expr} (he : h.Holds e) {v : UInt64}
    (hv : M[e.id]? = some v) : e.valueBy valueOf = .ok v := by
  obtain ⟨f, hf, same, value⟩ := hM _ _ hv
  rwa [he.eq hf same.symm]

theorem Sound.insert (hM : Sound valueOf h M) {e : Expr} (he : h.Holds e) {v : UInt64}
    (hv : e.valueBy valueOf = .ok v) : Sound valueOf h (M.insert e.id v) := by
  intro id w hw
  rw [Std.HashMap.getElem?_insert] at hw
  split at hw
  case isTrue same =>
    obtain rfl := Option.some.inj hw
    exact ⟨e, he, by simpa using same, hv⟩
  case isFalse => exact hM id w hw

theorem le_insert {id : NodeId} {v : UInt64} (new : M[id]? = none) : Le M (M.insert id v) := by
  intro id' w hw
  rw [Std.HashMap.getElem?_insert, if_neg]
  · exact hw
  · intro same
    obtain rfl : id = id' := by simpa using same
    rw [new] at hw
    cases hw

end Memo

open Memo

/-! ## The agenda -/

section Agenda

variable (valueOf)

theorem run_solvePending_skip {task : Task} {rest : List Task} {v : UInt64}
    (hv : M[task.node.id]? = some v) :
    Memo.run M (solvePending (m := Id) valueOf (task :: rest)) =
      Memo.run M (solvePending (m := Id) valueOf rest) := by
  have there : M.contains task.node.id = true := by
    rw [Std.HashMap.contains_eq_isSome_getElem?, hv]
    rfl
  rw [solvePending, Memo.run_bind]
  show Memo.run M (if M.contains task.node.id = true then _ else _) = _
  rw [if_pos there]

theorem run_solvePending_solve {task : Task} {rest : List Task} (new : M[task.node.id]? = none)
    (turn : (task.opened || task.node.children.isEmpty) = true) :
    Memo.run M (solvePending (m := Id) valueOf (task :: rest)) =
      Memo.run M (do
        solveNode (m := Id) valueOf task.node
        solvePending (m := Id) valueOf rest) := by
  have absent : M.contains task.node.id = false := by
    rw [Std.HashMap.contains_eq_isSome_getElem?, new]
    rfl
  rw [solvePending, Memo.run_bind]
  show Memo.run M (if M.contains task.node.id = true then _ else _) = _
  rw [if_neg (by simp [absent]), if_pos turn]

theorem run_solvePending_open {e : Expr} {rest : List Task} (new : M[e.id]? = none)
    (inner : e.children ≠ []) :
    Memo.run M (solvePending (m := Id) valueOf (⟨e, false⟩ :: rest)) =
      Memo.run M (solvePending (m := Id) valueOf
        ((e.children.filter fun c => !M.contains c.id).map (Task.mk · false) ++
          ⟨e, true⟩ :: rest)) := by
  have absent : M.contains e.id = false := by
    rw [Std.HashMap.contains_eq_isSome_getElem?, new]
    rfl
  rw [solvePending, Memo.run_bind]
  show Memo.run M (if M.contains e.id = true then _ else _) = _
  rw [if_neg (by simp [absent]), if_neg]
  simpa using inner

theorem run_operandValue {node child : Expr} {v : UInt64} (hv : M[child.id]? = some v) :
    Memo.run M (operandValue (m := Id) node child) = (.ok v, M) := by
  unfold operandValue
  rw [run_bind_ok (run_known M child.id)]
  simp only [hv]
  rfl

theorem run_operandValues {node : Expr} {cs : List Expr} {vs : List UInt64}
    (known : List.Forall₂ (fun c v => M[c.id]? = some v) cs vs) :
    Memo.run M (cs.mapM (operandValue (m := Id) node)) = (.ok vs, M) := by
  induction known with
  | nil => rfl
  | cons hv _ ih =>
    rw [List.mapM_cons, run_bind_ok (run_operandValue hv), run_bind_ok ih, Memo.run_pure]

theorem run_solveNode {e : Expr} {vs : List UInt64}
    (known : List.Forall₂ (fun c v => M[c.id]? = some v) e.children vs) :
    Memo.run M (solveNode (m := Id) valueOf e) =
      match valueOf e vs with
      | .ok v => (.ok (), M.insert e.id v)
      | .error err => (.error err, M) := by
  unfold solveNode
  rw [run_bind_ok (run_operandValues known), Memo.run_bind, Memo.run_mk_lift M (valueOf e vs)]
  cases valueOf e vs <;> rfl

end Agenda

/-- The agenda takes `e` off and has its value in the memo then, or it ends as `e` fails. -/
def Settles (valueOf : (node : Expr) → (values : List UInt64) → Except Error UInt64) (h : Heap)
    (e : Expr) : Prop :=
  ∀ (M : Memo) (rest : List Task), Sound valueOf h M →
    match e.valueBy valueOf with
    | .ok v => ∃ M', Sound valueOf h M' ∧ Le M M' ∧ M'[e.id]? = some v ∧
        Memo.run M (solvePending (m := Id) valueOf (⟨e, false⟩ :: rest)) =
          Memo.run M' (solvePending (m := Id) valueOf rest)
    | .error err => ∃ M', Sound valueOf h M' ∧
        Memo.run M (solvePending (m := Id) valueOf (⟨e, false⟩ :: rest)) = (.error err, M')

/-- The children of a node, those left out that were known when the node was opened. -/
theorem settles_children {cs : List Expr} (held : ∀ c ∈ cs, h.Holds c)
    (each : ∀ c ∈ cs, Settles valueOf h c) {opened : Memo} (le : Le opened M)
    (hM : Sound valueOf h M) (rest : List Task) :
    let agenda := (cs.filter fun c => !opened.contains c.id).map (Task.mk · false) ++ rest
    match cs.mapM (Expr.valueBy valueOf) with
    | .ok vs => ∃ M', Sound valueOf h M' ∧ Le M M' ∧
        List.Forall₂ (fun c v => M'[c.id]? = some v) cs vs ∧
        Memo.run M (solvePending (m := Id) valueOf agenda) =
          Memo.run M' (solvePending (m := Id) valueOf rest)
    | .error err => ∃ M', Sound valueOf h M' ∧
        Memo.run M (solvePending (m := Id) valueOf agenda) = (.error err, M') := by
  induction cs generalizing M with
  | nil => exact ⟨M, hM, Le.refl M, .nil, rfl⟩
  | cons c cs ih =>
    have ih := fun {M} => @ih M (fun x hx => held x (List.mem_cons_of_mem _ hx))
      (fun x hx => each x (List.mem_cons_of_mem _ hx))
    rw [List.mapM_cons]
    by_cases there : opened.contains c.id = true
    · obtain ⟨v, hv⟩ : ∃ v, opened[c.id]? = some v := by
        rw [Std.HashMap.contains_eq_isSome_getElem?] at there
        exact Option.isSome_iff_exists.mp there
      have later := ih le hM
      rw [hM.value (held c List.mem_cons_self) (le _ _ hv),
        List.filter_cons_of_neg (by simp [there])]
      cases hvs : cs.mapM (Expr.valueBy valueOf) with
      | error err => rwa [hvs] at later
      | ok vs =>
        rw [hvs] at later
        obtain ⟨M', hM', le', known, same⟩ := later
        exact ⟨M', hM', le', .cons (le' _ _ (le _ _ hv)) known, same⟩
    · rw [List.filter_cons_of_pos (by simpa using there)]
      have now := each c List.mem_cons_self M
        ((cs.filter fun c => !opened.contains c.id).map (Task.mk · false) ++ rest) hM
      cases hv : c.valueBy valueOf with
      | error err => rwa [hv] at now
      | ok v =>
        rw [hv] at now
        obtain ⟨M₁, hM₁, le₁, known₁, same₁⟩ := now
        have later := ih (le.trans le₁) hM₁
        cases hvs : cs.mapM (Expr.valueBy valueOf) with
        | error err =>
          rw [hvs] at later
          obtain ⟨M', hM', same⟩ := later
          exact ⟨M', hM', same₁.trans same⟩
        | ok vs =>
          rw [hvs] at later
          obtain ⟨M', hM', le', known, same⟩ := later
          exact ⟨M', hM', le₁.trans le', .cons (le' _ _ known₁) known, same₁.trans same⟩

/-- A node whose children are in the memo. -/
theorem settles_turn {e : Expr} (he : h.Holds e) {vs : List UInt64} (hM : Sound valueOf h M)
    (known : List.Forall₂ (fun c v => M[c.id]? = some v) e.children vs)
    (values : e.children.mapM (Expr.valueBy valueOf) = .ok vs) (opened : Bool)
    (turn : (opened || e.children.isEmpty) = true) (rest : List Task) :
    match e.valueBy valueOf with
    | .ok v => ∃ M', Sound valueOf h M' ∧ Le M M' ∧ M'[e.id]? = some v ∧
        Memo.run M (solvePending (m := Id) valueOf (⟨e, opened⟩ :: rest)) =
          Memo.run M' (solvePending (m := Id) valueOf rest)
    | .error err => ∃ M', Sound valueOf h M' ∧
        Memo.run M (solvePending (m := Id) valueOf (⟨e, opened⟩ :: rest)) = (.error err, M') := by
  cases hv : M[e.id]? with
  | some v =>
    rw [hM.value he hv]
    exact ⟨M, hM, Le.refl M, hv, run_solvePending_skip valueOf hv⟩
  | none =>
    have value : e.valueBy valueOf = valueOf e vs := by
      rw [Expr.valueBy_eq, values]
      rfl
    rw [run_solvePending_solve valueOf hv turn, Memo.run_bind, run_solveNode valueOf known]
    cases hw : valueOf e vs with
    | error err =>
      rw [value, hw]
      exact ⟨M, hM, rfl⟩
    | ok w =>
      rw [value, hw]
      exact ⟨M.insert e.id w, hM.insert he (value.trans hw), le_insert hv, by simp, rfl⟩

/-- By induction on the tree: a node is opened, its children settle, and it comes to its turn. -/
theorem settles {e : Expr} (he : h.Holds e) : Settles valueOf h e := by
  induction e using Expr.induct_children with
  | step e ih =>
  intro M rest hM
  by_cases leaf : e.children = []
  · have known : List.Forall₂ (fun c v => M[c.id]? = some v) e.children [] := by
      rw [leaf]
      exact .nil
    exact settles_turn he hM known (by rw [leaf]; rfl) false (by simp [leaf]) rest
  · cases hv : M[e.id]? with
    | some v =>
      rw [hM.value he hv]
      exact ⟨M, hM, Le.refl M, hv, run_solvePending_skip valueOf hv⟩
    | none =>
      rw [run_solvePending_open valueOf hv leaf]
      have below := settles_children (fun c hc => he.child hc) (fun c hc => ih c hc (he.child hc))
        (Le.refl M) hM (⟨e, true⟩ :: rest)
      cases hvs : e.children.mapM (Expr.valueBy valueOf) with
      | error err =>
        rw [hvs] at below
        rw [Expr.valueBy_eq, hvs]
        exact below
      | ok vs =>
        rw [hvs] at below
        obtain ⟨M₁, hM₁, le₁, known, same⟩ := below
        have turn := settles_turn he hM₁ known hvs true rfl rest
        cases hw : e.valueBy valueOf with
        | error err =>
          rw [hw] at turn
          obtain ⟨M', hM', same'⟩ := turn
          exact ⟨M', hM', same.trans same'⟩
        | ok w =>
          rw [hw] at turn
          obtain ⟨M', hM', le', there, same'⟩ := turn
          exact ⟨M', hM', le₁.trans le', there, same.trans same'⟩

/-! ## Computations with a memo -/

/-- From every sound memo `x` yields `r` and leaves a sound memo. -/
def Agrees (valueOf : (node : Expr) → (values : List UInt64) → Except Error UInt64) (h : Heap)
    (x : MemoT Id α) (r : Except Error α) : Prop :=
  ∀ M, Sound valueOf h M → (Memo.run M x).1 = r ∧ Sound valueOf h (Memo.run M x).2

namespace Agrees

theorem pure (a : α) : Agrees valueOf h (pure a) (.ok a) := fun _ hM => ⟨rfl, hM⟩

theorem bind {x : MemoT Id α} {r : Except Error α} {f : α → MemoT Id β} {g : α → Except Error β}
    (hx : Agrees valueOf h x r) (hf : ∀ a, Agrees valueOf h (f a) (g a)) :
    Agrees valueOf h (x >>= f) (r >>= g) := by
  intro M hM
  obtain ⟨rfl, hM'⟩ := hx M hM
  rw [Memo.run_bind]
  generalize Memo.run M x = out at hM' ⊢
  obtain ⟨r, M'⟩ := out
  cases r with
  | error e => exact ⟨rfl, hM'⟩
  | ok a => exact hf a M' hM'

theorem mapM {γ : Type} {f : γ → MemoT Id α} {g : γ → Except Error α} {xs : List γ}
    (each : ∀ x ∈ xs, Agrees valueOf h (f x) (g x)) :
    Agrees valueOf h (xs.mapM f) (xs.mapM g) := by
  induction xs with
  | nil => exact pure []
  | cons x xs ih =>
    rw [List.mapM_cons, List.mapM_cons]
    exact bind (each x List.mem_cons_self) fun a =>
      bind (ih fun y hy => each y (List.mem_cons_of_mem _ hy)) fun as => pure (a :: as)

theorem solve {e : Expr} (he : h.Holds e) :
    Agrees valueOf h (Lifted.solve (m := Id) valueOf e) (e.valueBy valueOf) := by
  intro M hM
  have done := settles he M [] hM
  unfold Lifted.solve
  rw [Memo.run_bind]
  cases hv : e.valueBy valueOf with
  | error err =>
    rw [hv] at done
    obtain ⟨M', hM', same⟩ := done
    rw [same]
    exact ⟨rfl, hM'⟩
  | ok v =>
    rw [hv] at done
    obtain ⟨M', hM', -, there, same⟩ := done
    rw [same, solvePending, Memo.run_pure]
    simp only [run_bind_ok (run_known M' e.id), there]
    exact ⟨rfl, hM'⟩

end Agrees

theorem Semantics.solve_eq_value (S : Semantics) (b : Bindings) {e : Expr} (he : h.Holds e) :
    S.solve b e = S.value b e :=
  (Agrees.solve he ∅ sound_empty).1

end Lifted
