import Lifted.Proofs.Canonical.Occurrences
import Lifted.Proofs.Evaluation.Content

/-!
# Two ways to evaluate a node

A node can be evaluated from the values of its children, or as the tree that it stands for. Where
the memo has the true values of the children the two are one: they fill the memo with the same
entries in the same order, and stop at the same node for the same reason.

* `AgreeOn`: two ways to evaluate a node that agree on the values that its children have.
* `Alike`: two computations that do the same from every sound memo, with rules for each step.
* `Alike.solvePending`: an agenda is worked off alike; `Alike.occurrences`: so is all that a
  ranking evaluates.
* `Semantics.agreeOn_treewise`: the two ways of a meaning agree.
-/

namespace Lifted

variable {α β γ : Type} {valueOf valueOf' : (node : Expr) → (values : List UInt64) →
  Except Error UInt64} {h : Heap}

/-- Both give a node of the heap the same value from the values that its children have. -/
def AgreeOn (h : Heap)
    (valueOf valueOf' : (node : Expr) → (values : List UInt64) → Except Error UInt64) : Prop :=
  ∀ e, h.Holds e → ∀ vs, e.children.mapM (Expr.valueBy valueOf) = .ok vs →
    valueOf e vs = valueOf' e vs

open Memo

/-! ## Computations that do the same -/

/-- From every sound memo both end with the same result, of which `P` holds, and leave the same
memo, which is sound. -/
def Alike (valueOf : (node : Expr) → (values : List UInt64) → Except Error UInt64) (h : Heap)
    (P : α → Prop) (x x' : MemoT Id α) : Prop :=
  ∀ M, Sound valueOf h M → Memo.run M x = Memo.run M x' ∧
    Sound valueOf h (Memo.run M x).2 ∧ ∀ a, (Memo.run M x).1 = .ok a → P a

namespace Alike

variable {P : α → Prop} {Q : β → Prop} {x x' : MemoT Id α}

theorem pure {a : α} (ha : P a) : Alike valueOf h P (Pure.pure a) (Pure.pure a) :=
  fun _ hM => ⟨rfl, hM, fun _ same => Except.ok.inj same ▸ ha⟩

theorem throw (err : Error) : Alike valueOf h P (throw err) (throw err) :=
  fun _ hM => ⟨rfl, hM, nofun⟩

theorem imp {P' : α → Prop} (hx : Alike valueOf h P x x') (weaker : ∀ a, P a → P' a) :
    Alike valueOf h P' x x' := fun M hM =>
  have ⟨same, sound, post⟩ := hx M hM
  ⟨same, sound, fun a ha => weaker a (post a ha)⟩

theorem bind {f f' : α → MemoT Id β} (hx : Alike valueOf h P x x')
    (hf : ∀ a, P a → Alike valueOf h Q (f a) (f' a)) :
    Alike valueOf h Q (x >>= f) (x' >>= f') := by
  intro M hM
  obtain ⟨same, hM', post⟩ := hx M hM
  rw [Memo.run_bind, Memo.run_bind, ← same]
  generalize Memo.run M x = out at hM' post ⊢
  obtain ⟨r, M'⟩ := out
  cases r with
  | error e => exact ⟨rfl, hM', nofun⟩
  | ok a => exact hf a (post a rfl) M' hM'

theorem mapM {f f' : γ → MemoT Id α} {R : γ → α → Prop} {xs : List γ}
    (each : ∀ x ∈ xs, Alike valueOf h (R x) (f x) (f' x)) :
    Alike valueOf h (List.Forall₂ R xs) (xs.mapM f) (xs.mapM f') := by
  induction xs with
  | nil => exact pure .nil
  | cons x xs ih =>
    obtain ⟨first, rest⟩ := List.forall_mem_cons.mp each
    rw [List.mapM_cons, List.mapM_cons]
    exact first.bind fun a ha => (ih rest).bind fun as has => pure (.cons ha has)

theorem forM {f f' : γ → MemoT Id PUnit} {xs : List γ}
    (each : ∀ x ∈ xs, Alike valueOf h (fun _ => True) (f x) (f' x)) :
    Alike valueOf h (fun _ => True) (xs.forM f) (xs.forM f') := by
  induction xs with
  | nil => exact pure trivial
  | cons x xs ih =>
    obtain ⟨first, rest⟩ := List.forall_mem_cons.mp each
    exact first.bind fun _ _ => ih rest

theorem lift (y : Except Error α) : Alike valueOf h (fun a => y = .ok a)
    (ExceptT.mk (StateT.lift (m := Id) y)) (ExceptT.mk (StateT.lift (m := Id) y)) :=
  fun _ hM => ⟨rfl, hM, fun _ same => same⟩

theorem get : Alike valueOf h (Sound valueOf h) MonadState.get MonadState.get :=
  fun _ hM => ⟨rfl, hM, fun _ same => Except.ok.inj same ▸ hM⟩

/-- A node's value may be entered. -/
theorem insert {e : Expr} (he : h.Holds e) {v : UInt64} (hv : e.valueBy valueOf = .ok v) :
    Alike valueOf h (fun _ => True) (modify (·.insert e.id v)) (modify (·.insert e.id v)) :=
  fun _ hM => ⟨rfl, hM.insert he hv, fun _ _ => trivial⟩

/-- What the memo has for a node is the node's value. -/
theorem known {e : Expr} (he : h.Holds e) :
    Alike valueOf h (fun v? => ∀ v, v? = some v → e.valueBy valueOf = .ok v)
      (known e.id) (known e.id) :=
  get.bind fun _ hM => pure fun _ hv => hM.value he hv

end Alike

/-! ## The agenda -/

theorem Alike.operandValue (node : Expr) {child : Expr} (hc : h.Holds child) :
    Alike valueOf h (fun v => child.valueBy valueOf = .ok v) (operandValue node child)
      (operandValue node child) := by
  refine (Alike.known hc).bind fun v? hv => ?_
  cases v? with
  | none => exact .throw _
  | some v => exact .pure (hv v rfl)

/-- A node is evaluated from the values of its children, so the two ways agree. -/
theorem Alike.solveNode (agree : AgreeOn h valueOf valueOf') {e : Expr} (he : h.Holds e) :
    Alike valueOf h (fun _ => True) (solveNode valueOf e) (solveNode valueOf' e) := by
  refine (Alike.mapM fun c hc => .operandValue e (he.child hc)).bind fun vs hvs => ?_
  have values : e.children.mapM (Expr.valueBy valueOf) = .ok vs := mapM_ok_iff.mpr hvs
  show Alike valueOf h _ (ExceptT.mk (StateT.lift (m := Id) (valueOf e vs)) >>= _)
    (ExceptT.mk (StateT.lift (m := Id) (valueOf' e vs)) >>= _)
  rw [← agree e he vs values]
  refine (Alike.lift (valueOf e vs)).bind fun v hv => .insert he ?_
  rw [Expr.valueBy_eq, values]
  exact hv

/-- By induction along the steps of the agenda. -/
theorem Alike.solvePending (agree : AgreeOn h valueOf valueOf') {agenda : List Task}
    (held : ∀ task ∈ agenda, h.Holds task.node) :
    Alike valueOf h (fun _ => True) (solvePending valueOf agenda)
      (solvePending valueOf' agenda) := by
  induction agenda using solvePending.induct with
  | case1 =>
    rw [Lifted.solvePending, Lifted.solvePending]
    exact .pure trivial
  | case2 task rest skip opening =>
    obtain ⟨here, later⟩ := List.forall_mem_cons.mp held
    rw [Lifted.solvePending, Lifted.solvePending]
    refine Alike.get.bind fun memo _ => ?_
    split
    · exact skip later
    split
    · exact (Alike.solveNode agree here).bind fun _ _ => skip later
    · rename_i turn
      refine opening memo turn fun t ht => ?_
      rcases List.mem_append.mp ht with ht | ht
      · obtain ⟨c, hc, rfl⟩ := List.mem_map.mp ht
        exact here.child (List.mem_filter.mp hc).1
      · rcases List.mem_cons.mp ht with rfl | ht
        · exact here
        · exact later t ht

theorem Alike.solve (agree : AgreeOn h valueOf valueOf') {e : Expr} (he : h.Holds e) :
    Alike valueOf h (fun _ => True) (solve valueOf e) (solve valueOf' e) := by
  have agenda : ∀ task ∈ [Task.mk e false], h.Holds task.node := by simpa using he
  refine (Alike.solvePending agree agenda).bind fun _ _ => (Alike.known he).bind fun v? _ => ?_
  cases v? with
  | none => exact .throw _
  | some v => exact .pure trivial

/-- All that a ranking evaluates is evaluated alike. -/
theorem Alike.occurrences (agree : AgreeOn h valueOf valueOf') {t : Tagged}
    (held : ∀ e ∈ t.trees, h.Holds e) :
    Alike valueOf h (fun _ => True) (occurrences valueOf t) (occurrences valueOf' t) := by
  refine (Alike.forM fun e he => (Alike.solve agree (held e he)).bind fun _ _ =>
    .pure trivial).bind fun _ _ => ?_
  refine (Alike.mapM (R := fun _ _ => True) fun a ha => ?_).imp fun _ _ => trivial
  have path : Alike valueOf h (fun _ => True) (a.2.path.mapM (Lifted.solve valueOf))
      (a.2.path.mapM (Lifted.solve valueOf')) := by
    refine (Alike.mapM (R := fun _ _ => True) fun x hx => .solve agree ?_).imp fun _ _ => trivial
    obtain ⟨e, he, hp⟩ := List.mem_flatMap.mp (mem_placements ha)
    exact (held e he).node (Expr.mem_nodes_of_mem_path hp hx)
  exact path.bind fun vs _ => .pure trivial

/-! ## Meanings -/

/-- From the values of its children a node has the value of its tree. -/
theorem Semantics.agreeOn_treewise (S : Semantics) (b : Bindings) :
    AgreeOn h (S.evaluator.onNode b) (S.treewise.onNode b) := by
  intro e he vs values
  have value : S.value b e = S.onNode b e vs := by
    rw [S.value_eq, show e.children.mapM (S.value b) = .ok vs from values]
    rfl
  exact value.symm.trans (S.solve_eq_value b he).symm

end Lifted
