import Lifted.Proofs.Evaluation.Memo
import Mathlib.Data.List.Induction

/-!
# What a solver is asked

A node is asked for its value when its children have theirs, and not again: what it yields stays in
the memo, and a failure ends the work. So the questions of a computation are the entries that it
adds, one for each, and one more if it fails.

* `Call`, `logged`: a question, and a solver that writes down its questions.
* `Does`: what a computation does from a memo, with its questions written down or not.
* `Adds`: questions that were answered, each of a node that is not in the memo and has its children
  there.
* `Spends`: a computation asks such questions only, and one without an answer if it fails.
* `Ready`: opened tasks of an agenda have their children in the memo when they come up again.
* `Spends.solvePending`, `Spends.solve`: an agenda and a tree; `Spends.solve` is what callers use.
* `Memo.Grown`: what holds of a memo that was filled by such questions; `Adds.grown`.
-/

namespace Lifted

variable {α β γ : Type} {valueOf : (node : Expr) → (values : List UInt64) → Except Error UInt64}
  {P : Expr → Prop} {M M' M'' : Memo}

/-- A node and the values of its children, for which its value is asked. -/
abbrev Call := Expr × List UInt64

/-- The solver, which writes down what it is asked, the first question first. -/
def logged (valueOf : (node : Expr) → (values : List UInt64) → Except Error UInt64) :
    NodeValue (StateM (List Call)) := fun node values => do
  modify (· ++ [(node, values)])
  return valueOf node values

/-! ## Computations -/

/-- From the memo `M` both computations end with `r` and leave `M'`, and the first one writes down
`calls`. -/
structure Does (x : MemoT (StateM (List Call)) α) (y : MemoT Id α) (M : Memo) (r : Except Error α)
    (M' : Memo) (calls : List Call) : Prop where
  logged : ∀ log, ((ExceptT.run x).run M).run log = ((r, M'), log ++ calls)
  plain : Memo.run M y = (r, M')

namespace Does

variable {x : MemoT (StateM (List Call)) α} {y : MemoT Id α}
  {f : α → MemoT (StateM (List Call)) β} {g : α → MemoT Id β} {r : Except Error β}
  {calls calls' : List Call}

theorem pure (a : α) : Does (pure a) (pure a) M (.ok a) M [] where
  logged log := by
    rw [List.append_nil]
    rfl
  plain := rfl

theorem get : Does MonadState.get MonadState.get M (.ok M) M [] where
  logged log := by
    rw [List.append_nil]
    rfl
  plain := rfl

theorem insert (id : NodeId) (v : UInt64) :
    Does (modify (·.insert id v)) (modify (·.insert id v)) M (.ok ()) (M.insert id v) [] where
  logged log := by
    rw [List.append_nil]
    rfl
  plain := rfl

/-- A question is written down, whatever the answer. -/
theorem call {node : Expr} {values : List UInt64} {r : Except Error UInt64}
    (answer : valueOf node values = r) :
    Does (ExceptT.mk (StateT.lift (Lifted.logged valueOf node values)))
      (ExceptT.mk (StateT.lift (m := Id) (valueOf node values))) M r M [(node, values)] := by
  subst answer
  exact ⟨fun _ => rfl, rfl⟩

theorem bind {a : α} (hx : Does x y M (.ok a) M' calls) (hf : Does (f a) (g a) M' r M'' calls') :
    Does (x >>= f) (y >>= g) M r M'' (calls ++ calls') where
  logged log := by
    rw [ExceptT.run_bind, StateT.run_bind, StateT.run_bind, hx.logged, ← List.append_assoc]
    exact hf.logged (log ++ calls)
  plain := (Memo.run_bind_ok hx.plain).trans hf.plain

theorem bind_error {err : Error} (hx : Does x y M (.error err) M' calls) :
    Does (x >>= f) (y >>= g) M (.error err) M' calls where
  logged log := by
    rw [ExceptT.run_bind, StateT.run_bind, StateT.run_bind, hx.logged]
    rfl
  plain := by
    rw [Memo.run_bind, hx.plain]

end Does

/-! ## Questions -/

theorem Memo.not_mem_iff {id : NodeId} : id ∉ M ↔ M[id]? = none := by
  rw [← Std.HashMap.isSome_getElem?_iff_mem, Bool.not_eq_true, Option.isSome_eq_false_iff,
    Option.isNone_iff_eq_none]

theorem Memo.mem_of_entry {id : NodeId} {v : UInt64} (hv : M[id]? = some v) : id ∈ M :=
  Std.HashMap.isSome_getElem?_iff_mem.mp (by rw [hv]; rfl)

theorem Memo.Le.mem (le : Memo.Le M M') {id : NodeId} (h : id ∈ M) : id ∈ M' :=
  Memo.mem_of_entry (le id _ (Std.HashMap.getElem?_eq_some_getElem h))

/-- `vs` are what the memo has for the nodes `cs`. -/
def Memo.Has (M : Memo) (cs : List Expr) (vs : List UInt64) : Prop :=
  List.Forall₂ (fun c v => M[c.id]? = some v) cs vs

theorem Memo.Has.mono {cs : List Expr} {vs : List UInt64} (has : M.Has cs vs) (le : Memo.Le M M') :
    M'.Has cs vs := List.Forall₂.imp (fun _ _ => le _ _) has

/-- The answered questions `calls` fill the memo `M` up to `M'`. Each of them is asked of a node
that has no entry yet and whose children have theirs. -/
inductive Adds (valueOf : (node : Expr) → (values : List UInt64) → Except Error UInt64)
    (P : Expr → Prop) : Memo → List Call → Memo → Prop
  | nil {M : Memo} : Adds valueOf P M [] M
  | cons {M M' : Memo} {x : Expr} {vs : List UInt64} {v : UInt64} {calls : List Call}
      (among : P x) (new : M[x.id]? = none) (has : M.Has x.children vs)
      (value : valueOf x vs = .ok v) (more : Adds valueOf P (M.insert x.id v) calls M') :
      Adds valueOf P M ((x, vs) :: calls) M'

namespace Adds

variable {calls calls' : List Call}

theorem append (adds : Adds valueOf P M calls M') (adds' : Adds valueOf P M' calls' M'') :
    Adds valueOf P M (calls ++ calls') M'' := by
  induction adds with
  | nil => exact adds'
  | cons among new has value _ ih => exact .cons among new has value (ih adds')

theorem mono {P' : Expr → Prop} (adds : Adds valueOf P M calls M') (weaker : ∀ x, P x → P' x) :
    Adds valueOf P' M calls M' := by
  induction adds with
  | nil => exact .nil
  | cons among new has value _ ih => exact .cons (weaker _ among) new has value ih

theorem le (adds : Adds valueOf P M calls M') : Memo.Le M M' := by
  induction adds with
  | nil => exact Memo.Le.refl _
  | cons _ new _ _ _ ih => exact (Memo.le_insert new).trans ih

theorem among (adds : Adds valueOf P M calls M') : ∀ call ∈ calls, P call.1 := by
  induction adds with
  | nil => exact fun _ h => nomatch h
  | cons among _ _ _ _ ih => exact List.forall_mem_cons.mpr ⟨among, ih⟩

/-- The entries are the old ones and those of the questions. -/
theorem mem_iff (adds : Adds valueOf P M calls M') {id : NodeId} :
    id ∈ M' ↔ id ∈ M ∨ id ∈ calls.map (·.1.id) := by
  induction adds with
  | nil => simp
  | cons _ _ _ _ _ ih =>
    rw [ih, Std.HashMap.mem_insert, List.map_cons, List.mem_cons, beq_iff_eq, eq_comm]
    tauto

theorem not_mem (adds : Adds valueOf P M calls M') {id : NodeId} (h : id ∈ calls.map (·.1.id)) :
    id ∉ M := by
  induction adds with
  | nil => cases h
  | cons _ new _ _ _ ih =>
    rcases List.mem_cons.mp h with rfl | h
    · exact Memo.not_mem_iff.mpr new
    · exact fun there => ih h (Std.HashMap.mem_insert.mpr (.inr there))

/-- No node is asked twice. -/
theorem nodup (adds : Adds valueOf P M calls M') : (calls.map (·.1.id)).Nodup := by
  induction adds with
  | nil => exact List.nodup_nil
  | cons _ _ _ _ more ih =>
    rw [List.map_cons, List.nodup_cons]
    exact ⟨fun h => more.not_mem h Std.HashMap.mem_insert_self, ih⟩

end Adds

/-- The questions `calls` fill the memo up to `M'`, and the last one has `err` for an answer. -/
def Fails (valueOf : (node : Expr) → (values : List UInt64) → Except Error UInt64)
    (P : Expr → Prop) (M : Memo) (calls : List Call) (M' : Memo) (err : Error) : Prop :=
  ∃ added x vs, calls = added ++ [(x, vs)] ∧ Adds valueOf P M added M' ∧ P x ∧
    M'[x.id]? = none ∧ M'.Has x.children vs ∧ valueOf x vs = .error err

theorem Adds.fails {calls calls' : List Call} {err : Error} (adds : Adds valueOf P M calls M')
    (fails : Fails valueOf P M' calls' M'' err) : Fails valueOf P M (calls ++ calls') M'' err := by
  obtain ⟨added, x, vs, rfl, more, rest⟩ := fails
  exact ⟨calls ++ added, x, vs, (List.append_assoc ..).symm, adds.append more, rest⟩

/-- From the memo `M` the two computations do the same. They ask no questions but answered ones
where they succeed, and `Q` holds of the result and the memo then; where they fail the last question
is the one that has no answer. All are asked of nodes of which `P` holds. -/
def Spends (valueOf : (node : Expr) → (values : List UInt64) → Except Error UInt64)
    (P : Expr → Prop) (M : Memo) (x : MemoT (StateM (List Call)) α) (y : MemoT Id α)
    (Q : α → Memo → Prop) : Prop :=
  ∃ r M' calls, Does x y M r M' calls ∧
    match r with
    | .ok a => Adds valueOf P M calls M' ∧ Q a M'
    | .error err => Fails valueOf P M calls M' err

namespace Spends

variable {x : MemoT (StateM (List Call)) α} {y : MemoT Id α}
  {f : α → MemoT (StateM (List Call)) β} {g : α → MemoT Id β} {Q : α → Memo → Prop}
  {R : β → Memo → Prop}

theorem pure {a : α} (ha : Q a M) : Spends valueOf P M (Pure.pure a) (Pure.pure a) Q :=
  ⟨_, _, _, Does.pure a, .nil, ha⟩

theorem get : Spends valueOf P M MonadState.get MonadState.get fun a M' => a = M ∧ M' = M :=
  ⟨_, _, _, Does.get, .nil, rfl, rfl⟩

theorem bind (hx : Spends valueOf P M x y Q)
    (hf : ∀ a M', Memo.Le M M' → Q a M' → Spends valueOf P M' (f a) (g a) R) :
    Spends valueOf P M (x >>= f) (y >>= g) R := by
  obtain ⟨r, M', calls, does, made⟩ := hx
  cases r with
  | error err => exact ⟨_, _, _, does.bind_error, made⟩
  | ok a =>
    obtain ⟨adds, ha⟩ := made
    obtain ⟨r', M'', calls', does', made'⟩ := hf a M' adds.le ha
    refine ⟨r', M'', _, does.bind does', ?_⟩
    cases r' with
    | error err => exact adds.fails made'
    | ok b => exact ⟨adds.append made'.1, made'.2⟩

theorem imp {Q' : α → Memo → Prop} (hx : Spends valueOf P M x y Q)
    (weaker : ∀ a M', Memo.Le M M' → Q a M' → Q' a M') : Spends valueOf P M x y Q' := by
  obtain ⟨r, M', calls, does, made⟩ := hx
  refine ⟨r, M', calls, does, ?_⟩
  cases r with
  | error err => exact made
  | ok a => exact ⟨made.1, weaker a M' made.1.le made.2⟩

theorem mapM {f : γ → MemoT (StateM (List Call)) α} {g : γ → MemoT Id α} {xs : List γ}
    (each : ∀ c ∈ xs, ∀ M, Spends valueOf P M (f c) (g c) fun _ _ => True) (M : Memo) :
    Spends valueOf P M (xs.mapM f) (xs.mapM g) fun _ _ => True := by
  induction xs generalizing M with
  | nil => exact pure trivial
  | cons c xs ih =>
    obtain ⟨first, rest⟩ := List.forall_mem_cons.mp each
    rw [List.mapM_cons, List.mapM_cons]
    exact (first M).bind fun _ M' _ _ => (ih rest M').bind fun _ _ _ _ => pure trivial

/-- What each step enters stays for the end. -/
theorem forM {f : γ → MemoT (StateM (List Call)) PUnit} {g : γ → MemoT Id PUnit}
    {Q : γ → Memo → Prop} (stays : ∀ c M M', Memo.Le M M' → Q c M → Q c M') {xs : List γ}
    (each : ∀ c ∈ xs, ∀ M, Spends valueOf P M (f c) (g c) fun _ M' => Q c M') (M : Memo) :
    Spends valueOf P M (xs.forM f) (xs.forM g) fun _ M' => ∀ c ∈ xs, Q c M' := by
  induction xs generalizing M with
  | nil => exact pure fun _ h => nomatch h
  | cons c xs ih =>
    obtain ⟨first, rest⟩ := List.forall_mem_cons.mp each
    refine (first M).bind fun _ M' _ here => (ih rest M').imp fun _ M'' le later => ?_
    exact List.forall_mem_cons.mpr ⟨stays c M' M'' le here, later⟩

/-! ## Nodes -/

theorem known (id : NodeId) : Spends valueOf P M (known id) (known id)
    fun v? M' => v? = M[id]? ∧ M' = M := by
  refine get.bind ?_
  rintro _ _ - ⟨rfl, rfl⟩
  exact pure ⟨rfl, rfl⟩

theorem operandValue {node child : Expr} {v : UInt64} (hv : M[child.id]? = some v) :
    Does (Lifted.operandValue node child) (Lifted.operandValue node child) M (.ok v) M [] := by
  have there : Does (Lifted.known child.id) (Lifted.known child.id) M (.ok (some v)) M [] := by
    rw [← hv]
    exact Does.get.bind (Does.pure _)
  exact there.bind (Does.pure v)

theorem operandValues {node : Expr} {cs : List Expr} {vs : List UInt64} (has : M.Has cs vs) :
    Does (cs.mapM (Lifted.operandValue node)) (cs.mapM (Lifted.operandValue node)) M (.ok vs) M
      [] := by
  induction has with
  | nil => exact Does.pure []
  | cons hv _ ih =>
    rw [List.mapM_cons, List.mapM_cons]
    exact (operandValue hv).bind (ih.bind (Does.pure _))

/-- A node whose children are in the memo is asked for its value. -/
theorem solveNode {e : Expr} {vs : List UInt64} (among : P e) (new : M[e.id]? = none)
    (has : M.Has e.children vs) :
    Spends valueOf P M (solveNode (Lifted.logged valueOf) e) (solveNode valueOf e)
      fun _ M' => e.id ∈ M' := by
  unfold Lifted.solveNode
  cases hv : valueOf e vs with
  | error err =>
    refine ⟨_, _, _, (operandValues has).bind (Does.call hv).bind_error, ?_⟩
    exact ⟨[], e, vs, rfl, .nil, among, new, has, hv⟩
  | ok v =>
    refine ⟨_, _, _, (operandValues has).bind ((Does.call hv).bind (Does.insert e.id v)), ?_⟩
    exact ⟨.cons among new has hv .nil, Std.HashMap.mem_insert_self⟩

end Spends

/-! ## Agendas -/

/-- Opened tasks come up when the children of their nodes are in the memo, if all entries that
tasks before them lead to are there, besides those of which `S` holds. -/
def Ready (S : NodeId → Prop) : List Task → Prop
  | [] => True
  | task :: rest => (task.opened = true → ∀ c ∈ task.node.children, S c.id) ∧
      Ready (fun id => S id ∨ id = task.node.id) rest

namespace Ready

variable {S S' : NodeId → Prop} {agenda : List Task}

theorem mono (ready : Ready S agenda) (more : ∀ id, S id → S' id) : Ready S' agenda := by
  induction agenda generalizing S S' with
  | nil => trivial
  | cons task rest ih =>
    exact ⟨fun opened c hc => more _ (ready.1 opened c hc),
      ih ready.2 fun id h => h.imp_left (more id)⟩

/-- Tasks that come up first add their own entries. -/
theorem unopened {es : List Expr} (ready : Ready (fun id => S id ∨ ∃ e ∈ es, id = e.id) agenda) :
    Ready S (es.map (Task.mk · false) ++ agenda) := by
  induction es generalizing S with
  | nil => exact ready.mono fun id h => h.elim (fun here => here) (by simp)
  | cons e es ih =>
    refine ⟨nofun, ih (ready.mono fun id h => ?_)⟩
    simpa [or_assoc] using h

/-- A node is put back behind those of its children that are not in the memo. -/
theorem opening {e : Expr} {rest : List Task} (ready : Ready (· ∈ M) (⟨e, false⟩ :: rest)) :
    Ready (· ∈ M) ((e.children.filter fun c => !M.contains c.id).map (Task.mk · false) ++
      ⟨e, true⟩ :: rest) := by
  refine unopened ⟨fun _ c hc => ?_, ready.2.mono fun id h => ?_⟩
  · by_cases there : c.id ∈ M
    · exact .inl there
    · exact .inr ⟨c, List.mem_filter.mpr ⟨hc, by simpa using there⟩, rfl⟩
  · exact h.imp_left .inl

end Ready

theorem Memo.exists_has {cs : List Expr} (there : ∀ c ∈ cs, c.id ∈ M) : ∃ vs, M.Has cs vs := by
  induction cs with
  | nil => exact ⟨[], .nil⟩
  | cons c cs ih =>
    obtain ⟨here, later⟩ := List.forall_mem_cons.mp there
    obtain ⟨vs, has⟩ := ih later
    exact ⟨M[c.id] :: vs, .cons (Std.HashMap.getElem?_eq_some_getElem here) has⟩

namespace Spends

/-- By induction along the steps of the agenda, which stays ready. -/
theorem solvePending (down : ∀ x, P x → ∀ c ∈ x.children, P c) {agenda : List Task}
    (among : ∀ task ∈ agenda, P task.node) (ready : Ready (· ∈ M) agenda) :
    Spends valueOf P M (solvePending (logged valueOf) agenda) (solvePending valueOf agenda)
      fun _ M' => ∀ task ∈ agenda, task.node.id ∈ M' := by
  induction agenda using solvePending.induct generalizing M with
  | case1 =>
    rw [Lifted.solvePending, Lifted.solvePending]
    exact pure fun _ h => by cases h
  | case2 task rest skip opening =>
    obtain ⟨here, later⟩ := List.forall_mem_cons.mp among
    rw [Lifted.solvePending, Lifted.solvePending]
    refine get.bind ?_
    rintro _ memo - ⟨rfl, rfl⟩
    split
    case isTrue there =>
      have there : task.node.id ∈ memo := there
      refine (skip later (ready.2.mono ?_)).imp fun _ M' le done => ?_
      · rintro id (h | rfl)
        · exact h
        · exact there
      · exact List.forall_mem_cons.mpr ⟨le.mem there, done⟩
    case isFalse absent =>
      have new : memo[task.node.id]? = none := Memo.not_mem_iff.mp absent
      split
      case isTrue turn =>
        -- A task at its turn has been opened, or its node is a leaf.
        have children : ∀ c ∈ task.node.children, c.id ∈ memo := by
          rcases Bool.or_eq_true_iff.mp turn with opened | leaf
          · exact ready.1 opened
          · simp [List.isEmpty_iff.mp leaf]
        obtain ⟨vs, has⟩ := Memo.exists_has children
        refine (solveNode here new has).bind fun _ M' le there => ?_
        refine (skip later (ready.2.mono ?_)).imp fun _ M'' le' done => ?_
        · rintro id (h | rfl)
          · exact le.mem h
          · exact there
        · exact List.forall_mem_cons.mpr ⟨le'.mem there, done⟩
      case isFalse turn =>
        obtain ⟨node, opened⟩ := task
        obtain ⟨rfl, inner⟩ : opened = false ∧ _ := by simpa using turn
        refine (opening memo turn (fun t ht => ?_) ready.opening).imp fun _ M' _ done => ?_
        · rcases List.mem_append.mp ht with ht | ht
          · obtain ⟨c, hc, rfl⟩ := List.mem_map.mp ht
            exact down _ here c (List.mem_filter.mp hc).1
          · rcases List.mem_cons.mp ht with rfl | ht
            · exact here
            · exact later t ht
        · intro t ht
          rcases List.mem_cons.mp ht with rfl | ht
          · exact done ⟨node, true⟩ (by simp)
          · exact done t (by simp [ht])

/-- The value of a tree is the entry of its root. -/
theorem solve (down : ∀ x, P x → ∀ c ∈ x.children, P c) {e : Expr} (among : P e) (M : Memo) :
    Spends valueOf P M (solve (logged valueOf) e) (solve valueOf e)
      fun v M' => M'[e.id]? = some v := by
  have ready : Ready (· ∈ M) [⟨e, false⟩] := ⟨nofun, trivial⟩
  refine (solvePending down (by simpa using among) ready).bind fun _ M₁ _ done => ?_
  have there := done ⟨e, false⟩ (by simp)
  refine (known e.id).bind ?_
  rintro _ _ - ⟨rfl, rfl⟩
  rw [Std.HashMap.getElem?_eq_some_getElem there]
  exact pure (Std.HashMap.getElem?_eq_some_getElem there)

end Spends

/-! ## Filled memos -/

namespace Memo

/-- What holds of a memo that was filled with values of nodes of the trees `es`: nodes come with all
nodes below them, and every entry is what the solver yields on the entries of the children. -/
structure Grown (valueOf : (node : Expr) → (values : List UInt64) → Except Error UInt64)
    (es : List Expr) (M : Memo) : Prop where
  only : ∀ id ∈ M, ∃ x ∈ Expr.nodesOf es, x.id = id
  value : ∀ x ∈ Expr.nodesOf es, ∀ v, M[x.id]? = some v →
    ∃ vs, M.Has x.children vs ∧ valueOf x vs = .ok v
  below : ∀ x ∈ Expr.nodesOf es, x.id ∈ M → ∀ y ∈ x.nodes, y.id ∈ M

variable {es : List Expr}

theorem Has.mem {cs : List Expr} {vs : List UInt64} (has : M.Has cs vs) : ∀ c ∈ cs, c.id ∈ M := by
  induction has with
  | nil => exact fun _ h => nomatch h
  | cons hv _ ih =>
    exact List.forall_mem_cons.mpr ⟨mem_of_entry hv, ih⟩

/-- That a node comes with the nodes below it follows from what its entry is made of, by induction
on the tree. -/
theorem Grown.of_value (only : ∀ id ∈ M, ∃ x ∈ Expr.nodesOf es, x.id = id)
    (value : ∀ x ∈ Expr.nodesOf es, ∀ v, M[x.id]? = some v →
      ∃ vs, M.Has x.children vs ∧ valueOf x vs = .ok v) : M.Grown valueOf es where
  only := only
  value := value
  below x hx there y hy := by
    induction x using Expr.induct_children with
    | step x ih =>
    rcases Expr.mem_nodes_iff.mp hy with rfl | ⟨c, hc, hy⟩
    · exact there
    · obtain ⟨vs, has, -⟩ := value x hx _ (Std.HashMap.getElem?_eq_some_getElem there)
      obtain ⟨e, he, hx⟩ := Expr.mem_nodesOf.mp hx
      have hc' : c ∈ Expr.nodesOf es := Expr.mem_nodesOf.mpr
        ⟨e, he, Expr.nodes_trans hx (Expr.mem_nodes_of_child hc c.self_mem_nodes)⟩
      exact ih c hc hc' (has.mem c hc) hy

theorem grown_empty (es : List Expr) : Grown valueOf es ∅ :=
  .of_value (by simp) fun _ _ v hv => by simp at hv

/-- The memo of a part of the batch. -/
theorem Grown.mono {es' : List Expr} (grown : M.Grown valueOf es) (coherent : Expr.Coherent es')
    (sub : ∀ x ∈ Expr.nodesOf es, x ∈ Expr.nodesOf es') : M.Grown valueOf es' := by
  refine .of_value (fun id there => ?_) fun x hx v hv => ?_
  · obtain ⟨x, hx, same⟩ := grown.only id there
    exact ⟨x, sub x hx, same⟩
  · have there : x.id ∈ M := mem_of_entry hv
    obtain ⟨y, hy, same⟩ := grown.only x.id there
    obtain rfl := coherent y (sub y hy) x hx same
    exact grown.value y hy v hv

/-- One answer keeps what holds of the memo. -/
theorem Grown.insert (grown : M.Grown valueOf es) (coherent : Expr.Coherent es) {x : Expr}
    (hx : x ∈ Expr.nodesOf es) (new : M[x.id]? = none) {vs : List UInt64}
    (has : M.Has x.children vs) {v : UInt64} (value : valueOf x vs = .ok v) :
    Grown valueOf es (M.insert x.id v) := by
  have le := le_insert (v := v) new
  refine .of_value (fun id there => ?_) fun y hy w hw => ?_
  · rcases Std.HashMap.mem_insert.mp there with same | there
    · exact ⟨x, hx, by simpa using same⟩
    · exact grown.only id there
  · rw [Std.HashMap.getElem?_insert] at hw
    split at hw
    case isTrue same =>
      obtain rfl := coherent x hx y hy (by simpa using same)
      obtain rfl := Option.some.inj hw
      exact ⟨vs, has.mono le, value⟩
    case isFalse =>
      obtain ⟨ws, has', value'⟩ := grown.value y hy w hw
      exact ⟨ws, has'.mono le, value'⟩

end Memo

theorem Adds.grown {es : List Expr} {calls : List Call}
    (adds : Adds valueOf (· ∈ Expr.nodesOf es) M calls M') (coherent : Expr.Coherent es)
    (grown : M.Grown valueOf es) : M'.Grown valueOf es := by
  induction adds with
  | nil => exact grown
  | cons among new has value _ ih => exact ih (grown.insert coherent among new has value)

/-! ## One tree after the other -/

namespace Expr

theorem mem_nodesOf_append {es fs : List Expr} {x : Expr} :
    x ∈ nodesOf (es ++ fs) ↔ x ∈ nodesOf es ∨ x ∈ nodesOf fs := by
  rw [nodesOf_append, List.mem_append]

theorem Coherent.left {es fs : List Expr} (coherent : Coherent (es ++ fs)) : Coherent es :=
  coherent.mono fun _ hx => mem_nodesOf_append.mpr (.inl hx)

end Expr

/-- The memo after the trees were evaluated from `M` on, one after the other. A tree that has no
value does not end this. -/
def Memo.after (valueOf : (node : Expr) → (values : List UInt64) → Except Error UInt64) (M : Memo)
    (es : List Expr) : Memo :=
  es.foldl (fun M e => (Memo.run M (solve (m := Id) valueOf e)).2) M

/-- From the memo `M` the evaluation of `e` ends with `r`, leaves `M'` and asks `calls`: every entry
of `M` stays, the nodes that become known are asked for once each, and so is the node that fails. -/
structure Asked (valueOf : (node : Expr) → (values : List UInt64) → Except Error UInt64)
    (M : Memo) (e : Expr) (r : Except Error UInt64) (M' : Memo) (calls : List Call) : Prop where
  does : Does (solve (logged valueOf) e) (solve valueOf e) M r M' calls
  keeps : Memo.Le M M'
  yields : ∀ v, r = .ok v → M'[e.id]? = some v ∧ ∀ x ∈ e.nodes, x.id ∈ M'
  once : ∃ added failed, calls = added ++ failed ∧ (added.map (·.1.id)).Nodup ∧
    (∀ call ∈ added, call.1 ∈ e.nodes) ∧
    (∀ id, id ∈ added.map (·.1.id) ↔ id ∈ M' ∧ id ∉ M) ∧
    (∀ v, r = .ok v → failed = []) ∧
    ∀ err, r = .error err → ∃ x ∈ e.nodes, ∃ vs, failed = [(x, vs)] ∧ x.id ∉ M' ∧
      M'.Has x.children vs ∧ valueOf x vs = .error err

namespace Adds

variable {calls : List Call}

theorem mem_calls_iff (adds : Adds valueOf P M calls M') (id : NodeId) :
    id ∈ calls.map (·.1.id) ↔ id ∈ M' ∧ id ∉ M := by
  rw [adds.mem_iff]
  exact ⟨fun h => ⟨.inr h, adds.not_mem h⟩, fun h => h.1.resolve_left h.2⟩

end Adds

/-- The children of a node of a tree are nodes of it. -/
theorem Expr.child_mem_nodes {e x : Expr} (hx : x ∈ e.nodes) :
    ∀ c ∈ x.children, c ∈ e.nodes := fun c hc =>
  Expr.nodes_trans hx (Expr.mem_nodes_of_child hc c.self_mem_nodes)

/-- What evaluating one tree of a coherent batch does. -/
theorem exists_asked {es : List Expr} (coherent : Expr.Coherent es) {e : Expr} (he : e ∈ es)
    (grown : M.Grown valueOf es) :
    ∃ r M' calls, Asked valueOf M e r M' calls ∧ M'.Grown valueOf es := by
  have within : ∀ x, x ∈ e.nodes → x ∈ Expr.nodesOf es := fun x hx =>
    Expr.mem_nodesOf.mpr ⟨e, he, hx⟩
  have spends : Spends valueOf (· ∈ e.nodes) M _ _ _ :=
    Spends.solve (fun _ => Expr.child_mem_nodes) e.self_mem_nodes M
  obtain ⟨r, M', calls, does, made⟩ := spends
  cases r with
  | ok v =>
    obtain ⟨adds, there⟩ := made
    have grown' := (adds.mono within).grown coherent grown
    have known : e.id ∈ M' := Memo.mem_of_entry there
    refine ⟨.ok v, M', calls, ?_, grown'⟩
    exact {
      does := does
      keeps := adds.le
      yields := by
        rintro w ⟨⟩
        exact ⟨there, grown'.below e (within e e.self_mem_nodes) known⟩
      once := ⟨calls, [], (List.append_nil _).symm, adds.nodup, adds.among, adds.mem_calls_iff,
        fun _ _ => rfl, nofun⟩ }
  | error err =>
    obtain ⟨added, x, vs, rfl, adds, hx, new, has, value⟩ := made
    refine ⟨.error err, M', added ++ [(x, vs)], ?_, (adds.mono within).grown coherent grown⟩
    exact {
      does := does
      keeps := adds.le
      yields := nofun
      once := ⟨added, [(x, vs)], rfl, adds.nodup, adds.among, adds.mem_calls_iff, nofun, by
        rintro err' ⟨⟩
        exact ⟨x, hx, vs, rfl, Memo.not_mem_iff.mpr new, has, value⟩⟩ }

namespace Memo

variable {es : List Expr}

theorem after_append (M : Memo) (es fs : List Expr) :
    M.after valueOf (es ++ fs) = (M.after valueOf es).after valueOf fs := List.foldl_append ..

theorem after_concat (M : Memo) (es : List Expr) (e : Expr) :
    M.after valueOf (es ++ [e]) = (run (M.after valueOf es) (solve (m := Id) valueOf e)).2 := by
  rw [after_append]
  rfl

/-- By induction on the trees, the last one last. -/
theorem grown_after (coherent : Expr.Coherent es) : (after valueOf ∅ es).Grown valueOf es := by
  induction es using List.reverseRecOn with
  | nil => exact grown_empty []
  | append_singleton es e ih =>
    have grown := (ih coherent.left).mono coherent fun x hx => Expr.mem_nodesOf_append.mpr (.inl hx)
    obtain ⟨r, M', calls, asked, grown'⟩ := exists_asked coherent (e := e) (by simp) grown
    rw [after_concat, asked.does.plain]
    exact grown'

/-- What one tree enters stays when others follow. -/
theorem le_after (M : Memo) (es : List Expr) : Le M (M.after valueOf es) := by
  induction es using List.reverseRecOn with
  | nil => exact Le.refl M
  | append_singleton es e ih =>
    have spends : Spends valueOf (fun _ => True) (M.after valueOf es) (solve (logged valueOf) e)
      (solve valueOf e) _ := Spends.solve (fun _ _ _ _ => trivial) trivial _
    obtain ⟨r, M', calls, does, made⟩ := spends
    rw [after_concat, does.plain]
    refine ih.trans ?_
    cases r with
    | ok v => exact made.1.le
    | error err =>
      obtain ⟨added, x, vs, -, adds, -⟩ := made
      exact adds.le

end Memo

end Lifted
