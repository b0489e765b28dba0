import Lifted.Proofs.Canonical.Hygiene
import Lifted.Proofs.Canonical.WellFormed

/-!
# Canonical forms are their own canonical forms

No leaf of an output has a role, as long as no name that a run puts in is a register's. A second run
then keeps every node, so its trees are the very nodes that it was given and it has nothing to name.
It can still fail where its trees have no value under its bindings, and in no other way.

* `walkTrees_kept`: a walk that keeps every node yields the trees that it walks.
* `NewNames`: no name that a run puts in is a register's.
* `Substituted.roleBy_eq_kept`: the leaves of the output have no roles.
* `tag_kept`, `rename_kept`: what the passes do with leaves that have no roles.
* `canonicalize_idempotent`: the second run.
-/

namespace Lifted

/-! ## Walks that keep every node -/

section

variable {σ : Type} {visitor : Visitor (StateT σ Run)} {st : σ}

theorem walkTrees_kept_of_each {es : List Expr}
    (each : ∀ e ∈ es, ∀ above, (walkTree visitor above e).run st = pure (e, st))
    (above : List Expr) : (walkTrees visitor above es).run st = pure (es, st) := by
  induction es with
  | nil => rfl
  | cons e es ih =>
    have head := each e List.mem_cons_self above
    have tail := ih fun x hx => each x (List.mem_cons_of_mem _ hx)
    simp only [walkTrees, StateT.run_bind, head, tail, pure_bind, StateT.run_pure]

/-- By induction on the tree: its children come back as they were, and so does the node. -/
theorem walkTree_kept {e : Expr}
    (kept : ∀ x ∈ e.nodes, ∀ above, (visitor above x).run st = pure (none, st))
    (above : List Expr) : (walkTree visitor above e).run st = pure (e, st) := by
  induction e using Expr.induct_children generalizing above with
  | step e ih =>
  obtain ⟨root, below⟩ := Expr.forall_mem_nodes_iff.mp kept
  have children := walkTrees_kept_of_each (fun c hc => ih c hc (below c hc)) (e :: above)
  rw [walkTree_eq, StateT.run_bind, root above, pure_bind]
  simp only [StateT.run_bind, children, pure_bind, rebuild_of_same, StateT.run_pure]

/-- A walk that keeps every node yields the trees that it walks, and takes no identity. -/
theorem walkTrees_kept {es : List Expr}
    (kept : ∀ x ∈ Expr.nodesOf es, ∀ above, (visitor above x).run st = pure (none, st))
    (above : List Expr) : (walkTrees visitor above es).run st = pure (es, st) :=
  walkTrees_kept_of_each (fun e he =>
    walkTree_kept fun x hx => kept x (Expr.mem_nodesOf.mpr ⟨e, he, hx⟩)) above

end

/-! ## The leaves of an output -/

/-- No name that a run puts in is the name of a register. -/
structure NewNames (R : Registers) (I : ImageQueries) (o : Options) : Prop where
  canonical : ∀ (p : Population) (k : Nat), R.knows (p.canonicalName k) = false
  thunk : ∀ a name, o.thunk? I a = some name → R.knows name = false

theorem RegisterList.knows_registers (r : RegisterList) (name : String) :
    r.registers.knows name = r.contains name := by
  rw [← r.index_isSome]
  unfold Registers.knows
  have index : r.registers.index name = .ok (r.index name) := rfl
  rw [index]
  cases r.index name <;> rfl

theorem NewNames.of_list {r : RegisterList} {i : Image} {o : Options}
    (thunks : ∀ a name, i.thunkName a = some name → r.contains name = false)
    (canonical : ∀ (p : Population) (k : Nat), r.contains (p.canonicalName k) = false) :
    NewNames r.registers i.queries o where
  canonical p k := (r.knows_registers _).trans (canonical p k)
  thunk a name h := by
    rw [r.knows_registers]
    refine thunks a name ?_
    rw [Image.thunkName, lookup_of_thunk? h]
    rfl

section

variable {R : Registers} {I : ImageQueries} {o : Options} {es : List Expr} {out : Canonical}
  {x y : Expr}

theorem roleBy_of_unknown {name : String} (hn : y.name? = some name)
    (unknown : R.knows name = false) : roleBy R I o y = .kept := by
  cases y with
  | var id name' bytes label =>
    obtain rfl : name' = name := Option.some.inj hn
    rw [roleBy_var, unknown]
    rfl
  | const | mem | op => cases hn

/-- The leaves of the output have no roles: where a leaf had one there stands a name put in. -/
theorem Substituted.roleBy_eq_kept (T : Substituted R I o es out) (N : NewNames R I o)
    (hy : y ∈ Expr.nodesOf out.trees) : roleBy R I o y = .kept := by
  obtain ⟨x, hx, became⟩ := exists_mem_of_forall₂ (forall₂_mem T.nodes).flip hy
  obtain ⟨hx, -, became⟩ := became
  cases role : roleBy R I o x with
  | register name =>
    obtain ⟨new, given, hn⟩ := exists_registerName became T hx role
    obtain ⟨k, rfl⟩ := T.canonical_register name new given
    exact roleBy_of_unknown hn (N.canonical .register k)
  | address a =>
    obtain ⟨new, given, hn⟩ := exists_addressName became T hx role
    obtain ⟨k, rfl⟩ := T.canonical_address a new given
    exact roleBy_of_unknown hn (N.canonical .address k)
  | thunk name =>
    obtain ⟨id, a, bytes, rfl, thunk⟩ := eq_const_of_thunk role
    have hn : y.name? = some name := by
      rw [name_of_leaf became rfl, role]
      rfl
    exact roleBy_of_unknown hn (N.thunk a name thunk)
  | kept =>
    cases leaf : x.isLeaf with
    | false =>
      refine roleBy_of_not_isLeaf ?_
      have same := congrArg Expr.isLeaf became
      rw [Expr.isLeaf_mapLeaves (fun z h => isLeaf_leafOfRole h (roleBy R I o z)), leaf,
        Expr.isLeaf_congr (Expr.tree_mapIds _ y)] at same
      exact same
    | true =>
      rw [Expr.mapLeaves_of_isLeaf _ leaf, role, leafOfRole] at became
      have same := congrArg Expr.tree became
      rw [Expr.tree_mapIds, Expr.tree_mapIds] at same
      rw [roleBy_congr same, role]

end

/-! ## Passes over leaves without roles -/

section

variable {R : Registers} {I : ImageQueries} {o : Options} {es : List Expr} {s : Supply}
  {j : Journal}

theorem tag_kept (kept : ∀ x ∈ Expr.nodesOf es, roleOf R I o x = .ok .kept) :
    (tag R I o es).Ends s j fun r _ _ => r = .ok ⟨es, ∅, ∅⟩ := by
  have visits : ∀ x ∈ Expr.nodesOf es, ∀ above,
      (tagNode R I o above x).run .empty = pure (none, .empty) := by
    intro x hx above
    have fresh : Tagging.empty.replaced[x.id]? = none := by simp [Tagging.empty]
    rw [tagNode, StateT.run_bind, StateT.run_get, pure_bind]
    simp only [fresh, kept x hx]
    rfl
  unfold tag
  rw [mapM_walk, walkTrees_kept visits, pure_bind]
  exact Run.Ends.bind (Run.Ends.note (Run.Ends.pure rfl))

theorem rename_kept {width : UInt8} {names : Names} :
    (rename I width ⟨es, ∅, ∅⟩ names).Ends s j fun r _ _ => r = .ok es := by
  have visits : ∀ x ∈ Expr.nodesOf es, ∀ above,
      (renameNode I width ⟨es, ∅, ∅⟩ names above x).run ∅ = pure (none, ∅) := by
    intro x _ above
    have fresh : (∅ : Renamed)[x.id]? = none := by simp
    have nothing : canonicalVariable I width ⟨es, ∅, ∅⟩ names x = pure none := by
      simp [canonicalVariable]
    rw [renameNode, StateT.run_bind, StateT.run_get, pure_bind]
    simp only [fresh, nothing]
    rfl
  unfold rename
  rw [mapM_walk]
  refine Run.Ends.map ?_
  change ((walkTrees (renameNode I width ⟨es, ∅, ∅⟩ names) [] es).run ∅).Ends s j _
  rw [walkTrees_kept visits]
  exact Run.Ends.pure rfl

/-- Without placeholders there is nothing to see, once the trees have values. -/
theorem occurrencesBy_kept {value : Expr → Except Error UInt64} :
    occurrencesBy value ⟨es, ∅, ∅⟩ = (es.mapM value).map fun _ => [] := by
  have placements : Tagged.placements ⟨es, ∅, ∅⟩ = [] := by
    simp [Tagged.placements, Tagged.populationOf]
  have trees : discard (es.mapM value) = es.forM fun e => discard (value e) := discard_mapM
  rw [occurrencesBy, placements, ← trees]
  cases es.mapM value <;> rfl

end

theorem ofOccurrences_nil (t : Tagged) : Ranking.ofOccurrences t [] = ⟨[], [], []⟩ := by
  simp [Ranking.ofOccurrences, ranked, tiesOf]

/-! ## The second run -/

/-- The report of a run that has nothing to name. -/
def Report.empty : Report := ⟨0, 0, [], [], 0⟩

theorem Report.of_nil (es : List Expr) :
    Report.of ⟨es, ∅, ∅⟩ ⟨[], [], []⟩ ⟨[], []⟩ = .empty := by
  simp [Report.of, Report.empty, Ranking.collisions]

/-- Well-formed trees can lack values only for reasons of the evaluation. -/
theorem exists_cause_of_mapM_value {S : Semantics} {b : Bindings} {es : List Expr} {err : Error}
    (wf : ∀ e ∈ es, e.WellFormed) (failed : es.mapM (S.value b) = .error err) :
    ∃ cause, err = .evaluation cause := by
  have failed := discard_error_iff.mpr failed
  rw [discard_mapM] at failed
  obtain ⟨before, e, after, split, -, he⟩ := forM_error_iff.mp failed
  have keeps : ∀ x ∈ e.nodes, x.Keeps (· ≠ 0) := fun x hx =>
    (Expr.wellFormed_iff_keeps.mp (wf e (by simp [split])) x hx).imp fun _ legal => legal.1
  have evaluation := Semantics.isEvaluation_of_value keeps (discard_error_iff.mp he)
  cases err with
  | evaluation cause => exact ⟨cause, rfl⟩
  | malformed | unavailable | placeholderWidth | unknownPlaceholder => cases evaluation

/-- A run over well-formed trees without roles. -/
theorem canonicalize_kept_ends {S : Semantics} {R : Registers} {I : ImageQueries} {b : Bindings}
    {o : Options} {es : List Expr} (s : Supply) (options : o.validate = .ok ())
    (wf : ∀ e ∈ es, e.WellFormed) (coherent : Expr.Coherent es)
    (kept : ∀ x ∈ Expr.nodesOf es, roleOf R I o x = .ok .kept) :
    (canonicalize ⟨S.evaluator, R, I⟩ b o es).Ends s #[] fun r _ _ =>
      (∃ cause, r = .error (.evaluation cause)) ∨ r = .ok ⟨es, .empty⟩ := by
  have held : ∀ e ∈ es, (Heap.of es).Holds e := fun e he => Heap.holds_of coherent he
  have accepted : es.forM Expr.validate = .ok () := forM_ok_iff.mpr fun e he =>
    (Expr.validate_ok_iff (held e he)).mpr (wf e he)
  unfold canonicalize
  refine Run.Ends.bind (Run.Ends.lift ?_)
  rw [options]
  refine Run.Ends.bind ((validate_ends s #[] es).imp ?_)
  rintro _ s₁ j₁ ⟨rfl, rfl, rfl⟩
  rw [accepted]
  refine Run.Ends.bind ((tag_kept kept).imp ?_)
  rintro _ s₂ j₂ rfl
  refine Run.Ends.bind ((rank_ends held).imp ?_)
  rintro _ s₃ j₃ ⟨rfl, rfl⟩
  rw [occurrencesBy_kept]
  cases values : es.mapM (S.evaluator.value b) with
  | error err =>
    obtain ⟨cause, rfl⟩ := exists_cause_of_mapM_value wf values
    exact .inl ⟨cause, rfl⟩
  | ok vs =>
    show (assignNames ⟨es, ∅, ∅⟩ (Ranking.ofOccurrences ⟨es, ∅, ∅⟩ []) >>=
      fun names => _).Ends s₃ j₃ _
    rw [ofOccurrences_nil]
    have named : Names.ofRanking ⟨es, ∅, ∅⟩ ⟨[], [], []⟩ = .ok ⟨[], []⟩ := rfl
    refine Run.Ends.bind (Run.Ends.bind (Run.Ends.lift ?_))
    rw [named]
    refine Run.Ends.bind (Run.Ends.note (Run.Ends.pure ?_))
    refine Run.Ends.bind (rename_kept.imp ?_)
    rintro _ s₄ j₄ rfl
    refine Run.Ends.bind (Run.Ends.note (Run.Ends.pure (.inr ?_)))
    rw [← Report.of_nil]

/-- A second run over the output of a run. If the table has neither the thunks of the image nor
canonical names, and pointers have a width that a leaf may have, then whatever the bindings and
whichever identities come next, the run fails in the evaluation or yields the very nodes that it was
given and names nothing. -/
theorem canonicalize_idempotent {S : Semantics} {v : Evaluator} {r : RegisterList} {i : Image}
    {b : Bindings} {o : Options} {s : Supply} {es : List Expr} {out : Canonical}
    (serves : s.Serves es)
    (thunks : ∀ a name, i.thunkName a = some name → r.contains name = false)
    (canonical : ∀ (p : Population) (k : Nat), r.contains (p.canonicalName k) = false)
    (pointers : Width.Legal i.pointerWidth)
    (done : (canonicalize ⟨v, r.registers, i.queries⟩ b o es).outcome s = .ok out)
    (b' : Bindings) (s' : Supply) :
    (∃ cause, (canonicalize ⟨S.evaluator, r.registers, i.queries⟩ b' o out.trees).outcome s' =
        .error (.evaluation cause)) ∨
      (canonicalize ⟨S.evaluator, r.registers, i.queries⟩ b' o out.trees).outcome s' =
        .ok ⟨out.trees, .empty⟩ := by
  have T := substituted_of_ok serves done
  obtain ⟨options, trees, -⟩ := exists_passed serves done
  have wf : ∀ e ∈ out.trees, e.WellFormed := by
    refine (T.wellFormed_iff options fun e he => ?_).mpr fun _ => pointers
    exact (Expr.validate_ok_iff (serves.holds e he)).mp (trees e he)
  have kept : ∀ x ∈ Expr.nodesOf out.trees, roleOf r.registers i.queries o x = .ok .kept := by
    intro x hx
    rw [roleOf_answers r.answers i.answers, T.roleBy_eq_kept (.of_list thunks canonical) hx]
  exact canonicalize_kept_ends s' options wf T.coherent kept

namespace Sample

/-- The letter that each canonical name ends in ends no register's name. -/
theorem i386_contains_canonicalName (p : Population) (k : Nat) :
    Architecture.i386.registerList.contains (p.canonicalName k) = false := by
  have last : ∀ name ∈ Architecture.i386.registerNames,
      name.toList.getLast? ≠ some 'g' ∧ name.toList.getLast? ≠ some 'a' := by decide
  by_contra there
  rw [Bool.not_eq_false, RegisterList.contains, List.contains_iff_mem] at there
  obtain ⟨g, a⟩ := last _ there
  cases p <;> simp [Population.canonicalName, Population.suffix, String.toList_append] at g a

/-- Values for the names that the sample gets. -/
def again : Bindings :=
  ((Bindings.empty.setVar "0indreg" 5).setVar "0archindva" 7).setVar "puts" 9

end Sample

theorem canonicalize_idempotent_sample : ∃ out,
    (canonicalize Sample.collaborators Sample.bindings Sample.options Sample.batch).outcome
      (Supply.startingAt 5) = .ok out ∧
    (canonicalize Sample.collaborators Sample.again Sample.options out.trees).outcome
      (Supply.startingAt 20) = .ok ⟨out.trees, .empty⟩ := by
  have runs : ((canonicalize Sample.collaborators Sample.bindings Sample.options
      Sample.batch).outcome (Supply.startingAt 5)).toOption.map (fun out =>
        ((canonicalize Sample.collaborators Sample.again Sample.options out.trees).outcome
          (Supply.startingAt 20)).toOption.isSome) = some true := by cbv
  obtain ⟨out, done, succeeds⟩ := exists_ok_of_map_eq runs
  refine ⟨out, done, ?_⟩
  have thunks : ∀ a name, Sample.image.thunkName a = some name →
      Architecture.i386.registerList.contains name = false := by
    intro a name h
    rw [Sample.eq_puts_of_lookup (Option.join_eq_some_iff.mp h)]
    decide
  rcases canonicalize_idempotent (S := {}) Sample.serves_batch thunks
    Sample.i386_contains_canonicalName (by decide) done Sample.again (Supply.startingAt 20) with
    ⟨cause, failed⟩ | same
  · rw [show (canonicalize Sample.collaborators Sample.again Sample.options out.trees).outcome
      (Supply.startingAt 20) = _ from failed] at succeeds
    cases succeeds
  · exact same

end Lifted
