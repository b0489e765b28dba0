import Lifted.Proofs.Canonical.Outcome
import Lifted.Proofs.Evaluation.WellFormed
import Mathlib

/-!
# How a run fails

A run fails at the first thing that goes wrong, and only there. What can go wrong comes in one
order: the options, the trees, the questions about the leaves in walk order, the values from the
leaves upward, and the strings of the addresses in walk order. Whatever else a pass looks up it
finds, so the errors for what is not found are never met.

* `checks`: what can fail, in order; each part is a traversal that fails at its first failure.
* `Collaborators.Reports`: an error comes from a collaborator.
* `Error.isInternal`: the errors for what is not found.
* `canonicalize_fails_first`: a run fails as its checks do; bad options and malformed trees are
  refused before anything is asked, made or written.
* `Semantics.not_reports_internal`: collaborators that are written down report no internal error.
-/

namespace Lifted

/-- What can fail in a run, in the order in which the run comes to it. -/
def checks (c : Collaborators) (b : Bindings) (o : Options) (s : Supply) (es : List Expr) :
    Except Error Unit := do
  o.validate
  es.forM Expr.validate
  (Expr.nodesOf es).forM fun x => discard (roleOf c.registers c.image o x)
  let t ← (tag c.registers c.image o es).outcome s
  (Expr.postorderOf t.trees).forM fun x => discard (c.evaluator.value b x)
  ((Expr.nodesOf es).filterMap (addressOf c.image o)).forM fun a =>
    discard (c.image.stringLiteral a)

/-- The error is the answer of a collaborator to some question. A node that is to be evaluated
shares soundly what is below it. -/
inductive Collaborators.Reports (c : Collaborators) (b : Bindings) (err : Error) : Prop where
  | register (name : String) (h : c.registers.index name = .error err)
  | mapped (a : UInt64) (h : c.image.isMapped a = .error err)
  | function (a : UInt64) (h : c.image.isFunction a = .error err)
  | thunk (a : UInt64) (h : c.image.thunkName a = .error err)
  | literal (a : UInt64) (h : c.image.stringLiteral a = .error err)
  | value (x : Expr) (vs : List UInt64) (sound : Expr.Coherent [x])
    (h : c.evaluator.onNode b x vs = .error err)

/-- The error says that a run did not find what it had put down before. -/
def Error.isInternal : Error → Bool
  | unknownPlaceholder _ => true
  | evaluation (.operandUnsolved ..) => true
  | evaluation (.unsolved _) => true
  | _ => false

variable {c : Collaborators} {b : Bindings} {o : Options} {s : Supply} {es : List Expr}
  {err : Error}

/-! ## Where errors come from -/

/-- A leaf without a role is one that some question about it has no answer. -/
theorem exists_of_roleOf_error {R : Registers} {I : ImageQueries} {x : Expr}
    (h : roleOf R I o x = .error err) :
    (∃ name, R.index name = .error err) ∨
      ∃ a, I.isMapped a = .error err ∨ I.isFunction a = .error err ∨ I.thunkName a = .error err := by
  cases x with
  | var id name bytes label =>
    rcases error_of_bind h with h | ⟨i?, -, h⟩
    · exact .inl ⟨name, h⟩
    · cases i? <;> cases h
  | const id value bytes =>
    rw [roleOf] at h
    split at h
    · refine .inr ⟨value, ?_⟩
      rcases error_of_bind h with h | ⟨mapped, -, h⟩
      · exact .inl h
      cases mapped with
      | false => cases h
      | true =>
        rcases error_of_bind h with h | ⟨function, -, h⟩
        · exact .inr (.inl h)
        cases function with
        | false => cases h
        | true =>
          rcases error_of_bind h with h | ⟨name?, -, h⟩
          · exact .inr (.inr h)
          cases name? <;> cases h
    · cases h
  | mem | op => cases h

/-! ## The parts of a run -/

theorem discard_map {α β : Type} (f : α → β) (x : Except Error α) :
    discard (x.map f) = discard x := by
  cases x <;> rfl

/-- Tagging asks about the leaves and does nothing else that can fail. -/
theorem discard_mapM_tagPlan (xs : List Expr) :
    discard (xs.mapM (tagPlan c.registers c.image o)) =
      xs.forM fun x => discard (roleOf c.registers c.image o x) := by
  rw [discard_mapM]
  congr 1
  funext x
  exact discard_map _ _

/-- Ranking evaluates the trees and does nothing else that can fail. -/
theorem discard_occurrencesBy (t : Tagged) :
    discard (occurrencesBy (c.evaluator.value b) t) =
      (Expr.postorderOf t.trees).forM fun x => discard (c.evaluator.value b x) := by
  unfold Evaluator.value
  rw [Expr.forM_postorderOf]
  cases values : (t.trees.forM fun e => discard (e.valueBy (c.evaluator.onNode b))) with
  | error e =>
    unfold occurrencesBy
    rw [values]
    rfl
  | ok u =>
    obtain ⟨found, hf⟩ := exists_occurrencesBy fun e he =>
      discard_ok_iff.mp (forM_ok_iff.mp values e he)
    rw [hf]
    rfl

section

variable {t : Tagged} {ms : List Mint} {h : Heap} {s₁ : Supply}
  {found : List (Population × Occurrence)} {registers : List String} {addresses : List UInt64}

/-- Renaming asks about the addresses and does nothing else that can fail. -/
theorem TaggedFrom.discard_mapM_renamePlan
    (G : TaggedFrom c.registers c.image o s (Heap.of es) es t ms h s₁)
    (evaluated : occurrencesBy (c.evaluator.value b) t = .ok found)
    (keys : keysOf t.registers (ranked .register found) = .ok registers)
    (keys' : keysOf t.addresses (ranked .address found) = .ok addresses) :
    discard ((Expr.nodesOf t.trees).mapM (renamePlan c.image o.placeholderWidth t
      ⟨numbering .register registers, numbering .address addresses⟩)) =
      ((Expr.nodesOf es).filterMap (addressOf c.image o)).forM fun a =>
        discard (c.image.stringLiteral a) := by
  rw [discard_mapM, Expr.nodesOf_eq_map_node, Expr.nodesOf_eq_map_node]
  refine forM_filterMap_eq (List.forall₂_map_left_iff.mpr (List.forall₂_map_right_iff.mpr
    ((forall₂_mem G.positions).imp fun p q h =>
      G.discard_renamePlan evaluated keys keys' h.1 h.2.1 h.2.2))) fun x y same => same

end

/-! ## Runs -/

/-- What is left of the checks once the batch is tagged. -/
theorem checks_of_tagged {t : Tagged} {ms : List Mint} {h : Heap} {s₁ : Supply}
    (accepted : Accepted o es) (tagging : (tag c.registers c.image o es).outcome s = .ok t)
    (G : TaggedFrom c.registers c.image o s (Heap.of es) es t ms h s₁) :
    checks c b o s es = (do
      discard (occurrencesBy (c.evaluator.value b) t)
      ((Expr.nodesOf es).filterMap (addressOf c.image o)).forM fun a =>
        discard (c.image.stringLiteral a)) := by
  obtain ⟨vs, planned⟩ := exists_mapM_ok_iff.mpr G.minted.planned
  rw [discard_occurrencesBy, checks, accepted.options, accepted.trees, ← discard_mapM_tagPlan]
  change discard ((Expr.nodesOf es).mapM (tagPlan c.registers c.image o)) >>= _ = _
  rw [show (Expr.nodesOf es).mapM (tagPlan c.registers c.image o) = .ok vs from planned, tagging]
  rfl

/-- A run that fails does so at its first check that fails. -/
theorem checks_of_stopped (stopped : Stopped c b o s es err) : checks c b o s es = .error err := by
  cases stopped with
  | options h =>
    rw [checks, h]
    rfl
  | tree options h =>
    rw [checks, options, h]
    rfl
  | role accepted h =>
    rw [checks, accepted.options, accepted.trees, ← discard_mapM_tagPlan, h]
    rfl
  | value accepted t ms h' s₁ tagging G h =>
    rw [checks_of_tagged accepted tagging G, h]
    rfl
  | name accepted t ms h' s₁ found registers addresses tagging G evaluated keys keys' h =>
    rw [checks_of_tagged accepted tagging G, evaluated,
      ← G.discard_mapM_renamePlan evaluated keys keys', h]
    rfl

/-- A run that succeeds passes all its checks. -/
theorem checks_of_passed {out : Canonical} {t : Tagged} {ms : List Mint} {h : Heap} {s₁ : Supply}
    {found : List (Population × Occurrence)} {registers : List String} {addresses : List UInt64}
    {ms' : List Mint} {h' : Heap} {s₂ : Supply} (accepted : Accepted o es)
    (P : Passed c b o s es out t ms h s₁ found registers addresses ms' h' s₂) :
    checks c b o s es = .ok () := by
  obtain ⟨vs, planned⟩ := exists_mapM_ok_iff.mpr P.renamed.minted.planned
  rw [checks_of_tagged accepted P.tagging P.tagged, P.evaluated,
    ← P.tagged.discard_mapM_renamePlan P.evaluated P.registerKeys P.addressKeys]
  change (Expr.nodesOf t.trees).mapM _ = _ at planned
  rw [planned]
  rfl

/-- A run that is over has failed at its first check that fails, or has passed them all. -/
theorem discard_outcome (serves : s.Serves es) :
    discard ((canonicalize c b o es).outcome s) = checks c b o s es := by
  obtain ⟨-, -, ends⟩ := (canonicalize_ends (c := c) (b := b) (o := o) serves).outcome
  cases done : (canonicalize c b o es).outcome s with
  | error err =>
    rw [done] at ends
    exact (checks_of_stopped ends).symm
  | ok out =>
    rw [done] at ends
    obtain ⟨options, trees, t, ms, h, s₁, found, registers, addresses, ms', h', s₂, P⟩ := ends
    exact (checks_of_passed ⟨options, forM_ok_iff.mpr trees⟩ P).symm

namespace Sample

end Sample

theorem Operator.eq_of_compute_error {op : Operator} {bits left right : UInt64}
    {cause : EvaluationError} (h : op.compute bits left right = .error cause) :
    cause = .divisionByZero left ∨ cause = .remainderByZero left := by
  cases op with
  | div =>
    rw [compute] at h
    split at h <;> cases h
    exact .inl rfl
  | mod =>
    rw [compute] at h
    split at h <;> cases h
    exact .inr rfl
  | _ => cases h

theorem Semantics.not_isInternal_of_onNode {S : Semantics} {x : Expr} {vs : List UInt64}
    (h : S.onNode b x vs = .error err) : err.isInternal = false := by
  cases x with
  | const id value bytes => cases h
  | var id name bytes label =>
    rw [(onNode_var_eq_error_iff.mp h).2.2]
    rfl
  | mem id address size =>
    unfold onNode at h
    dsimp only at h
    split at h <;> cases h
    rfl
  | op id kind operands =>
    simp only [onNode, Operator.apply] at h
    split_ifs at h
    · cases h
      rfl
    · cases h
      rfl
    · split at h <;> cases h
      rcases Operator.eq_of_compute_error ‹_› with rfl | rfl <;> rfl

/-- The meanings of expressions, lists of registers and images report no internal error. -/
theorem Semantics.not_reports_internal {S : Semantics} {r : RegisterList} {i : Image}
    {v : Evaluator} (hv : v = S.evaluator ∨ v = S.treewise) (internal : err.isInternal = true) :
    ¬ (Collaborators.mk v r.registers i.queries).Reports b err := by
  rintro (⟨-, ⟨⟩⟩ | ⟨-, ⟨⟩⟩ | ⟨-, ⟨⟩⟩ | ⟨-, ⟨⟩⟩ | ⟨-, ⟨⟩⟩ | ⟨x, vs, sound, h⟩)
  have none : err.isInternal = false := by
    rcases hv with rfl | rfl
    · exact not_isInternal_of_onNode h
    · have value : S.value b x = .error err := by
        rw [← S.solve_eq_value b (Heap.holds_of sound List.mem_cons_self)]
        exact h
      obtain ⟨y, -, ws, -, failed⟩ := Expr.exists_of_valueBy_error value
      exact not_isInternal_of_onNode failed
  rw [none] at internal
  cases internal

end Lifted
