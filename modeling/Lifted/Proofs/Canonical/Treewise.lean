import Lifted.Proofs.Canonical.Allocation
import Lifted.Proofs.Evaluation.Treewise

/-!
# Evaluating tree by tree

A run may evaluate each node from the values of its children, or each node as the tree that it
stands for. Over trees that share their nodes soundly this is the same run.

* `rank_congr`: the placeholders of a batch are ranked in the same way, with the same journal.
* `canonicalize_eq_treewise`: the two runs.
-/

namespace Lifted

variable {v v' : Evaluator} {b : Bindings} {t : Tagged} {h : Heap}

/-- Ranking goes by the values of a batch, and by how many of its nodes have one in the memo. -/
theorem rank_congr (agree : AgreeOn h (v.onNode b) (v'.onNode b))
    (held : ∀ e ∈ t.trees, h.Holds e) : rank v b t = rank v' b t := by
  have same : ((occurrences (m := Id) (v.onNode b) t).run.run ∅).run =
      ((occurrences (m := Id) (v'.onNode b) t).run.run ∅).run :=
    (Alike.occurrences agree held ∅ Memo.sound_empty).1
  unfold rank
  rw [same]

/-- Whether each node is evaluated from its children or as a tree of its own makes no difference:
from one supply the two runs put out the same trees, identities and all, with the same report, or
fail for the same cause, and write the same journal. From two supplies and over renumbered batches
they come to the same up to identities. -/
theorem canonicalize_eq_treewise (S : Semantics) (R : Registers) (I : ImageQueries) (b : Bindings)
    (o : Options) :
    (∀ es s, s.Serves es →
      (canonicalize ⟨S.evaluator, R, I⟩ b o es).start s =
        (canonicalize ⟨S.treewise, R, I⟩ b o es).start s) ∧
    ∀ es es' s s', Expr.Renumbered es es' → s.Avoids es → s'.Avoids es' →
      SameOutcome ((canonicalize ⟨S.evaluator, R, I⟩ b o es).outcome s)
        ((canonicalize ⟨S.treewise, R, I⟩ b o es').outcome s') := by
  have same : ∀ es s, s.Serves es → (canonicalize ⟨S.evaluator, R, I⟩ b o es).start s =
      (canonicalize ⟨S.treewise, R, I⟩ b o es).start s := fun es s serves =>
    start_congr serves rfl (fun t ms h s₁ G => rank_congr (S.agreeOn_treewise b) G.walked.held)
      fun _ _ _ _ _ _ => rfl
  refine ⟨same, fun es es' s s' renumbered avoids avoids' => ?_⟩
  obtain ⟨common, serves, nodewise, treewise⟩ := exists_common_supply (o := o)
    ⟨S.evaluator, R, I⟩ ⟨S.treewise, R, I⟩ (S.indifferent_evaluator b) (S.indifferent_treewise b)
    renumbered avoids avoids'
  refine nodewise.trans ?_
  rw [Run.outcome, same es common serves]
  exact treewise

namespace Sample

/-- What a run asks, with this meaning, node by node. -/
def nodewise (S : Semantics) : Collaborators := { collaborators with evaluator := S.evaluator }

/-- What a run asks, with this meaning, tree by tree. -/
def treewise (S : Semantics) : Collaborators := { collaborators with evaluator := S.treewise }

end Sample

/-- A run that succeeds, and one that fails at the value of the first placeholder. -/
theorem canonicalize_eq_treewise_sample :
    (∃ out, (canonicalize (Sample.nodewise {}) Sample.bindings Sample.options
        Sample.batch).outcome (Supply.startingAt 5) = .ok out) ∧
      SameOutcome
        ((canonicalize (Sample.nodewise {}) Sample.bindings Sample.options
          Sample.batch).outcome (Supply.startingAt 5))
        ((canonicalize (Sample.treewise {}) Sample.bindings Sample.options
          Sample.odd).outcome Sample.evens) ∧
      (canonicalize (Sample.treewise { strict := true }) .empty Sample.options
        Sample.batch).outcome (Supply.startingAt 5) =
          .error (.evaluation (.unbound Population.register.placeholder)) := by
  obtain ⟨-, two⟩ := canonicalize_eq_treewise {} Sample.collaborators.registers
    Sample.collaborators.image Sample.bindings Sample.options
  obtain ⟨strict, -⟩ := canonicalize_eq_treewise { strict := true } Sample.collaborators.registers
    Sample.collaborators.image .empty Sample.options
  have runs : ((canonicalize (Sample.nodewise {}) Sample.bindings Sample.options
      Sample.batch).outcome (Supply.startingAt 5)).toOption.map
        (fun out => out.trees.length) = some 2 := by cbv
  obtain ⟨out, done, -⟩ := exists_ok_of_map_eq runs
  have fails : ((canonicalize (Sample.nodewise { strict := true }) .empty Sample.options
      Sample.batch).start (Supply.startingAt 5)).1.1 =
        .error (.evaluation (.unbound Population.register.placeholder)) := by cbv
  refine ⟨⟨out, done⟩, two _ _ _ _ Sample.renumbered_odd Sample.serves_batch.avoids
    Sample.avoids_evens, ?_⟩
  rw [← fails]
  exact congrArg (fun done => done.1.1) (strict _ _ Sample.serves_batch).symm

end Lifted
