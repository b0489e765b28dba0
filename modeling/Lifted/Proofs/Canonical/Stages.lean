import Lifted.Proofs.Canonical.Outcome

/-!
# The stages of a run

A run that succeeds tags, ranks, names and renames, and each stage goes on from the supply and the
journal that the one before has left. So what is known of the end of a stage can be put to use for
the run, in any number of facts.

* `Run.Yields`: a run ends with a result and leaves a supply and a journal behind; `Yields.of_bind`:
  the parts of a sequence do so in turn.
* `Stages`: the stages of a run, with what each of them yields.
* `exists_stages`: a run that succeeds has stages.
-/

namespace Lifted

namespace Run

variable {α β : Type} {s s' s'' : Supply} {j j' j'' : Journal}

/-- `x`, started with supply `s` and journal `j`, yields `a` and leaves `s'` and `j'`. -/
def Yields (x : Run α) (s : Supply) (j : Journal) (a : α) (s' : Supply) (j' : Journal) : Prop :=
  x.Ends s j fun r t k => r = .ok a ∧ t = s' ∧ k = j'

theorem yields_of_outcome {x : Run α} {a : α} (done : x.outcome s = .ok a) :
    x.Yields s #[] a (x.start s).1.2 (x.start s).2 := ⟨done, rfl, rfl⟩

namespace Yields

/-- What holds of the end of a run. -/
theorem ends {x : Run α} {a : α} {Q : Except Error α → Supply → Journal → Prop}
    (h : x.Yields s j a s' j') (e : x.Ends s j Q) : Q (.ok a) s' j' := by
  obtain ⟨result, rfl, rfl⟩ := h
  rw [← result]
  exact e

theorem of_bind {x : Run α} {f : α → Run β} {b : β} (h : (x >>= f).Yields s j b s'' j'') :
    ∃ a s' j', x.Yields s j a s' j' ∧ (f a).Yields s' j' b s'' j'' := by
  have parts : (x >>= f).Ends s j fun r t k => r = .ok b ∧ t = s'' ∧ k = j'' →
      ∃ a s' j', x.Yields s j a s' j' ∧ (f a).Yields s' j' b s'' j'' := by
    have itself : x.Ends s j fun r t k => x.Ends s j fun r' t' k' => r' = r ∧ t' = t ∧ k' = k :=
      ⟨rfl, rfl, rfl⟩
    refine Run.Ends.bind (itself.imp fun r t k first => ?_)
    cases r with
    | error err => exact nofun
    | ok a => exact fun rest => ⟨a, t, k, first, rest⟩
  exact parts h

theorem of_lift {x : Except Error α} {a : α} (h : (liftM x : Run α).Yields s j a s' j') :
    x = .ok a ∧ s' = s ∧ j' = j := by
  have ends : (liftM x : Run α).Ends s j fun r t k => r = x ∧ t = s ∧ k = j :=
    Run.Ends.lift ⟨rfl, rfl, rfl⟩
  obtain ⟨rfl, hs, hj⟩ := h.ends ends
  exact ⟨rfl, hs, hj⟩

end Yields

end Run

variable (c : Collaborators) (b : Bindings) (o : Options) (s : Supply) (j : Journal)
  (es : List Expr)

/-- The run over `es` tagged the batch, which gave `t`, and found the ranking and the names; its
output is what renaming made of `t`. -/
structure Stages (out : Canonical) (j' : Journal) (t : Tagged) (ranking : Ranking) (names : Names)
    (s₁ s₂ s₃ : Supply) (j₁ j₂ j₃ : Journal) : Prop where
  tagged : (tag c.registers c.image o es).Yields s j t s₁ j₁
  ranked : (rank c.evaluator b t).Yields s₁ j₁ ranking s₂ j₂
  named : Names.ofRanking t ranking = .ok names
  renamed : (rename c.image o.placeholderWidth t names).Yields s₂
    (j₂.push (.named names.registers.length names.addresses.length)) out.trees s₃ j₃
  report : out.report = Report.of t ranking names
  journal : j' = j₃.push (.finished out.trees.length out.report.registerNames.length
    out.report.addressNames.length out.report.collisions)

variable {c b o s j es}

theorem exists_stages {out : Canonical} {s' : Supply} {j' : Journal}
    (done : (canonicalize c b o es).Yields s j out s' j') :
    ∃ t ranking names s₁ s₂ s₃ j₁ j₂ j₃,
      Stages c b o s j es out j' t ranking names s₁ s₂ s₃ j₁ j₂ j₃ := by
  unfold canonicalize at done
  obtain ⟨_, _, _, options, fromTrees⟩ := done.of_bind
  obtain ⟨-, rfl, rfl⟩ := options.of_lift
  obtain ⟨_, _, _, trees, fromTag⟩ := fromTrees.of_bind
  obtain ⟨rfl, rfl, -⟩ := trees.ends (validate_ends _ _ es)
  obtain ⟨t, s₁, j₁, tagged, fromRank⟩ := fromTag.of_bind
  obtain ⟨ranking, s₂, j₂, ranked, fromNames⟩ := fromRank.of_bind
  obtain ⟨names, _, _, assigned, fromRename⟩ := fromNames.of_bind
  obtain ⟨_, _, _, found, fromNote⟩ := assigned.of_bind
  obtain ⟨named, rfl, rfl⟩ := found.of_lift
  obtain ⟨_, _, _, noted, returned⟩ := fromNote.of_bind
  obtain ⟨-, rfl, rfl⟩ := noted
  obtain ⟨result, rfl, rfl⟩ := returned
  obtain rfl := Except.ok.inj result
  obtain ⟨_, s₃, j₃, renamed, fromFinish⟩ := fromRename.of_bind
  obtain ⟨_, _, _, finished, returned⟩ := fromFinish.of_bind
  obtain ⟨-, rfl, rfl⟩ := finished
  obtain ⟨result, rfl, rfl⟩ := returned
  obtain rfl := Except.ok.inj result
  exact ⟨t, ranking, _, s₁, _, s₃, j₁, _, j₃, tagged, ranked, named, renamed, rfl, rfl⟩

end Lifted
