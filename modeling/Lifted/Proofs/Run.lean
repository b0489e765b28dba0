import Lifted.Canonical.Journal

/-!
# Reasoning about runs

A run starts from a supply of identities and a journal and ends with a result, the supply that is
left and the journal as it then stands.

* `Supply.instLE`: a supply is at most another one that has issued more of the same identities.
* `Run.Ends`: a run ends so that a condition holds of its result, supply and journal. A failure is
  one of the results, so the condition speaks of it as well.
* `Run.Ends.bind` and the rules for each primitive of a run, also below a state of its own.
* `Run.outcome`: the result of a run that starts with an empty journal.
* `Run.SameFrom`: two runs that end alike.
-/

namespace Lifted

namespace Supply

/-- The identities are the same and at least as many of them are issued. -/
instance instLE : LE Supply := ⟨fun s s' => s.issue = s'.issue ∧ s.issued ≤ s'.issued⟩

theorem le_refl (s : Supply) : s ≤ s := ⟨rfl, Nat.le_refl _⟩

theorem le_trans {s s' s'' : Supply} (h : s ≤ s') (h' : s' ≤ s'') : s ≤ s'' :=
  ⟨h.1.trans h'.1, Nat.le_trans h.2 h'.2⟩

theorem le_advance (s : Supply) : s ≤ s.advance := ⟨rfl, Nat.le_succ _⟩

theorem next_le_next {s s' : Supply} (h : s ≤ s') : s.next ≤ s'.next := by
  obtain ⟨issue, issued⟩ := h
  unfold next
  rw [issue]
  by_cases more : s.issued < s'.issued
  · exact Nat.le_of_lt (s'.increasing _ _ more)
  · have same : s.issued = s'.issued := by omega
    exact Nat.le_of_eq (congrArg s'.issue same)

end Supply

namespace Run

variable {α β σ : Type}

/-- `x`, started with supply `s` and journal `j`, ends so that `Q` holds of its result, of the
supply that is left and of the journal. -/
def Ends (x : Run α) (s : Supply) (j : Journal)
    (Q : Except Error α → Supply → Journal → Prop) : Prop :=
  let done := ((ExceptT.run x).run s).run j
  Q done.1.1 done.1.2 done.2

/-- The result of a run that starts with an empty journal. -/
def outcome (x : Run α) (s : Supply) : Except Error α := (x.start s).1.1

namespace Ends

variable {s : Supply} {j : Journal} {Q Q' : Except Error α → Supply → Journal → Prop}

theorem imp {x : Run α} (h : x.Ends s j Q) (weaker : ∀ r s' j', Q r s' j' → Q' r s' j') :
    x.Ends s j Q' :=
  weaker _ _ _ h

theorem outcome {x : Run α} (h : x.Ends s #[] Q) : ∃ s' j', Q (x.outcome s) s' j' := ⟨_, _, h⟩

/-- Two conditions that hold at one end. -/
theorem and {x : Run α} (h : x.Ends s j Q) (h' : x.Ends s j Q') :
    x.Ends s j fun r s' j' => Q r s' j' ∧ Q' r s' j' := ⟨h, h'⟩

/-- What a run ends with is its outcome. -/
theorem and_outcome {x : Run α} (h : x.Ends s #[] Q) :
    x.Ends s #[] fun r s' j' => x.outcome s = r ∧ Q r s' j' := ⟨rfl, h⟩

theorem pure {a : α} (h : Q (.ok a) s j) : (Pure.pure a : Run α).Ends s j Q := h

theorem bind {x : Run α} {f : α → Run β} {R : Except Error β → Supply → Journal → Prop}
    (h : x.Ends s j fun r s' j' =>
      match r with
      | .ok a => (f a).Ends s' j' R
      | .error e => R (.error e) s' j') :
    (x >>= f).Ends s j R := by
  simp only [Ends, ExceptT.run_bind, StateT.run_bind] at h ⊢
  generalize ((ExceptT.run x).run s).run j = done at h
  obtain ⟨⟨r, s'⟩, j'⟩ := done
  cases r <;> exact h

/-- `bind` for runs with a state of their own. -/
theorem runBind {x : StateT σ Run α} {f : α → StateT σ Run β} {st : σ}
    {R : Except Error (β × σ) → Supply → Journal → Prop}
    (h : (x.run st).Ends s j fun r s' j' =>
      match r with
      | .ok (a, st') => ((f a).run st').Ends s' j' R
      | .error e => R (.error e) s' j') :
    ((x >>= f).run st).Ends s j R := by
  rw [StateT.run_bind]
  refine bind (h.imp fun r s' j' hr => ?_)
  cases r with
  | ok out => exact hr
  | error e => exact hr

theorem map {x : Run α} {f : α → β} {R : Except Error β → Supply → Journal → Prop}
    (h : x.Ends s j fun r => R (f <$> r)) : (f <$> x).Ends s j R := by
  rw [map_eq_pure_bind]
  refine bind (h.imp fun r s' j' hr => ?_)
  cases r with
  | ok a => exact pure hr
  | error e => exact hr

theorem lift {x : Except Error α} (h : Q x s j) : (liftM x : Run α).Ends s j Q := by
  cases x <;> exact h

theorem fresh {Q : Except Error NodeId → Supply → Journal → Prop} (h : Q (.ok s.next) s.advance j) :
    (Lifted.fresh : Run NodeId).Ends s j Q := h

theorem note {Q : Except Error Unit → Supply → Journal → Prop} {r : Record}
    (h : Q (.ok ()) s (j.push r)) : (Run.note r).Ends s j Q := h

theorem notes {Q : Except Error Unit → Supply → Journal → Prop} {rs : List Record}
    (h : Q (.ok ()) s (j ++ rs)) : (Run.notes rs).Ends s j Q := h

end Ends

theorem outcome_map (f : α → β) (x : Run α) (s : Supply) :
    (f <$> x).outcome s = f <$> x.outcome s := by
  have ends : (f <$> x).Ends s #[] fun r _ _ => r = f <$> x.outcome s := .map rfl
  exact ends

/-- Started with supply `s` and journal `j`, the two runs end with the same result, supply and
journal. -/
def SameFrom (s : Supply) (j : Journal) (x x' : Run α) : Prop :=
  ((ExceptT.run x).run s).run j = ((ExceptT.run x').run s).run j

namespace SameFrom

variable {s : Supply} {j : Journal}

theorem of_eq {x x' : Run α} (same : x = x') : SameFrom s j x x' := by
  rw [same]
  rfl

/-- What comes after one first step, which goes on in the same way if it succeeds. -/
theorem bind {x : Run α} {f f' : α → Run β}
    (h : x.Ends s j fun r s' j' => ∀ a, r = .ok a → SameFrom s' j' (f a) (f' a)) :
    SameFrom s j (x >>= f) (x >>= f') := by
  simp only [Ends, SameFrom, ExceptT.run_bind, StateT.run_bind] at h ⊢
  generalize ((ExceptT.run x).run s).run j = done at h
  obtain ⟨⟨r, s'⟩, j'⟩ := done
  cases r with
  | error e => rfl
  | ok a => exact h a rfl

theorem start {x x' : Run α} (h : SameFrom s #[] x x') : x.start s = x'.start s := h

end SameFrom

/-! ## Runs with a state of their own -/

section State

variable (st : σ)

theorem run_liftM (x : Run α) :
    (liftM x : StateT σ Run α).run st = (fun a => (a, st)) <$> x := by
  rw [map_eq_pure_bind]
  rfl

theorem run_liftM_except (x : Except Error α) :
    (liftM x : StateT σ Run α).run st = (fun a => (a, st)) <$> (liftM x : Run α) := by
  cases x <;> rfl

omit st in
/-- What comes after a result matters only if there is one. -/
theorem liftM_bind_congr {x : Except Error α} {f f' : α → StateT σ Run β}
    (h : ∀ a, x = .ok a → f a = f' a) : (liftM x >>= f) = (liftM x >>= f') := by
  cases x with
  | error err => rfl
  | ok a => exact h a rfl

end State

end Run
end Lifted
