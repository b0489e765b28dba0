import Lifted.Proofs.Expr.Renumbering
import Lifted.Proofs.Run

/-!
# Runs in lockstep

Two runs that draw from two supplies stay in lockstep if they take their identities at the same
turns. Nothing tells them apart then but the identities themselves, and these go together one by
one: those that were there before as some relation has it, and the new ones turn by turn. The new
ones also come in the same order, since both supplies increase.

* `Error.mapIds`, `Matches`: outcomes that are the same up to identities, failures included.
* `Pairing`: the two supplies, and how the identities that are there already go together.
* `Pairing.Made`, `Pairing.rel`: how the new identities go together, and all identities.
* `Pairing.Runs`: the two runs take as many turns and have outcomes that match; `Pairing.Runs.bind`
  and the rules for each primitive of a run.
* `Pairing.RunsOn`: the same for runs with states of their own.
* `Pairing.Tables`: tables with related entries under identities that go together.
-/

namespace Lifted

variable {α α' α'' β β' σ σ' : Type}

/-! ## Outcomes up to identities -/

/-- The error with each identity `i` replaced by `f i`. -/
def EvaluationError.mapIds (f : NodeId → NodeId) : EvaluationError → EvaluationError
  | operandUnsolved child node => operandUnsolved (f child) (f node)
  | unsolved node => unsolved (f node)
  | divisionByZero dividend => divisionByZero dividend
  | remainderByZero dividend => remainderByZero dividend
  | unbound name => unbound name

/-- The malformation with each identity `i` replaced by `f i`. -/
def Malformation.mapIds (f : NodeId → NodeId) : Malformation → Malformation
  | width node text bytes => width (f node) text bytes
  | operandCount node op got => operandCount (f node) op got
  | memoryValues node got => memoryValues (f node) got
  | valueCount op got => valueCount op got
  | zeroWidth op => zeroWidth op

/-- The error with each identity `i` replaced by `f i`. -/
def Error.mapIds (f : NodeId → NodeId) : Error → Error
  | evaluation cause => evaluation (cause.mapIds f)
  | malformed cause => malformed (cause.mapIds f)
  | unknownPlaceholder id => unknownPlaceholder (f id)
  | unavailable reason => unavailable reason
  | placeholderWidth bytes => placeholderWidth bytes

/-- Both computations succeed with related results, or both fail with errors that differ in nothing
but identities. -/
inductive Matches (A : α → α' → Prop) : Except Error α → Except Error α' → Prop
  | ok {a : α} {a' : α'} (h : A a a') : Matches A (.ok a) (.ok a')
  | error {err err' : Error} (h : err.mapIds (fun _ => 0) = err'.mapIds fun _ => 0) :
    Matches A (.error err) (.error err')

namespace Matches

variable {A B : α → α' → Prop} {C : α' → α → Prop} {D : α' → α'' → Prop} {F : α → α'' → Prop}
  {x : Except Error α} {x' : Except Error α'}

theorem imp (h : Matches A x x') (weaker : ∀ a a', A a a' → B a a') : Matches B x x' := by
  cases h with
  | ok h => exact .ok (weaker _ _ h)
  | error h => exact .error h

theorem symm (h : Matches A x x') (flip : ∀ a a', A a a' → C a' a) : Matches C x' x := by
  cases h with
  | ok h => exact .ok (flip _ _ h)
  | error h => exact .error h.symm

theorem trans {x'' : Except Error α''} (h : Matches A x x') (h' : Matches D x' x'')
    (comp : ∀ a a' a'', A a a' → D a' a'' → F a a'') : Matches F x x'' := by
  cases h with
  | ok h => cases h' with
    | ok h' => exact .ok (comp _ _ _ h h')
  | error h => cases h' with
    | error h' => exact .error (h.trans h')

/-- What does not depend on identities at all. -/
theorem rfl {x : Except Error α} : Matches Eq x x := by
  cases x with
  | ok a => exact .ok (Eq.refl a)
  | error err => exact .error (Eq.refl _)

theorem bind {C : β → β' → Prop} {f : α → Except Error β} {f' : α' → Except Error β'}
    (h : Matches A x x') (hf : ∀ a a', A a a' → Matches C (f a) (f' a')) :
    Matches C (x >>= f) (x' >>= f') := by
  cases h with
  | ok h => exact hf _ _ h
  | error h => exact .error h

theorem map {C : β → β' → Prop} {f : α → β} {f' : α' → β'} (h : Matches A x x')
    (hf : ∀ a a', A a a' → C (f a) (f' a')) : Matches C (f <$> x) (f' <$> x') := by
  cases h with
  | ok h => exact .ok (hf _ _ h)
  | error h => exact .error h

theorem mapM {C : β → β' → Prop} {f : α → Except Error β} {f' : α' → Except Error β'}
    {xs : List α} {xs' : List α'} (h : List.Forall₂ A xs xs')
    (each : ∀ a a', A a a' → Matches C (f a) (f' a')) :
    Matches (List.Forall₂ C) (xs.mapM f) (xs'.mapM f') := by
  induction h with
  | nil => exact .ok .nil
  | cons h _ ih =>
    rw [List.mapM_cons, List.mapM_cons]
    exact (each _ _ h).bind fun b b' hb => ih.bind fun bs bs' hbs => .ok (.cons hb hbs)

theorem forM {f : α → Except Error PUnit} {f' : α' → Except Error PUnit} {xs : List α}
    {xs' : List α'} (h : List.Forall₂ A xs xs') (each : ∀ a a', A a a' → Matches Eq (f a) (f' a')) :
    Matches Eq (xs.forM f) (xs'.forM f') := by
  induction h with
  | nil => exact .ok (Eq.refl _)
  | cons h _ ih => exact (each _ _ h).bind fun _ _ _ => ih

end Matches

/-! ## Identities that go together -/

namespace Supply

/-- The supply after `n` more turns. -/
def later (s : Supply) (n : Nat) : Supply := { s with issued := s.issued + n }

theorem le_later (s : Supply) (n : Nat) : s ≤ s.later n := ⟨rfl, Nat.le_add_right _ _⟩

theorem advance_later (s : Supply) (n : Nat) : (s.later n).advance = s.later (n + 1) := rfl

theorem next_later_lt_iff {s : Supply} {n k : Nat} :
    (s.later n).next < (s.later k).next ↔ n < k := by
  have lt : ∀ {n k : Nat}, n < k → (s.later n).next < (s.later k).next := fun h =>
    s.increasing _ _ (Nat.add_lt_add_left h _)
  refine ⟨fun h => ?_, lt⟩
  by_contra notBefore
  rcases Nat.lt_or_eq_of_le (Nat.not_lt.mp notBefore) with after | rfl
  · exact Nat.lt_asymm h (lt after)
  · exact Nat.lt_irrefl _ h

end Supply

/-- Two supplies, and how the identities that are there already go together. -/
structure Pairing where
  left : Supply
  right : Supply
  old : NodeId → NodeId → Prop
  unique : Relator.BiUnique old
  fresh : ∀ i i', old i i' → ∀ n, i ≠ (left.later n).next ∧ i' ≠ (right.later n).next

namespace Pairing

variable (P : Pairing)

/-- The two supplies issue the identities at one turn. -/
def Made (i i' : NodeId) : Prop := ∃ n, (P.left.later n).next = i ∧ (P.right.later n).next = i'

/-- The identities go together, as old ones or as new ones. -/
def rel (i i' : NodeId) : Prop := P.old i i' ∨ P.Made i i'

variable {P} {i i' k k' : NodeId}

theorem Made.rel (h : P.Made i i') : P.rel i i' := .inr h

theorem Made.lt_iff (h : P.Made i i') (h' : P.Made k k') : i < k ↔ i' < k' := by
  obtain ⟨n, rfl, rfl⟩ := h
  obtain ⟨m, rfl, rfl⟩ := h'
  rw [Supply.next_later_lt_iff, Supply.next_later_lt_iff]

/-- New identities come in one order. -/
theorem Made.le_iff (h : P.Made i i') (h' : P.Made k k') : i ≤ k ↔ i' ≤ k' := by
  rw [← Nat.not_lt, ← Nat.not_lt, h'.lt_iff h]

theorem Made.eq_iff (h : P.Made i i') (h' : P.Made k k') : i = k ↔ i' = k' := by
  rw [Nat.le_antisymm_iff, Nat.le_antisymm_iff, h.le_iff h', h'.le_iff h]

/-- An old identity is not made again. -/
theorem ne_of_old_of_made (h : P.old i i') (h' : P.Made k k') : i ≠ k ∧ i' ≠ k' := by
  obtain ⟨n, rfl, rfl⟩ := h'
  exact P.fresh i i' h n

theorem rel_eq_iff (h : P.rel i i') (h' : P.rel k k') : i = k ↔ i' = k' := by
  rcases h with old | made <;> rcases h' with old' | made'
  · constructor
    · rintro rfl
      exact P.unique.2 old old'
    · rintro rfl
      exact P.unique.1 old old'
  · exact iff_of_false (ne_of_old_of_made old made').1 (ne_of_old_of_made old made').2
  · exact iff_of_false (ne_of_old_of_made old' made).1.symm (ne_of_old_of_made old' made).2.symm
  · exact made.eq_iff made'

theorem biUnique_rel (P : Pairing) : Relator.BiUnique P.rel :=
  ⟨fun _ _ _ h h' => (rel_eq_iff h h').mpr rfl, fun _ _ _ h h' => (rel_eq_iff h h').mp rfl⟩

end Pairing

/-! ## Runs -/

namespace Pairing

/-- Started at the same turn, the runs end at the same turn with outcomes that match. -/
def Runs (P : Pairing) (A : α → α' → Prop) (x : Run α) (x' : Run α') : Prop :=
  ∀ n j j', x.Ends (P.left.later n) j fun r s _ => x'.Ends (P.right.later n) j' fun r' s' _ =>
    Matches A r r' ∧ ∃ m, s = P.left.later m ∧ s' = P.right.later m

/-- The same for runs with states of their own, which are related before and after. -/
def RunsOn (P : Pairing) (S : σ → σ' → Prop) (A : α → α' → Prop) (x : StateT σ Run α)
    (x' : StateT σ' Run α') : Prop :=
  ∀ st st', S st st' → P.Runs (fun a a' => A a.1 a'.1 ∧ S a.2 a'.2) (x.run st) (x'.run st')

variable {P : Pairing} {A : α → α' → Prop} {B : β → β' → Prop}

namespace Runs

theorem pure {a : α} {a' : α'} (h : A a a') : P.Runs A (Pure.pure a) (Pure.pure a') := fun n _ _ =>
  ⟨.ok h, n, rfl, rfl⟩

theorem bind {x : Run α} {x' : Run α'} {f : α → Run β} {f' : α' → Run β'} (h : P.Runs A x x')
    (hf : ∀ a a', A a a' → P.Runs B (f a) (f' a')) : P.Runs B (x >>= f) (x' >>= f') := by
  intro n j j'
  have first := h n j j'
  simp only [Run.Ends, ExceptT.run_bind, StateT.run_bind] at first ⊢
  generalize ((ExceptT.run x).run (P.left.later n)).run j = done at first
  generalize ((ExceptT.run x').run (P.right.later n)).run j' = done' at first
  obtain ⟨⟨r, s⟩, j₁⟩ := done
  obtain ⟨⟨r', s'⟩, j₁'⟩ := done'
  obtain ⟨same, m, rfl, rfl⟩ := first
  cases same with
  | ok h => exact hf _ _ h m j₁ j₁'
  | error h => exact ⟨.error h, m, rfl, rfl⟩

theorem lift {x : Except Error α} {x' : Except Error α'} (h : Matches A x x') :
    P.Runs A (liftM x) (liftM x') := fun n _ _ => by
  cases h with
  | ok h => exact ⟨.ok h, n, rfl, rfl⟩
  | error h => exact ⟨.error h, n, rfl, rfl⟩

theorem fresh : P.Runs P.Made Lifted.fresh Lifted.fresh := fun n _ _ =>
  ⟨.ok ⟨n, rfl, rfl⟩, n + 1, P.left.advance_later n, P.right.advance_later n⟩

theorem note (r r' : Record) : P.Runs Eq (Run.note r) (Run.note r') := fun n _ _ =>
  ⟨.ok rfl, n, rfl, rfl⟩

theorem map {x : Run α} {x' : Run α'} {f : α → β} {f' : α' → β'} (h : P.Runs A x x')
    (hf : ∀ a a', A a a' → B (f a) (f' a')) : P.Runs B (f <$> x) (f' <$> x') := by
  rw [map_eq_pure_bind, map_eq_pure_bind]
  exact h.bind fun a a' ha => .pure (hf a a' ha)

theorem forM {f : α → Run PUnit} {f' : α' → Run PUnit} {xs : List α} {xs' : List α'}
    (h : List.Forall₂ A xs xs') (each : ∀ a a', A a a' → P.Runs Eq (f a) (f' a')) :
    P.Runs Eq (xs.forM f) (xs'.forM f') := by
  induction h with
  | nil => exact .pure rfl
  | cons h _ ih => exact (each _ _ h).bind fun _ _ _ => ih

/-- What is known of every success of the first run is known in lockstep too. -/
theorem and {C : α → Prop} {x : Run α} {x' : Run α'} (h : P.Runs A x x')
    (left : ∀ n j, x.Ends (P.left.later n) j fun r _ _ => ∀ a, r = .ok a → C a) :
    P.Runs (fun a a' => A a a' ∧ C a) x x' := by
  intro n j j'
  have both : x.Ends (P.left.later n) j fun r s _ => (∀ a, r = .ok a → C a) ∧
      x'.Ends (P.right.later n) j' fun r' s' _ =>
        Matches A r r' ∧ ∃ m, s = P.left.later m ∧ s' = P.right.later m :=
    ⟨left n j, h n j j'⟩
  refine both.imp fun r s _ ⟨known, rest⟩ => rest.imp fun r' s' _ ⟨same, turns⟩ => ⟨?_, turns⟩
  cases same with
  | ok h => exact .ok ⟨h, known _ rfl⟩
  | error h => exact .error h

end Runs

namespace RunsOn

variable {S : σ → σ' → Prop}

theorem pure {a : α} {a' : α'} (h : A a a') :
    P.RunsOn S A (Pure.pure a) (Pure.pure a') := fun _ _ hs => Runs.pure ⟨h, hs⟩

theorem bind {x : StateT σ Run α} {x' : StateT σ' Run α'} {f : α → StateT σ Run β}
    {f' : α' → StateT σ' Run β'} (h : P.RunsOn S A x x')
    (hf : ∀ a a', A a a' → P.RunsOn S B (f a) (f' a')) : P.RunsOn S B (x >>= f) (x' >>= f') := by
  intro st st' hs
  rw [StateT.run_bind, StateT.run_bind]
  exact (h st st' hs).bind fun a a' ha => hf a.1 a'.1 ha.1 a.2 a'.2 ha.2

theorem lift {x : Run α} {x' : Run α'} (h : P.Runs A x x') :
    P.RunsOn S A (liftM x) (liftM x') := by
  intro st st' hs
  rw [Run.run_liftM, Run.run_liftM]
  exact h.map fun a a' ha => ⟨ha, hs⟩

theorem liftExcept {x : Except Error α} {x' : Except Error α'} (h : Matches A x x') :
    P.RunsOn S A (liftM x) (liftM x') := by
  intro st st' hs
  rw [Run.run_liftM_except, Run.run_liftM_except]
  exact (Runs.lift h).map fun a a' ha => ⟨ha, hs⟩

theorem get : P.RunsOn S S MonadState.get MonadState.get := fun _ _ hs => Runs.pure ⟨hs, hs⟩

theorem modify {f : σ → σ} {f' : σ' → σ'} (h : ∀ st st', S st st' → S (f st) (f' st')) :
    P.RunsOn S Eq (modify f) (modify f') := fun st st' hs => Runs.pure ⟨rfl, h st st' hs⟩

theorem map {x : StateT σ Run α} {x' : StateT σ' Run α'} {f : α → β} {f' : α' → β'}
    (h : P.RunsOn S A x x') (hf : ∀ a a', A a a' → B (f a) (f' a')) :
    P.RunsOn S B (f <$> x) (f' <$> x') := by
  rw [map_eq_pure_bind, map_eq_pure_bind]
  exact h.bind fun a a' ha => .pure (hf a a' ha)

end RunsOn

/-! ## Tables -/

/-- Both tables have as many entries, and those under identities that go together are related. -/
structure Tables (P : Pairing) (A : NodeId → NodeId → α → α' → Prop) (M : Std.HashMap NodeId α)
    (M' : Std.HashMap NodeId α') : Prop where
  size : M.size = M'.size
  entries : ∀ i i', P.rel i i' → Option.Rel (A i i') M[i]? M'[i']?

namespace Tables

variable {A : NodeId → NodeId → α → α' → Prop} {M : Std.HashMap NodeId α}
  {M' : Std.HashMap NodeId α'}

theorem empty : P.Tables A ∅ ∅ where
  size := rfl
  entries i i' _ := by
    rw [Std.HashMap.getElem?_empty, Std.HashMap.getElem?_empty]
    exact .none

theorem contains (h : P.Tables A M M') {i i' : NodeId} (hi : P.rel i i') :
    M.contains i = M'.contains i' := by
  have entry := h.entries i i' hi
  rw [Std.HashMap.contains_eq_isSome_getElem?, Std.HashMap.contains_eq_isSome_getElem?]
  generalize M[i]? = entry? at entry
  generalize M'[i']? = entry?' at entry
  cases entry <;> rfl

theorem insert (h : P.Tables A M M') {i i' : NodeId} (hi : P.rel i i') {a : α} {a' : α'}
    (ha : A i i' a a') : P.Tables A (M.insert i a) (M'.insert i' a') where
  size := by
    simp only [Std.HashMap.size_insert, h.size, ← Std.HashMap.contains_iff_mem, h.contains hi]
  entries k k' hk := by
    rw [Std.HashMap.getElem?_insert, Std.HashMap.getElem?_insert]
    by_cases same : i = k
    · obtain rfl := (rel_eq_iff hi hk).mp same
      subst same
      simpa using ha
    · have apart : i' ≠ k' := fun same' => same ((rel_eq_iff hi hk).mpr same')
      simpa [same, apart] using h.entries k k' hk

end Tables

end Pairing
end Lifted
