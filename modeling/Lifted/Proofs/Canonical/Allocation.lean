import Lifted.Proofs.Canonical.Lockstep
import Mathlib

/-!
# Runs do not depend on how identities are given out

What a run comes to does not depend on which new identities it is given, nor on which identities
the nodes of its batch have. So batches may be canonicalized in turns, each run taking the next
identity of one counter whenever it makes a node, and every run comes to what it comes to alone.

* `Supply.Avoids`: the batch shares nodes soundly, and has none of the identities to come.
* `SameOutcome`: the same canonical form up to identities with the same report, or the same failure.
* `Schedule`: which of several runs takes the next identity of a counter, at each turn;
  `Schedule.existsUnique_turn`: the counter gives out every identity once.
* `canonicalizeInterleaved`: the canonical forms of batches whose runs take turns.
* `IsEntry`: the entry of a batch is what the run on it alone comes to; `IsEntry.unique`: so the
  other batches play no part.
* `canonicalize_forgets_identities`: the runs on renumbered batches from any supplies, runs that
  take turns, and runs one after the other.
-/

namespace Lifted

/-- One identity is one node throughout the batch, and none of the identities to come is in it. -/
structure Supply.Avoids (s : Supply) (es : List Expr) : Prop where
  coherent : Expr.Coherent es
  fresh : ∀ x ∈ Expr.nodesOf es, ∀ n, x.id ≠ (s.later n).next

/-- Two runs come to the same canonical form up to identities and to the same report, or fail for
the same cause up to identities. -/
def SameOutcome (r r' : Except Error Canonical) : Prop :=
  Matches (fun out out' => Expr.Renumbered out.trees out'.trees ∧ out.report = out'.report) r r'

/-- Which of `count` runs takes the next identity of a counter that begins at `start`. Every run
gets turns again and again; a run that is over does not use them. -/
structure Schedule (count : Nat) where
  start : NodeId
  turn : Nat → Fin count
  recurring : ∀ k, {n | turn n = k}.Infinite

namespace Schedule

variable {count : Nat}

/-- The identities that the run `k` takes. -/
noncomputable def supply (S : Schedule count) (k : Fin count) : Supply where
  issue n := S.start + Nat.nth (fun m => S.turn m = k) n
  issued := 0
  increasing _ _ h := Nat.add_lt_add_left (Nat.nth_strictMono (S.recurring k) h) _

/-- Every identity of the counter is given to one run, once. -/
theorem existsUnique_turn (S : Schedule count) {i : NodeId} (hi : S.start ≤ i) :
    ∃! taken : Fin count × Nat, (S.supply taken.1).issue taken.2 = i := by
  classical
  obtain ⟨n, rfl⟩ := Nat.exists_eq_add_of_le hi
  refine ⟨(S.turn n, Nat.count (fun m => S.turn m = S.turn n) n), ?_, ?_⟩
  · exact congrArg (S.start + ·) (Nat.nth_count rfl)
  · rintro ⟨k, m⟩ same
    have here : Nat.nth (fun m => S.turn m = k) m = n := Nat.add_left_cancel same
    have turn := Nat.nth_mem_of_infinite (S.recurring k) m
    rw [here] at turn
    subst turn
    have same := Nat.nth_count (p := fun m => S.turn m = S.turn n) (n := n) rfl
    rw [Nat.nth_injective (S.recurring _) (here.trans same.symm)]

/-- The runs take turns as `first` has it, and go round after that. Every finite sequence of turns
begins a schedule in this way. -/
def beginning [NeZero count] (start : NodeId) (first : List (Fin count)) : Schedule count where
  start := start
  turn n := first.getD n (Fin.ofNat count n)
  recurring k := by
    refine Set.infinite_of_forall_exists_gt fun n => ?_
    have pos := Nat.pos_of_neZero count
    have long : n + first.length < (n + first.length + 1) * count :=
      Nat.lt_of_lt_of_le (Nat.lt_succ_self _) (Nat.le_mul_of_pos_right _ pos)
    refine ⟨(n + first.length + 1) * count + k, ?_, by omega⟩
    have beyond : first.length ≤ (n + first.length + 1) * count + k := by omega
    rw [Set.mem_ofPred_eq, List.getD_eq_default _ _ beyond]
    ext
    rw [Fin.val_ofNat, Nat.mul_add_mod_self_right, Nat.mod_eq_of_lt k.isLt]

end Schedule

variable (c : Collaborators) (b : Bindings) (o : Options)

/-- Canonicalizes batches at the same time. Each run takes the next identity of one counter when it
has its turn. -/
noncomputable def canonicalizeInterleaved (batches : List (List Expr))
    (schedule : Schedule batches.length) : List (Except Error (List Expr)) :=
  List.ofFn fun k =>
    (Canonical.trees <$> canonicalize c b o (batches.get k)).outcome (schedule.supply k)

/-- The entry is, up to identities, what the run on the batch alone comes to from any supply. -/
def IsEntry (es : List Expr) (entry : Except Error (List Expr)) : Prop :=
  ∀ s : Supply, s.Avoids es →
    Matches Expr.Renumbered entry ((Canonical.trees <$> canonicalize c b o es).outcome s)

theorem SameOutcome.symm {r r' : Except Error Canonical} (h : SameOutcome r r') :
    SameOutcome r' r :=
  Matches.symm h fun _ _ same => ⟨same.1.symm, same.2.symm⟩

theorem SameOutcome.trans {r r' r'' : Except Error Canonical} (h : SameOutcome r r')
    (h' : SameOutcome r' r'') : SameOutcome r r'' :=
  Matches.trans h h' fun _ _ _ same same' => ⟨same.1.trans same'.1, same.2.trans same'.2⟩

variable {c b o} {s s' : Supply} {es es' : List Expr}

/-! ## Two runs -/

theorem Supply.Serves.avoids (h : s.Serves es) : s.Avoids es where
  coherent := h.coherent
  fresh x hx n := Nat.ne_of_lt (Nat.lt_of_lt_of_le (h.below x hx) (next_le_next (s.le_later n)))

theorem Supply.Avoids.later (h : s.Avoids es) (n : Nat) : (s.later n).Avoids es where
  coherent := h.coherent
  fresh x hx m := by
    have := h.fresh x hx (n + m)
    rwa [Supply.later, ← Nat.add_assoc] at this

/-- Some supply begins above all identities of the batch. -/
theorem Supply.exists_serves (coherent : Expr.Coherent es) : ∃ s : Supply, s.Serves es := by
  let bound := ((Expr.nodesOf es).map Expr.id).foldr max 0
  have below : ∀ x ∈ Expr.nodesOf es, x.id < bound + 1 := fun x hx =>
    Nat.lt_succ_of_le (List.le_max_of_le (List.mem_map_of_mem hx) (Nat.le_refl _))
  exact ⟨.startingAt (bound + 1), coherent, below⟩

/-- The identities of a batch and of a renumbered one go together with those to come. -/
theorem Pairing.exists_of_renumbered (avoids : s.Avoids es) (avoids' : s'.Avoids es')
    (same : Expr.Renumbered es es') : ∃ P : Pairing, P.left = s ∧ P.right = s' ∧
      List.Forall₂ (Expr.Twins P.rel) es es' := by
  obtain ⟨r, unique, twins, inside⟩ := same.exists_twins
  refine ⟨⟨s, s', r, unique, fun i i' h n => ?_⟩, rfl, rfl, ?_⟩
  · obtain ⟨⟨x, hx, rfl⟩, y, hy, rfl⟩ := inside i i' h
    exact ⟨avoids.fresh x hx n, avoids'.fresh y hy n⟩
  · exact twins.imp fun e e' h => h.imp fun i i' hi => .inl hi

/-- From any supply a run ends as it does from one that begins above all identities. -/
theorem canonicalize_ends_alike (indifferent : c.evaluator.Indifferent b) (serves : s.Serves es)
    (avoids : s'.Avoids es') (same : Expr.Renumbered es es') (j : Journal) :
    (canonicalize c b o es').Ends s' j fun r t _ => (∃ n, t = s'.later n) ∧
      SameOutcome ((canonicalize c b o es).outcome s) r := by
  obtain ⟨P, rfl, rfl, twins⟩ := Pairing.exists_of_renumbered serves.avoids avoids same
  obtain ⟨_, _, lockstep⟩ := (Pairing.Runs.canonicalize indifferent serves twins 0 #[] j).outcome
  refine lockstep.imp fun r t _ ⟨same, n, _, later⟩ => ⟨⟨n, later⟩, ?_⟩
  exact same.imp fun out out' h => ⟨Expr.renumbered_of_twins P.biUnique_rel h.1, h.2⟩

/-- A run ends as it does from any other supply, over a renumbered batch too. -/
theorem canonicalize_ends_same (indifferent : c.evaluator.Indifferent b) (avoids : s.Avoids es)
    (avoids' : s'.Avoids es') (same : Expr.Renumbered es es') (j : Journal) :
    (canonicalize c b o es').Ends s' j fun r t _ => (∃ n, t = s'.later n) ∧
      SameOutcome ((canonicalize c b o es).outcome s) r := by
  obtain ⟨above, serves⟩ := Supply.exists_serves avoids.coherent
  obtain ⟨-, -, -, first⟩ :=
    (canonicalize_ends_alike (o := o) indifferent serves avoids (.refl es) #[]).outcome
  refine (canonicalize_ends_alike indifferent serves avoids' same j).imp
    fun r t _ ⟨later, second⟩ => ⟨later, ?_⟩
  exact first.symm.trans second

/-- Runs that differ in their collaborators too are compared from one supply that serves the batch.
What they come to from other supplies is the same. -/
theorem exists_common_supply (c c' : Collaborators) (indifferent : c.evaluator.Indifferent b)
    (indifferent' : c'.evaluator.Indifferent b) (same : Expr.Renumbered es es')
    (avoids : s.Avoids es) (avoids' : s'.Avoids es') :
    ∃ common : Supply, common.Serves es ∧
      SameOutcome ((canonicalize c b o es).outcome s) ((canonicalize c b o es).outcome common) ∧
      SameOutcome ((canonicalize c' b o es).outcome common)
        ((canonicalize c' b o es').outcome s') := by
  obtain ⟨common, serves⟩ := Supply.exists_serves avoids.coherent
  obtain ⟨-, -, -, first⟩ :=
    (canonicalize_ends_same (o := o) indifferent avoids serves.avoids (.refl es) #[]).outcome
  obtain ⟨-, -, -, last⟩ :=
    (canonicalize_ends_same (o := o) indifferent' serves.avoids avoids' same #[]).outcome
  exact ⟨common, serves, first, last⟩

/-! ## Several runs -/

theorem Schedule.avoids {count : Nat} (S : Schedule count) (k : Fin count)
    (h : (Supply.startingAt S.start).Avoids es) : (S.supply k).Avoids es where
  coherent := h.coherent
  fresh x hx n := by
    have := h.fresh x hx (Nat.nth (fun m => S.turn m = k) n)
    simpa [Supply.later, Supply.next, Supply.startingAt, Schedule.supply] using this

/-- Whatever identities a run is given, it ends as an entry of its batch. -/
theorem canonicalize_isEntry (indifferent : c.evaluator.Indifferent b) (avoids : s.Avoids es)
    (j : Journal) : (Canonical.trees <$> canonicalize c b o es).Ends s j fun r t _ =>
      (∃ n, t = s.later n) ∧ IsEntry c b o es r := by
  refine .map ((canonicalize_ends_same indifferent avoids avoids (.refl es) j).imp ?_)
  refine fun r t _ ⟨later, here⟩ => ⟨later, fun s' avoids' => ?_⟩
  obtain ⟨_, _, -, there⟩ :=
    (canonicalize_ends_same (o := o) indifferent avoids avoids' (.refl es) #[]).outcome
  rw [Run.outcome_map]
  exact (here.symm.trans there).map fun _ _ same => same.1

/-- A batch has one entry up to identities, whichever batches it comes with and in whatever order
the runs take turns. -/
theorem IsEntry.unique {entry entry' : Except Error (List Expr)} (coherent : Expr.Coherent es)
    (h : IsEntry c b o es entry) (h' : IsEntry c b o es entry') :
    Matches Expr.Renumbered entry entry' := by
  obtain ⟨s, serves⟩ := Supply.exists_serves coherent
  exact (h s serves.avoids).trans
    ((h' s serves.avoids).symm (C := Expr.Renumbered) fun _ _ same => same.symm)
    fun _ _ _ same same' => same.trans same'

theorem canonicalizeInterleaved_isEntry (indifferent : c.evaluator.Indifferent b)
    {batches : List (List Expr)} (schedule : Schedule batches.length)
    (avoids : ∀ es ∈ batches, (Supply.startingAt schedule.start).Avoids es) :
    List.Forall₂ (IsEntry c b o) batches (canonicalizeInterleaved c b o batches schedule) := by
  refine List.forall₂_iff_get.mpr ⟨List.length_ofFn.symm, fun k hk hk' => ?_⟩
  obtain ⟨_, _, -, entry⟩ := (canonicalize_isEntry (o := o) indifferent
    (schedule.avoids ⟨k, hk⟩ (avoids _ (List.get_mem _ _))) #[]).outcome
  unfold canonicalizeInterleaved
  rw [List.get_ofFn]
  exact entry

theorem canonicalizeBatches_isEntry (indifferent : c.evaluator.Indifferent b)
    {batches : List (List Expr)} (avoids : ∀ es ∈ batches, s.Avoids es) (j : Journal) :
    List.Forall₂ (IsEntry c b o) batches
      (((canonicalizeBatches c b o batches).run s).run j).1.1 := by
  induction batches generalizing s j with
  | nil => exact .nil
  | cons es rest ih =>
    obtain ⟨⟨n, later⟩, entry⟩ :=
      canonicalize_isEntry (o := o) indifferent (avoids es List.mem_cons_self) j
    have avoids' : ∀ es ∈ rest, (s.later n).Avoids es := fun es hes =>
      (avoids es (List.mem_cons_of_mem _ hes)).later n
    have last := ih avoids'
    rw [← later] at last
    rw [canonicalizeBatches, List.mapM_cons]
    exact .cons entry (last _)

/-- What a run comes to does not depend on identities: neither on those of the batch, nor on those
that it is given. So runs that take turns in any order come to what each comes to alone, and so do
runs one after the other. Each entry is settled by its own batch, whether other runs fail or not. -/
theorem canonicalize_forgets_identities (indifferent : c.evaluator.Indifferent b) :
    (∀ (es es' : List Expr) (s s' : Supply), Expr.Renumbered es es' → s.Avoids es →
      s'.Avoids es' →
      SameOutcome ((canonicalize c b o es).outcome s) ((canonicalize c b o es').outcome s')) ∧
    (∀ (batches : List (List Expr)) (schedule : Schedule batches.length),
      (∀ es ∈ batches, (Supply.startingAt schedule.start).Avoids es) →
      List.Forall₂ (IsEntry c b o) batches (canonicalizeInterleaved c b o batches schedule)) ∧
    ∀ (batches : List (List Expr)) (s : Supply) (j : Journal), (∀ es ∈ batches, s.Avoids es) →
      List.Forall₂ (IsEntry c b o) batches
        (((canonicalizeBatches c b o batches).run s).run j).1.1 := by
  refine ⟨fun es es' s s' same avoids avoids' => ?_, fun batches schedule avoids => ?_,
    fun batches s j avoids => ?_⟩
  · obtain ⟨_, _, -, same⟩ := (canonicalize_ends_same indifferent avoids avoids' same #[]).outcome
    exact same
  · exact canonicalizeInterleaved_isEntry indifferent schedule avoids
  · exact canonicalizeBatches_isEntry indifferent avoids j

/-! ## Turns -/

namespace Sample

/-- The batch with odd identities. -/
def odd : List Expr := batch.map (Expr.mapIds fun i => 2 * i + 1)

/-- All even identities. -/
def evens : Supply := ⟨(2 * ·), 0, fun _ _ h => Nat.mul_lt_mul_of_pos_left h (by decide)⟩

/-- A tree that is not well-formed. -/
def broken : List Expr := [.op 5 .add []]

/-- Two runs that take turns. -/
def turns : Schedule [batch, broken].length :=
  @Schedule.beginning 2 _ 6 [0, 1, 1, 0]

theorem renumbered_odd : Expr.Renumbered batch odd :=
  ⟨fun i => 2 * i + 1, fun _ _ _ _ same =>
    Nat.eq_of_mul_eq_mul_left Nat.two_pos (Nat.succ.inj same), rfl⟩

theorem avoids_evens : evens.Avoids odd where
  coherent := renumbered_odd.coherent serves_batch.coherent
  fresh x hx n same := by
    rw [odd, Expr.nodesOf_mapIds] at hx
    obtain ⟨y, -, rfl⟩ := List.mem_map.mp hx
    have same : (2 * y.id + 1 : Nat) = 2 * (0 + n) := (Expr.id_mapIds _ y).symm.trans same
    omega

theorem serves_broken : (Supply.startingAt 6).Serves broken where
  coherent := by simp [Expr.Coherent, broken, Expr.nodesOf_cons, Expr.nodes_eq, Expr.children]
  below := by
    simp [Expr.Below, broken, Expr.nodesOf_cons, Expr.nodes_eq, Expr.children, Expr.id,
      Supply.next, Supply.startingAt]

theorem avoids_turns : ∀ es ∈ [batch, broken], (Supply.startingAt turns.start).Avoids es := by
  have serves : (Supply.startingAt 6).Serves batch :=
    ⟨serves_batch.coherent, fun x hx => Nat.lt_succ_of_lt (serves_batch.below x hx)⟩
  exact List.forall_mem_cons.mpr ⟨serves.avoids, List.forall_mem_cons.mpr
    ⟨serves_broken.avoids, nofun⟩⟩

end Sample

theorem canonicalize_forgets_identities_sample :
    Sample.collaborators.evaluator.Indifferent Sample.bindings ∧
    (∃ out, (canonicalize Sample.collaborators Sample.bindings Sample.options
      Sample.batch).outcome (Supply.startingAt 5) = .ok out) ∧
    (∃ err, (canonicalize Sample.collaborators Sample.bindings Sample.options
      Sample.broken).outcome (Supply.startingAt 6) = .error err) ∧
    SameOutcome
      ((canonicalize Sample.collaborators Sample.bindings Sample.options Sample.batch).outcome
        (Supply.startingAt 5))
      ((canonicalize Sample.collaborators Sample.bindings Sample.options Sample.odd).outcome
        Sample.evens) ∧
    List.Forall₂ (IsEntry Sample.collaborators Sample.bindings Sample.options)
      [Sample.batch, Sample.broken] (canonicalizeInterleaved Sample.collaborators Sample.bindings
        Sample.options [Sample.batch, Sample.broken] Sample.turns) ∧
    List.Forall₂ (IsEntry Sample.collaborators Sample.bindings Sample.options)
      [Sample.batch, Sample.broken] (((canonicalizeBatches Sample.collaborators Sample.bindings
        Sample.options [Sample.batch, Sample.broken]).run (Supply.startingAt 6)).run #[]).1.1 := by
  have indifferent := Semantics.indifferent_evaluator {} Sample.bindings
  obtain ⟨two, inTurns, inOrder⟩ := canonicalize_forgets_identities
    (c := Sample.collaborators) (o := Sample.options) indifferent
  have runs : ((canonicalize Sample.collaborators Sample.bindings Sample.options
      Sample.batch).outcome (Supply.startingAt 5)).toOption.map
        (fun out => out.trees.length) = some 2 := by cbv
  obtain ⟨out, done, -⟩ := exists_ok_of_map_eq runs
  have fails : (canonicalize Sample.collaborators Sample.bindings Sample.options
      Sample.broken).outcome (Supply.startingAt 6) =
        .error (.malformed (.operandCount 5 .add 0)) := by cbv
  exact ⟨indifferent, ⟨out, done⟩, ⟨_, fails⟩,
    two _ _ _ _ Sample.renumbered_odd Sample.serves_batch.avoids Sample.avoids_evens,
    inTurns _ Sample.turns Sample.avoids_turns, inOrder _ _ _ Sample.avoids_turns⟩

end Lifted
