import Lifted.Proofs.Canonical.Outcome
import Lifted.Proofs.Evaluation.Indifference
import Lifted.Proofs.Walk.Lockstep

/-!
# Runs over twins

Two runs over twins, from two supplies, go through the same steps. Identities are keys of the tables
of every pass, where only equality counts, and they break ties between occurrences, where only the
order of the identities made in one run counts. Neither shows in what is put out.

* `Pairing.Runs.validate`, `Pairing.Runs.tag`, `Pairing.Runs.rank`, `Pairing.Runs.assignNames`,
  `Pairing.Runs.rename`: each pass, in lockstep.
* `Pairing.SameTagged`, `Pairing.SameFinding`, `Pairing.SameSighting`, `Pairing.SameRanking`: how
  what the passes of two runs leave behind goes together.
* `Pairing.le_eq`: ties are broken alike.
* `Pairing.Runs.canonicalize`: whole runs.
-/

namespace Lifted

variable {P : Pairing} {es es' : List Expr} {κ : Type}

/-! ## Validation -/

theorem Expr.Twins.fault {r : NodeId → NodeId → Prop} {e e' : Expr} (h : e.Twins r e') :
    Option.Rel (fun c c' => c.mapIds (fun _ => 0) = c'.mapIds fun _ => 0) e.fault e'.fault := by
  cases h with
  | const value bytes h =>
    simp only [Expr.fault, Expr.text]
    split
    · exact .some rfl
    · exact .none
  | var name bytes label h =>
    simp only [Expr.fault, Expr.text]
    split
    · exact .some rfl
    · exact .none
  | mem => exact .none
  | op kind h hOperands =>
    simp only [Expr.fault, hOperands.length_eq]
    split
    · exact .none
    · exact .some rfl

namespace Pairing

/-- The search looks at twins in one order, and at both for the first time or at neither. -/
theorem matches_validateAll {seen seen' : Std.HashSet NodeId} {pending pending' : List Expr}
    (known : ∀ i i', P.rel i i' → seen.contains i = seen'.contains i')
    (h : List.Forall₂ (Expr.Twins P.rel) pending pending') :
    Matches Eq (Expr.validateAll seen pending) (Expr.validateAll seen' pending') := by
  induction seen, pending using Expr.validateAll.induct generalizing seen' pending' with
  | case1 seen =>
    cases h
    rw [Expr.validateAll, Expr.validateAll]
    exact .ok rfl
  | case2 seen e rest there ih =>
    obtain ⟨e', rest', he, hrest, rfl⟩ := List.forall₂_cons_left_iff.mp h
    rw [Expr.validateAll, Expr.validateAll, if_pos there, if_pos (known _ _ he.id ▸ there)]
    exact ih known hrest
  | case3 seen e rest there cause broken =>
    obtain ⟨e', rest', he, hrest, rfl⟩ := List.forall₂_cons_left_iff.mp h
    obtain ⟨cause', broken', same⟩ := exists_of_rel_some (broken ▸ he.fault)
    rw [Expr.validateAll, Expr.validateAll, if_neg there, if_neg (known _ _ he.id ▸ there), broken,
      broken']
    exact .error (congrArg Error.malformed same)
  | case4 seen e rest there rule ih =>
    obtain ⟨e', rest', he, hrest, rfl⟩ := List.forall₂_cons_left_iff.mp h
    have rule' := eq_none_of_rel (rule ▸ he.fault)
    rw [Expr.validateAll, Expr.validateAll, if_neg there, if_neg (known _ _ he.id ▸ there), rule,
      rule']
    refine ih (fun i i' hi => ?_) (List.rel_append (List.rel_reverse he.children) hrest)
    have same : (e.id == i) = (e'.id == i') := by
      rw [Bool.eq_iff_iff, beq_iff_eq, beq_iff_eq, rel_eq_iff he.id hi]
    rw [Std.HashSet.contains_insert, Std.HashSet.contains_insert, same, known i i' hi]

theorem Runs.validate (h : List.Forall₂ (Expr.Twins P.rel) es es') :
    P.Runs Eq (es.forM fun tree => liftM tree.validate) (es'.forM fun tree => liftM tree.validate) :=
  Runs.forM h fun _ _ he => .lift (matches_validateAll (fun _ _ _ => by simp) (.cons he .nil))

/-! ## Tagging -/

/-- The placeholder was made in this run, and stands for the same. -/
def SameKey (P : Pairing) (i i' : NodeId) (a a' : Referent κ) : Prop := P.Made i i' ∧ a.key = a'.key

/-- The placeholders made so far go together. -/
structure SameTagging (P : Pairing) (t t' : Tagging) : Prop where
  replaced : P.Tables (fun _ _ => Expr.Twins P.rel) t.replaced t'.replaced
  registers : P.Tables P.SameKey t.registers t'.registers
  addresses : P.Tables P.SameKey t.addresses t'.addresses

/-- The tagged batches are twins, and their placeholders go together. -/
structure SameTagged (P : Pairing) (t t' : Tagged) : Prop where
  trees : List.Forall₂ (Expr.Twins P.rel) t.trees t'.trees
  registers : P.Tables P.SameKey t.registers t'.registers
  addresses : P.Tables P.SameKey t.addresses t'.addresses

section

variable (R : Registers) (I : ImageQueries) (o : Options)

theorem matches_roleOf {e e' : Expr} (h : e.Twins P.rel e') :
    Matches Eq (roleOf R I o e) (roleOf R I o e') := by
  cases h <;> exact .rfl

theorem replacementFor (e e' : Expr) (role : Role) :
    P.RunsOn P.SameTagging (Option.Rel (Expr.Twins P.rel)) (replacementFor I o e role)
      (replacementFor I o e' role) := by
  cases role with
  | kept => exact .pure .none
  | thunk name => exact (RunsOn.newVariable name I.pointerWidth).map fun _ _ h => .some h.1
  | register name =>
    refine (RunsOn.newVariable _ _).bind fun x x' h => ?_
    refine (RunsOn.modify fun t t' ht => ?_).bind fun _ _ _ => .pure (.some h.1)
    exact ⟨ht.replaced, ht.registers.insert h.2.rel ⟨h.2, rfl⟩, ht.addresses⟩
  | address a =>
    refine (RunsOn.newVariable _ _).bind fun x x' h => ?_
    refine (RunsOn.modify fun t t' ht => ?_).bind fun _ _ _ => .pure (.some h.1)
    exact ⟨ht.replaced, ht.registers, ht.addresses.insert h.2.rel ⟨h.2, rfl⟩⟩

theorem visits_tagNode : P.Visits P.SameTagging (tagNode R I o) (tagNode R I o) := by
  intro above above' e e' _ h
  refine RunsOn.get.bind fun t t' ht => ?_
  have met := ht.replaced.entries _ _ h.id
  generalize t.replaced[e.id]? = before? at met
  generalize t'.replaced[e'.id]? = before?' at met
  cases met with
  | some same => exact .pure (.some same)
  | none =>
    refine (RunsOn.liftExcept (matches_roleOf R I o h)).bind fun role _ same => ?_
    obtain rfl := same
    refine (replacementFor I o e e' role).bind fun new? new?' same => ?_
    cases same with
    | none => exact .pure .none
    | some same =>
      refine (RunsOn.modify fun t t' ht => ?_).bind fun _ _ _ => .pure (.some same)
      exact ⟨ht.replaced.insert h.id same, ht.registers, ht.addresses⟩

theorem Runs.tag (h : List.Forall₂ (Expr.Twins P.rel) es es') :
    P.Runs P.SameTagged (tag R I o es) (tag R I o es') := by
  refine ((visits_tagNode R I o).mapM_walk h Tagging.empty Tagging.empty
    ⟨.empty, .empty, .empty⟩).bind fun out out' same => ?_
  exact (Runs.note _ _).bind fun _ _ _ => .pure ⟨same.1, same.2.registers, same.2.addresses⟩

end

/-! ## Ranking -/

variable {t t' : Tagged} {M M' : Referents κ} {x x' : Expr} {o o' : Occurrence}
  {seen seen' : List Occurrence} {found found' : List (Population × Occurrence)}

/-- The placeholders show the same values and stand for the same. -/
def SameSighting (P : Pairing) (M M' : Referents κ) (o o' : Occurrence) : Prop :=
  o.values = o'.values ∧ ∃ a a', M[o.placeholder]? = some a ∧ M'[o'.placeholder]? = some a' ∧
    P.SameKey o.placeholder o'.placeholder a a'

/-- What was found at a placeholder of the one batch was found at that of the other. -/
structure SameFinding (P : Pairing) (t t' : Tagged) (a a' : Population × Occurrence) : Prop where
  population : a.1 = a'.1
  values : a.2.values = a'.2.values
  rel : P.rel a.2.placeholder a'.2.placeholder
  register : a.1 = .register → t.registers.contains a.2.placeholder = true
  address : a.1 = .address → t.addresses.contains a.2.placeholder = true

/-- The occurrences of both batches come in one order, and count as many collisions. -/
structure SameRanking (P : Pairing) (t t' : Tagged) (r r' : Ranking) : Prop where
  registers : List.Forall₂ (P.SameSighting t.registers t'.registers) r.registers r'.registers
  addresses : List.Forall₂ (P.SameSighting t.addresses t'.addresses) r.addresses r'.addresses
  collisions : r.collisions = r'.collisions

theorem SameTagged.populationOf (T : P.SameTagged t t') (h : x.Twins P.rel x') :
    t.populationOf x = t'.populationOf x' := by
  unfold Tagged.populationOf
  rw [T.registers.contains h.id, T.addresses.contains h.id]

theorem SameTagged.placements (T : P.SameTagged t t') :
    List.Forall₂ (fun a a' => a.1 = a'.1 ∧ a.2.Twins P.rel a'.2 ∧ t.populationOf a.2.node = some a.1)
      t.placements t'.placements := by
  refine forall₂_filterMap (Expr.Twins.positions T.trees) fun p p' hp => ?_
  rw [← T.populationOf hp.2]
  cases here : t.populationOf p.node with
  | none => exact .none
  | some population => exact .some ⟨rfl, hp, here⟩

theorem registers_of_populationOf (h : t.populationOf x = some .register) :
    t.registers.contains x.id = true := by
  unfold Tagged.populationOf at h
  split at h
  · assumption
  · split at h <;> cases h

theorem addresses_of_populationOf (h : t.populationOf x = some .address) :
    t.addresses.contains x.id = true := by
  unfold Tagged.populationOf at h
  split at h
  · cases h
  · split at h
    · assumption
    · cases h

/-- The values of both batches match, and so does what is found of them. -/
theorem matches_occurrencesBy {v : Evaluator} {b : Bindings} (indifferent : v.Indifferent b)
    (T : P.SameTagged t t') (coherent : Expr.Coherent t.trees) :
    Matches (List.Forall₂ (P.SameFinding t t')) (occurrencesBy (v.value b) t)
      (occurrencesBy (v.value b) t') := by
  have value : ∀ x x', x ∈ Expr.nodesOf t.trees → x.Twins P.rel x' →
      Matches Eq (v.value b x) (v.value b x') := by
    intro x x' hx h
    refine Expr.matches_valueBy indifferent P.biUnique_rel (fun y hy z hz => ?_) h
    rw [Expr.nodesOf_singleton] at hy hz
    exact coherent y (Expr.mem_nodesOf_of_mem_nodes hx hy) z (Expr.mem_nodesOf_of_mem_nodes hx hz)
  have roots : ∀ e ∈ t.trees, e ∈ Expr.nodesOf t.trees := fun e he =>
    Expr.mem_nodesOf.mpr ⟨e, he, e.self_mem_nodes⟩
  unfold occurrencesBy
  refine (Matches.forM (forall₂_mem T.trees) fun e e' he => ?_).bind fun _ _ _ => ?_
  · exact (value e e' (roots e he.1) he.2.2).bind fun _ _ _ => .ok rfl
  · refine Matches.mapM (forall₂_mem T.placements) ?_
    rintro ⟨population, p⟩ ⟨population', p'⟩ ⟨ha, -, rfl, twins, here⟩
    have path : Matches (List.Forall₂ Eq) (p.path.mapM (v.value b)) (p'.path.mapM (v.value b)) :=
      .mapM (forall₂_mem twins.path) fun x x' hx =>
        value x x' (Expr.mem_nodesOf_of_mem_path (mem_placements ha) hx.1) hx.2.2
    refine path.bind fun vs vs' same => .ok ⟨rfl, ?_, twins.2.id, ?_, ?_⟩
    · exact List.forall₂_eq_eq_eq ▸ same
    · rintro rfl
      exact registers_of_populationOf here
    · rintro rfl
      exact addresses_of_populationOf here

/-- The entries under a placeholder of the one batch and that of the other. -/
theorem Tables.sameSighting (T : P.Tables P.SameKey M M') (values : o.values = o'.values)
    (h : P.rel o.placeholder o'.placeholder) (there : M.contains o.placeholder = true) :
    P.SameSighting M M' o o' := by
  have entry := T.entries _ _ h
  rw [Std.HashMap.contains_eq_isSome_getElem?] at there
  refine ⟨values, ?_⟩
  generalize M[o.placeholder]? = a? at entry there ⊢
  generalize M'[o'.placeholder]? = a?' at entry ⊢
  cases entry with
  | none => cases there
  | some same => exact ⟨_, _, rfl, rfl, same⟩

/-- New identities come in one order, so ties are broken alike. -/
theorem le_eq {o₁ o₁' : Occurrence} (h : P.SameSighting M M' o o')
    (h₁ : P.SameSighting M M' o₁ o₁') : o.le o₁ = o'.le o₁' := by
  obtain ⟨values, a, a', -, -, made, -⟩ := h
  obtain ⟨values₁, a₁, a₁', -, -, made₁, -⟩ := h₁
  unfold Occurrence.le
  rw [values, values₁, decide_eq_decide.mpr (made.le_iff made₁)]

theorem forall₂_ranked (T : P.Tables P.SameKey M M') {population : Population}
    (h : List.Forall₂ (P.SameFinding t t') found found')
    (there : ∀ a a', P.SameFinding t t' a a' → a.1 = population →
      M.contains a.2.placeholder = true) :
    List.Forall₂ (P.SameSighting M M') (ranked population found) (ranked population found') := by
  refine forall₂_mergeSort (forall₂_filterMap h fun a a' ha => ?_) fun _ _ _ _ => le_eq
  rw [← ha.population]
  by_cases same : a.1 = population
  · rw [if_pos same, if_pos same]
    exact .some (T.sameSighting ha.values ha.rel (there a a' ha same))
  · rw [if_neg same, if_neg same]
    exact .none

/-- The same values and keys at each place make as many collisions. -/
theorem excess_eq_excess [DecidableEq κ] (population : Population) (text : κ → String)
    (h : List.Forall₂ (P.SameSighting M M') seen seen')
    (sorted : seen.Pairwise fun a b => ¬b.values < a.values)
    (sorted' : seen'.Pairwise fun a b => ¬b.values < a.values) :
    (tiesOf population text M seen).foldr (fun tie count => tie.leaves.length - 1 + count) 0 =
      (tiesOf population text M' seen').foldr (fun tie count => tie.leaves.length - 1 + count) 0 := by
  have known : ∀ o ∈ seen, ∃ r, M[o.placeholder]? = some r := by
    intro o ho
    obtain ⟨o', -, -, a, a', ha, -⟩ := exists_mem_of_forall₂ h ho
    exact ⟨a, ha⟩
  have known' : ∀ o ∈ seen', ∃ r, M'[o.placeholder]? = some r := by
    intro o' ho
    obtain ⟨o, -, -, a, a', -, ha, -⟩ := exists_mem_of_forall₂ h.flip ho
    exact ⟨a', ha⟩
  have excess := excess_tiesOf population text M sorted known
  have excess' := excess_tiesOf population text M' sorted' known'
  have values : seen.map Occurrence.values = seen'.map Occurrence.values :=
    map_eq_map_iff.mpr (h.imp fun o o' ho => ho.1)
  have pairs : seen.map (fun o => (o.values, (M[o.placeholder]?).map Referent.key)) =
      seen'.map fun o => (o.values, (M'[o.placeholder]?).map Referent.key) := by
    refine map_eq_map_iff.mpr (h.imp fun o o' ho => ?_)
    obtain ⟨values, a, a', ha, ha', -, key⟩ := ho
    rw [values, ha, ha', Option.map_some, Option.map_some, key]
  rw [values, pairs, ← excess'] at excess
  omega

theorem sameRanking (T : P.SameTagged t t') (h : List.Forall₂ (P.SameFinding t t') found found') :
    P.SameRanking t t' (Ranking.ofOccurrences t found) (Ranking.ofOccurrences t' found') := by
  have registers := forall₂_ranked T.registers h fun _ _ ha => ha.register
  have addresses := forall₂_ranked T.addresses h fun _ _ ha => ha.address
  refine ⟨registers, addresses, ?_⟩
  unfold Ranking.collisions Ranking.ofOccurrences
  refine (foldr_add_append (fun tie : Tie => tie.leaves.length - 1) _ _).trans
    (Eq.trans ?_ (foldr_add_append (fun tie : Tie => tie.leaves.length - 1) _ _).symm)
  exact congrArg₂ (· + ·)
    (excess_eq_excess .register _ registers (sorted_mergeSort_le _) (sorted_mergeSort_le _))
    (excess_eq_excess .address _ addresses (sorted_mergeSort_le _) (sorted_mergeSort_le _))

theorem Runs.rank {v : Evaluator} {b : Bindings} (indifferent : v.Indifferent b)
    (T : P.SameTagged t t') (coherent : Expr.Coherent t.trees) :
    P.Runs (P.SameRanking t t') (rank v b t) (rank v b t') := by
  have coherent' : Expr.Coherent t'.trees :=
    (Expr.renumbered_of_twins P.biUnique_rel T.trees).coherent coherent
  intro n j j'
  refine (rank_ends fun e he => Heap.holds_of coherent he).imp fun r s _ done => ?_
  refine (rank_ends fun e he => Heap.holds_of coherent' he).imp fun r' s' _ done' => ?_
  obtain ⟨rfl, rfl⟩ := done
  obtain ⟨rfl, rfl⟩ := done'
  exact ⟨(matches_occurrencesBy indifferent T coherent).map fun _ _ => sameRanking T, n, rfl, rfl⟩

/-! ## Names -/

theorem matches_keysOf (h : List.Forall₂ (P.SameSighting M M') seen seen') :
    Matches Eq (keysOf M seen) (keysOf M' seen') := by
  have each : Matches (List.Forall₂ Eq) (keysOf M seen) (keysOf M' seen') := by
    refine Matches.mapM h fun o o' ho => ?_
    obtain ⟨-, a, a', ha, ha', -, key⟩ := ho
    rw [ha, ha']
    exact .ok key
  exact each.imp fun keys keys' same => List.forall₂_eq_eq_eq ▸ same

theorem Runs.assignNames {r r' : Ranking} (h : P.SameRanking t t' r r') :
    P.Runs Eq (assignNames t r) (assignNames t' r') := by
  have names : Matches Eq (Names.ofRanking t r) (Names.ofRanking t' r') := by
    refine (matches_keysOf h.registers).bind fun registers _ same => ?_
    refine (matches_keysOf h.addresses).bind fun addresses _ same' => ?_
    rw [same, same']
    exact .ok rfl
  refine (Runs.lift names).bind fun names _ same => ?_
  exact (Runs.note _ _).bind fun _ _ _ => .pure same

/-! ## Renaming -/

theorem matches_nameOf [BEq κ] (i i' : NodeId) {key key' : κ} (same : key = key')
    (names : List (κ × String)) : Matches Eq (nameOf i key names) (nameOf i' key' names) := by
  subst same
  unfold nameOf
  cases names.lookup key with
  | some name => exact .ok rfl
  | none => exact .error rfl

theorem Runs.newVariable (name : String) (bytes : UInt8) :
    P.Runs (Expr.Twins P.rel) (Expr.newVariable name bytes) (Expr.newVariable name bytes) :=
  Runs.fresh.bind fun _ _ made => .pure (.var name bytes none made.rel)

theorem Runs.withLabel (h : x.Twins P.rel x') (label : String) :
    P.Runs (Expr.Twins P.rel) (x.withLabel label) (x'.withLabel label) := by
  cases h with
  | var name bytes _ _ => exact Runs.fresh.bind fun _ _ made => .pure (.var name bytes _ made.rel)
  | const value bytes h => exact .pure (.const value bytes h)
  | mem h hAddress hSize => exact .pure (.mem h hAddress hSize)
  | op kind h hOperands => exact .pure (.op kind h hOperands)

section

variable (I : ImageQueries) (width : UInt8) (names : Names)

theorem Runs.canonicalVariable (T : P.SameTagged t t') (h : x.Twins P.rel x') :
    P.Runs (Option.Rel (Expr.Twins P.rel)) (canonicalVariable I width t names x)
      (canonicalVariable I width t' names x') := by
  have register := T.registers.entries _ _ h.id
  have address := T.addresses.entries _ _ h.id
  unfold Lifted.canonicalVariable
  generalize t.registers[x.id]? = register? at register
  generalize t'.registers[x'.id]? = register?' at register
  generalize t.addresses[x.id]? = address? at address
  generalize t'.addresses[x'.id]? = address?' at address
  cases register with
  | some same =>
    refine (Runs.lift (matches_nameOf _ _ same.2 _)).bind fun name _ named => ?_
    obtain rfl := named
    exact (Runs.newVariable name width).map fun _ _ => .some
  | none =>
    cases address with
    | none => exact .pure .none
    | @some a a' same =>
      have literal : Matches Eq (I.stringLiteral a.key) (I.stringLiteral a'.key) := by
        rw [same.2]
        exact .rfl
      refine (Runs.lift (matches_nameOf _ _ same.2 _)).bind fun name _ named => ?_
      obtain rfl := named
      refine (Runs.newVariable name width).bind fun new new' twins => ?_
      refine (Runs.lift literal).bind fun label? _ same => ?_
      obtain rfl := same
      cases label? with
      | none => exact .pure (.some twins)
      | some label => exact (Runs.withLabel twins label).map fun _ _ => .some

theorem visits_renameNode (T : P.SameTagged t t') :
    P.Visits (P.Tables fun _ _ => Expr.Twins P.rel) (renameNode I width t names)
      (renameNode I width t' names) := by
  intro above above' e e' _ h
  refine RunsOn.get.bind fun st st' hs => ?_
  have met := hs.entries _ _ h.id
  generalize st[e.id]? = before? at met
  generalize st'[e'.id]? = before?' at met
  cases met with
  | some same => exact .pure (.some same)
  | none =>
    refine (RunsOn.lift (Runs.canonicalVariable I width names T h)).bind fun new? new?' same => ?_
    cases same with
    | none => exact .pure .none
    | some same =>
      exact (RunsOn.modify fun _ _ hs => hs.insert h.id same).bind fun _ _ _ => .pure (.some same)

theorem Runs.rename (T : P.SameTagged t t') :
    P.Runs (List.Forall₂ (Expr.Twins P.rel)) (rename I width t names) (rename I width t' names) :=
  ((visits_renameNode I width names T).mapM_walk T.trees ∅ ∅ .empty).map fun _ _ same => same.1

end

/-! ## Whole runs -/

/-- The canonical forms are twins, and the reports are equal. -/
def SameCanonical (P : Pairing) (out out' : Canonical) : Prop :=
  List.Forall₂ (Expr.Twins P.rel) out.trees out'.trees ∧ out.report = out'.report

variable {c : Collaborators} {b : Bindings} {o : Options}

theorem coherent_tag {s : Supply} (serves : s.Serves es) (n : Nat) (j : Journal) :
    (tag c.registers c.image o es).Ends (s.later n) j fun r _ _ =>
      ∀ t, r = .ok t → Expr.Coherent t.trees :=
  tag_coherent serves.coherent fun x hx =>
    Nat.lt_of_lt_of_le (serves.below x hx) (Supply.next_le_next (s.le_later n))

/-- The runs over twins go through the same steps. -/
theorem Runs.canonicalize (indifferent : c.evaluator.Indifferent b) (serves : P.left.Serves es)
    (h : List.Forall₂ (Expr.Twins P.rel) es es') :
    P.Runs P.SameCanonical (canonicalize c b o es) (canonicalize c b o es') := by
  unfold Lifted.canonicalize
  refine (Runs.lift .rfl).bind fun _ _ _ => ?_
  refine (Runs.validate h).bind fun _ _ _ => ?_
  refine ((Runs.tag c.registers c.image o h).and (coherent_tag serves)).bind
    fun t t' ⟨T, coherent⟩ => ?_
  refine (Runs.rank indifferent T coherent).bind fun ranking ranking' K => ?_
  refine (Runs.assignNames K).bind fun names _ same => ?_
  obtain rfl := same
  refine (Runs.rename c.image o.placeholderWidth names T).bind fun trees trees' twins => ?_
  refine (Runs.note _ _).bind fun _ _ _ => .pure ⟨twins, ?_⟩
  unfold Report.of
  rw [T.registers.size, T.addresses.size, K.collisions]

end Pairing
end Lifted
