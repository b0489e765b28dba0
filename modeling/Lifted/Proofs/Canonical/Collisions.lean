import Lifted.Proofs.Canonical.Stages
import Lifted.Proofs.Canonical.Standing

/-!
# Collisions

Occurrences in order fall into groups with one fingerprint each. Whichever of the originals in a
group come first or more than once, the group is worth one collision for each original but one, and
one warning if there are two.

* `ascending_splitBy`: the groups are in the order of their fingerprints.
* `keysIn`: the originals that occur with a fingerprint.
* `Warned`: a list has one tie for each fingerprint of two originals or more, in ascending order;
  `warned_tiesOf`: such are the ties of a ranking.
* `Counted`: a number is what the originals of all fingerprints are in excess; `Warned.counted`: it
  can be told from the ties.
* `keysAt`: the originals that stand at a fingerprint in a batch; `TaggedFrom.keysIn_eq_keysAt`.
* `warnings`: the warnings in a journal; `canonicalize_warns`: those of a run.
* `canonicalize_counts`: what a run counts and warns of.
-/

namespace Lifted

variable {κ : Type}

/-! ## Groups -/

section

variable {xs : List Occurrence}

/-- Groups of a list in order are in order. -/
theorem ascending_splitBy (sorted : xs.Pairwise fun a b => ¬b.values < a.values) :
    (xs.splitBy Occurrence.tied).Pairwise fun g g' =>
      ∀ a ∈ g, ∀ b ∈ g', a.values < b.values := by
  have apart := apart_splitBy (v := Occurrence.values) sorted
  rw [← List.flatten_splitBy Occurrence.tied xs, List.pairwise_flatten] at sorted
  refine (apart.and sorted.2).imp fun {g g'} ⟨differ, notAfter⟩ a ha b hb => ?_
  by_contra notBefore
  exact differ a ha b hb (List.le_antisymm (notAfter a ha b hb) notBefore)

/-- One fingerprint is in one group. -/
theorem eq_of_mem_splitBy (sorted : xs.Pairwise fun a b => ¬b.values < a.values)
    {g g' : List Occurrence} (hg : g ∈ xs.splitBy Occurrence.tied)
    (hg' : g' ∈ xs.splitBy Occurrence.tied) {a b : Occurrence} (ha : a ∈ g) (hb : b ∈ g')
    (same : a.values = b.values) : g = g' := by
  let differ (g g' : List Occurrence) : Prop := ∀ a ∈ g, ∀ b ∈ g', a.values ≠ b.values
  have : Std.Symm differ := ⟨fun _ _ h a ha b hb same => h b hb a ha same.symm⟩
  by_contra other
  have apart : (xs.splitBy Occurrence.tied).Pairwise differ :=
    apart_splitBy (v := Occurrence.values) sorted
  exact apart.forall hg hg' other a ha b hb same

theorem exists_mem_splitBy {a : Occurrence} (ha : a ∈ xs) :
    ∃ g ∈ xs.splitBy Occurrence.tied, a ∈ g := by
  rw [← List.flatten_splitBy Occurrence.tied xs] at ha
  exact List.mem_flatten.mp ha

theorem mem_of_mem_splitBy {g : List Occurrence} (hg : g ∈ xs.splitBy Occurrence.tied)
    {a : Occurrence} (ha : a ∈ g) : a ∈ xs := by
  rw [← List.flatten_splitBy Occurrence.tied xs]
  exact List.mem_flatten.mpr ⟨g, hg, ha⟩

end

/-! ## Originals -/

section

variable [BEq κ] [LawfulBEq κ]

omit [BEq κ] [LawfulBEq κ] in
theorem mem_of_mem_eraseDupsBy {α : Type} {same : α → α → Bool} {xs : List α} {x : α}
    (hx : x ∈ xs.eraseDupsBy same) : x ∈ xs := by
  induction xs using filter_induction with
  | nil => exact hx
  | cons y ys ih =>
    rw [List.eraseDupsBy_cons, List.mem_cons] at hx
    rcases hx with rfl | hx
    · exact List.mem_cons_self
    · exact List.mem_cons_of_mem _ (List.mem_of_mem_filter (ih _ hx))

omit [LawfulBEq κ] in
theorem mem_of_mem_distinctReferents {text : κ → String} {rs : List (Referent κ)} {r : Referent κ}
    (hr : r ∈ distinctReferents text rs) : r ∈ rs :=
  mem_of_mem_eraseDupsBy ((List.mergeSort_perm _ _).mem_iff.mp hr)

omit [LawfulBEq κ] in
/-- The keys of distinct referents are the distinct keys, in some order. -/
theorem map_key_distinctReferents (text : κ → String) (rs : List (Referent κ)) :
    ((distinctReferents text rs).map Referent.key).Perm (rs.map Referent.key).eraseDups := by
  rw [← map_eraseDupsBy]
  exact (List.mergeSort_perm _ _).map _

theorem nodup_distinctReferents (text : κ → String) (rs : List (Referent κ)) :
    ((distinctReferents text rs).map Referent.key).Nodup :=
  (map_key_distinctReferents text rs).nodup_iff.mpr (nodup_eraseDups _)

theorem mem_map_distinctReferents {text : κ → String} {rs : List (Referent κ)} {k : κ} :
    k ∈ (distinctReferents text rs).map Referent.key ↔ k ∈ rs.map Referent.key := by
  rw [(map_key_distinctReferents text rs).mem_iff, List.mem_eraseDups]

end

/-- What the members of a group stand for, each original once. -/
def originals [BEq κ] (text : κ → String) (referents : Referents κ) (group : List Occurrence) :
    List (Referent κ) :=
  distinctReferents text (group.filterMap (referents[·.placeholder]?))

/-- The originals that occur in `xs` with the fingerprint `f`. -/
def keysIn (referents : Referents κ) (xs : List Occurrence) (f : List UInt64) : Set κ :=
  {k | ∃ o ∈ xs, o.values = f ∧ ∃ r, referents[o.placeholder]? = some r ∧ r.key = k}

theorem finite_keysIn (referents : Referents κ) (xs : List Occurrence) (f : List UInt64) :
    (keysIn referents xs f).Finite := by
  refine (xs.filterMap fun o => (referents[o.placeholder]?).map Referent.key).finite_toSet.subset ?_
  rintro k ⟨o, ho, -, r, hr, rfl⟩
  exact List.mem_filterMap.mpr ⟨o, ho, by rw [hr]; rfl⟩

/-! ## Ties -/

/-- `ties` has one tie for each fingerprint at which two originals or more occur, those of smaller
fingerprints first, and each has one leaf for every original. -/
structure Warned (population : Population) (key : Expr → Option κ)
    (keysAt : List UInt64 → Set κ) (ties : List Tie) : Prop where
  population : ∀ tie ∈ ties, tie.fingerprint.population = population
  ascending : ties.Pairwise fun a b => a.fingerprint.values < b.fingerprint.values
  shared : ∀ f, (∃ tie ∈ ties, tie.fingerprint.values = f) ↔ 1 < (keysAt f).ncard
  leaves : ∀ tie ∈ ties, ∃ keys : List κ, keys.Nodup ∧ tie.leaves.map key = keys.map some ∧
    ∀ k, k ∈ keys ↔ k ∈ keysAt tie.fingerprint.values

/-- `count` is the number of originals that are in excess at all fingerprints together. -/
structure Counted (keysAt : List UInt64 → Set κ) (count : ℕ) : Prop where
  finite : ∀ f, (keysAt f).Finite
  sum : ∃ fingerprints : Finset (List UInt64), (∀ f, f ∈ fingerprints ↔ (keysAt f).Nonempty) ∧
    count = ∑ f ∈ fingerprints, ((keysAt f).ncard - 1)

section

variable {keysAt : List UInt64 → Set κ} {population : Population} {key : Expr → Option κ}
  {ties : List Tie} {count : ℕ}

/-- A tie has as many leaves as there are originals. -/
theorem Warned.length_leaves (W : Warned population key keysAt ties) {tie : Tie} (h : tie ∈ ties) :
    tie.leaves.length = (keysAt tie.fingerprint.values).ncard := by
  obtain ⟨keys, distinct, same, mem⟩ := W.leaves tie h
  have all : keysAt tie.fingerprint.values = {k | k ∈ keys} := by
    ext k
    exact (mem k).symm
  have len := congrArg List.length same
  rw [List.length_map, List.length_map] at len
  rw [all, ncard_of_nodup distinct, len]

/-- The count can be told from the ties, as a fingerprint with one original has nothing in
excess. -/
theorem Warned.counted (W : Warned population key keysAt ties) (finite : ∀ f, (keysAt f).Finite)
    {fingerprints : Finset (List UInt64)} (mem : ∀ f, f ∈ fingerprints ↔ (keysAt f).Nonempty) :
    Counted keysAt (ties.foldr (fun tie count => tie.leaves.length - 1 + count) 0) where
  finite := finite
  sum := by
    refine ⟨fingerprints, mem, ?_⟩
    let tied := ties.map fun tie => tie.fingerprint.values
    have distinct : tied.Nodup := by
      refine List.pairwise_map.mpr (W.ascending.imp fun {a b} lt same => ?_)
      rw [same] at lt
      exact List.lt_irrefl _ lt
    have mem_tied : ∀ f, f ∈ tied.toFinset ↔ 1 < (keysAt f).ncard := fun f => by
      rw [List.mem_toFinset, List.mem_map]
      exact W.shared f
    calc ties.foldr (fun tie count => tie.leaves.length - 1 + count) 0
        = (ties.map fun tie => tie.leaves.length - 1).sum := by
          rw [List.sum_eq_foldr, List.foldr_map]
      _ = (tied.map fun f => (keysAt f).ncard - 1).sum := by
          rw [List.map_map]
          refine congrArg List.sum (List.map_congr_left fun tie h => ?_)
          rw [W.length_leaves h]
          rfl
      _ = ∑ f ∈ tied.toFinset, ((keysAt f).ncard - 1) := (List.sum_toFinset _ distinct).symm
      _ = ∑ f ∈ fingerprints, ((keysAt f).ncard - 1) := by
          refine Finset.sum_subset (fun f hf => ?_) fun f _ hf => ?_
          · rw [mem, ← Set.ncard_pos (finite f)]
            exact Nat.lt_of_succ_lt ((mem_tied f).mp hf)
          · rw [mem_tied] at hf
            omega

/-- Nothing is counted if and only if no fingerprint has two originals. -/
theorem Counted.eq_zero_iff (C : Counted keysAt count) :
    count = 0 ↔ ∀ f, (keysAt f).Subsingleton := by
  obtain ⟨fingerprints, mem, rfl⟩ := C.sum
  rw [Finset.sum_eq_zero_iff]
  have each : ∀ f, (keysAt f).ncard - 1 = 0 ↔ (keysAt f).Subsingleton := fun f => by
    have := (C.finite f).to_subtype
    rw [← Set.ncard_le_one_iff_subsingleton]
    omega
  constructor
  · intro none f
    by_cases hf : f ∈ fingerprints
    · exact (each f).mp (none f hf)
    · rw [mem, Set.not_nonempty_iff_eq_empty] at hf
      rw [hf]
      exact Set.subsingleton_empty
  · exact fun single f _ => (each f).mpr (single f)

end

section

variable [BEq κ] [LawfulBEq κ] {population : Population} {key : Expr → Option κ}
  {text : κ → String} {referents : Referents κ} {xs g : List Occurrence} {tie : Tie}

/-- A group has the originals of its fingerprint. -/
theorem mem_originals_iff (sorted : xs.Pairwise fun a b => ¬b.values < a.values)
    (hg : g ∈ xs.splitBy Occurrence.tied) {o : Occurrence} (ho : o ∈ g) {k : κ} :
    k ∈ (originals text referents g).map Referent.key ↔ k ∈ keysIn referents xs o.values := by
  rw [originals, mem_map_distinctReferents, List.mem_map]
  constructor
  · rintro ⟨r, hr, rfl⟩
    obtain ⟨o', ho', hr⟩ := List.mem_filterMap.mp hr
    exact ⟨o', mem_of_mem_splitBy hg ho', const_splitBy (v := Occurrence.values) hg o' ho' o ho,
      r, hr, rfl⟩
  · rintro ⟨o', ho', same, r, hr, rfl⟩
    obtain ⟨g', hg', here⟩ := exists_mem_splitBy ho'
    obtain rfl := eq_of_mem_splitBy sorted hg' hg here ho same
    exact ⟨r, List.mem_filterMap.mpr ⟨o', here, hr⟩, rfl⟩

theorem length_originals (sorted : xs.Pairwise fun a b => ¬b.values < a.values)
    (hg : g ∈ xs.splitBy Occurrence.tied) {o : Occurrence} (ho : o ∈ g) :
    (originals text referents g).length = (keysIn referents xs o.values).ncard := by
  have all : keysIn referents xs o.values =
      {k | k ∈ (originals text referents g).map Referent.key} := by
    ext k
    exact (mem_originals_iff sorted hg ho).symm
  have distinct : ((originals text referents g).map Referent.key).Nodup :=
    nodup_distinctReferents text _
  rw [all, ncard_of_nodup distinct, List.length_map]

omit [LawfulBEq κ] in
theorem tieOf_eq_some (tied : tieOf population text referents g = some tie) :
    (∃ o ∈ g, tie.fingerprint = ⟨population, o.values⟩) ∧
      1 < (originals text referents g).length ∧
      tie.leaves = (originals text referents g).map Referent.leaf := by
  unfold tieOf at tied
  cases g with
  | nil => cases tied
  | cons o g =>
    obtain ⟨many, ⟨⟩⟩ := Option.ite_none_right_eq_some.mp tied
    exact ⟨⟨o, List.mem_cons_self, rfl⟩, many, rfl⟩

omit [LawfulBEq κ] in
theorem exists_tieOf (population : Population) (ne : g ≠ [])
    (many : 1 < (originals text referents g).length) :
    ∃ tie, tieOf population text referents g = some tie := by
  obtain ⟨o, g, rfl⟩ := List.exists_cons_of_ne_nil ne
  exact ⟨_, if_pos many⟩

/-- The ties among occurrences in order. -/
theorem warned_tiesOf (population : Population) (text : κ → String)
    (sorted : xs.Pairwise fun a b => ¬b.values < a.values)
    (keys : ∀ o ∈ xs, ∀ r, referents[o.placeholder]? = some r → key r.leaf = some r.key) :
    Warned population key (keysIn referents xs) (tiesOf population text referents xs) where
  population tie h := by
    obtain ⟨g, -, tied⟩ := List.mem_filterMap.mp h
    obtain ⟨⟨o, -, eq⟩, -⟩ := tieOf_eq_some tied
    rw [eq]
  ascending := by
    unfold tiesOf
    rw [List.pairwise_filterMap]
    refine (ascending_splitBy sorted).imp fun {g g'} lt tie ht tie' ht' => ?_
    obtain ⟨⟨o, ho, eq⟩, -⟩ := tieOf_eq_some ht
    obtain ⟨⟨o', ho', eq'⟩, -⟩ := tieOf_eq_some ht'
    rw [eq, eq']
    exact lt o ho o' ho'
  shared f := by
    constructor
    · rintro ⟨tie, h, rfl⟩
      obtain ⟨g, hg, tied⟩ := List.mem_filterMap.mp h
      obtain ⟨⟨o, ho, eq⟩, many, -⟩ := tieOf_eq_some tied
      rw [eq]
      rwa [length_originals sorted hg ho] at many
    · intro many
      obtain ⟨k, o, ho, rfl, -⟩ :=
        (Set.ncard_pos (finite_keysIn referents xs f)).mp (Nat.lt_of_succ_lt many)
      obtain ⟨g, hg, here⟩ := exists_mem_splitBy ho
      have length : (originals text referents g).length = _ := length_originals sorted hg here
      rw [← length] at many
      obtain ⟨tie, tied⟩ := exists_tieOf population (List.ne_nil_of_mem_splitBy hg) many
      obtain ⟨⟨o', ho', eq⟩, -⟩ := tieOf_eq_some tied
      refine ⟨tie, List.mem_filterMap.mpr ⟨g, hg, tied⟩, ?_⟩
      rw [eq]
      exact const_splitBy (v := Occurrence.values) hg o' ho' o here
  leaves tie h := by
    obtain ⟨g, hg, tied⟩ := List.mem_filterMap.mp h
    obtain ⟨⟨o, ho, eq⟩, -, leaves⟩ := tieOf_eq_some tied
    refine ⟨(originals text referents g).map Referent.key, nodup_distinctReferents text _, ?_,
      fun k => ?_⟩
    · rw [leaves, List.map_map, List.map_map]
      refine List.map_congr_left fun r hr => ?_
      obtain ⟨o', ho', hr⟩ := List.mem_filterMap.mp (mem_of_mem_distinctReferents hr)
      exact keys o' (mem_of_mem_splitBy hg ho') r hr
    · rw [eq]
      exact mem_originals_iff sorted hg ho

end

/-! ## One population -/

/-- The keys that stand at the fingerprint `f`: where the batch `es` has a leaf with the key, the
nodes on the way there in `trees`, the batch with its placeholders, have the values `f`. -/
def keysAt (value : Expr → Except Error UInt64) (key : Expr → Option κ) (es trees : List Expr)
    (f : List UInt64) : Set κ :=
  {k | ∃ a ∈ (trees.flatMap Expr.positions).zip (es.flatMap Expr.positions),
    key a.2.node = some k ∧ a.1.path.mapM value = .ok f}

/-- How many originals are in excess, by the ties. -/
def excess (ties : List Tie) : ℕ := ties.foldr (fun tie count => tie.leaves.length - 1 + count) 0

section

variable {R : Registers} {I : ImageQueries} {o : Options} {s s' : Supply} {base h : Heap}
  {es : List Expr} {t : Tagged} {ms : List Mint} {value : Expr → Except Error UInt64}
  {found : List (Population × Occurrence)} {population : Population} {key : Expr → Option κ}

theorem mem_ranked {seen : Occurrence} :
    seen ∈ ranked population found ↔ seen ∈ occurrencesOf population found :=
  (List.mergeSort_perm _ _).mem_iff

/-- What a ranking finds is what stands in the batch. -/
theorem TaggedFrom.keysIn_eq_keysAt (G : TaggedFrom R I o s base es t ms h s')
    (K : Keys R I o population key)
    (kept : ∀ x, (roleBy R I o x).placeholder? I o = none → key x = none)
    (evaluated : occurrencesBy value t = .ok found) :
    keysIn (referentsOf key ms) (ranked population found) = keysAt value key es t.trees := by
  obtain ⟨len, origin⟩ := List.forall₂_iff_zip.mp G.positions
  funext f
  ext k
  constructor
  · rintro ⟨seen, hs, rfl, r, hr, rfl⟩
    obtain ⟨p, hp, -, id, values⟩ := (mem_occurrencesOf evaluated).mp (mem_ranked.mp hs)
    rw [← List.map_fst_zip (Nat.le_of_eq len)] at hp
    obtain ⟨⟨p, q⟩, hpq, rfl⟩ := List.mem_map.mp hp
    obtain ⟨hp, hq⟩ := List.of_mem_zip hpq
    rw [id, G.referentAt kept hp hq (origin hpq)] at hr
    obtain ⟨k, hk, rfl⟩ := Option.map_eq_some_iff.mp hr
    exact ⟨(p, q), hpq, hk, values⟩
  · rintro ⟨⟨p, q⟩, hpq, hk, values⟩
    obtain ⟨hp, hq⟩ := List.of_mem_zip hpq
    have here : t.populationOf p.node = some population := by
      rw [G.populationOf hp hq (origin hpq)]
      exact (K.iff q.node).mpr ⟨k, hk⟩
    have hr : (referentsOf key ms)[p.node.id]? = some ⟨q.node, k⟩ := by
      rw [G.referentAt kept hp hq (origin hpq), hk]
      rfl
    exact ⟨⟨f, p.node.id⟩, mem_ranked.mpr ((mem_occurrencesOf evaluated).mpr
      ⟨p, hp, here, rfl, values⟩), rfl, _, hr, rfl⟩

/-- Everything that a ranking finds is a placeholder. -/
theorem TaggedFrom.exists_referent (G : TaggedFrom R I o s base es t ms h s')
    (K : Keys R I o population key)
    (kept : ∀ x, (roleBy R I o x).placeholder? I o = none → key x = none)
    (evaluated : occurrencesBy value t = .ok found) :
    ∀ seen ∈ ranked population found, ∃ r, (referentsOf key ms)[seen.placeholder]? = some r := by
  intro seen hs
  have sightings := G.sightings K kept (occurrencesBy_ok evaluated).2
  obtain ⟨a, -, sighting⟩ := exists_mem_of_forall₂ sightings.flip (mem_ranked.mp hs)
  exact ⟨_, sighting.referent G.distinct⟩

/-- What a population counts and warns of. Its occurrences may be in any order, if those of smaller
fingerprints come first. -/
structure Tallied [BEq κ] (value : Expr → Except Error UInt64) (population : Population)
    (text : κ → String) (key : Expr → Option κ) (es trees : List Expr) (referents : Referents κ)
    (seen : List Occurrence) : Prop where
  warned : Warned population key (keysAt value key es trees)
    (tiesOf population text referents seen)
  counted : Counted (keysAt value key es trees) (excess (tiesOf population text referents seen))
  any_order : ∀ seen', seen'.Perm seen → (seen'.Pairwise fun a b => ¬b.values < a.values) →
    excess (tiesOf population text referents seen') =
      excess (tiesOf population text referents seen)

variable [DecidableEq κ]

theorem TaggedFrom.tallied (G : TaggedFrom R I o s base es t ms h s')
    (K : Keys R I o population key)
    (kept : ∀ x, (roleBy R I o x).placeholder? I o = none → key x = none)
    (evaluated : occurrencesBy value t = .ok found) (text : κ → String) :
    Tallied value population text key es t.trees (referentsOf key ms)
      (ranked population found) := by
  have known := G.exists_referent K kept evaluated
  have same := G.keysIn_eq_keysAt K kept evaluated
  have sorted : (ranked population found).Pairwise fun a b => ¬b.values < a.values :=
    sorted_mergeSort_le _
  have keys : ∀ seen ∈ ranked population found, ∀ r,
      (referentsOf key ms)[seen.placeholder]? = some r → key r.leaf = some r.key := by
    intro seen _ r hr
    obtain ⟨m, -, -, leaf, hk⟩ := exists_mint_of_referent G.distinct hr
    rw [← leaf, hk]
  have warned := warned_tiesOf population text sorted keys
  have nonempty : ∀ f, f ∈ ((ranked population found).map Occurrence.values).toFinset ↔
      (keysIn (referentsOf key ms) (ranked population found) f).Nonempty := by
    intro f
    rw [List.mem_toFinset, List.mem_map]
    constructor
    · rintro ⟨seen, hs, rfl⟩
      obtain ⟨r, hr⟩ := known seen hs
      exact ⟨r.key, seen, hs, rfl, r, hr, rfl⟩
    · rintro ⟨k, seen, hs, rfl, -⟩
      exact ⟨seen, hs, rfl⟩
  have counted := warned.counted (finite_keysIn _ _) nonempty
  rw [same] at warned counted
  refine ⟨warned, counted, fun seen perm sorted' => ?_⟩
  -- The distinct values, and the distinct pairs of values and keys, are those of either order.
  have here := excess_tiesOf population text (referentsOf key ms) sorted known
  have there := excess_tiesOf population text (referentsOf key ms) sorted' fun x hx =>
    known x (perm.mem_iff.mp hx)
  rw [List.toFinset_eq_of_perm _ _ (perm.map _), List.toFinset_eq_of_perm _ _ (perm.map _),
    ← here] at there
  exact Nat.add_right_cancel there

end

/-! ## Warnings -/

/-- The warnings in a journal. -/
def warnings (j : Journal) : List Record := j.toList.filter fun r => r.level = .warn

/-- The warning of a tie. -/
def Tie.record (tie : Tie) : Record := .tied tie.fingerprint tie.leaves

theorem warnings_push {j : Journal} {r : Record} (quiet : r.level ≠ .warn) :
    warnings (j.push r) = warnings j := by
  simp [warnings, quiet]

theorem warnings_append_quiet {j : Journal} {rs : List Record} (quiet : ∀ r ∈ rs, r.level ≠ .warn) :
    warnings (j ++ rs) = warnings j := by
  simpa [warnings] using quiet

theorem warnings_append_ties (j : Journal) (ties : List Tie) :
    warnings (j ++ ties.map Tie.record) = warnings j ++ ties.map Tie.record := by
  have loud : (ties.map Tie.record).filter (fun r => r.level = .warn) = ties.map Tie.record :=
    List.filter_eq_self.mpr fun r hr => by
      obtain ⟨tie, -, rfl⟩ := List.mem_map.mp hr
      rfl
  simp [warnings, loud]

section

variable {R : Registers} {I : ImageQueries} {o : Options} {s s' : Supply} {j : Journal}
  {base h : Heap} {es : List Expr} {t : Tagged} {ms : List Mint}

theorem tag_warns (held : ∀ e ∈ es, base.Holds e) (hb : base.Below s.next) :
    (tag R I o es).Ends s j fun _ _ j' => warnings j' = warnings j := by
  refine Run.Ends.bind ((mapM_walk_ends (tagNode_follows R I o) rfl (fun _ _ inner =>
    tagPlan_inner inner) held hb).imp fun r s' j' done => ?_)
  obtain ⟨rfl, -⟩ := done
  cases r with
  | error err => rfl
  | ok out =>
    exact Run.Ends.bind (Run.Ends.note (Run.Ends.pure (warnings_push (by simp [Record.level]))))

theorem rank_warns {evaluator : Evaluator} {b : Bindings} :
    (rank evaluator b t).Ends s j fun r _ j' => ∀ ranking, r = .ok ranking →
      warnings j' = warnings j ++ ranking.ties.map Tie.record := by
  unfold rank
  generalize ((occurrences (m := Id) (evaluator.onNode b) t).run.run ∅).run = done
  obtain ⟨found, memo⟩ := done
  refine Run.Ends.bind (Run.Ends.lift ?_)
  cases found with
  | error err => exact nofun
  | ok found =>
    refine Run.Ends.bind (Run.Ends.notes (Run.Ends.bind (Run.Ends.note
      (Run.Ends.bind (Run.Ends.notes (Run.Ends.pure ?_))))))
    rintro ranking ⟨⟩
    refine (warnings_append_ties _ _).trans ?_
    rw [warnings_push (by simp [Record.level]), warnings_append_quiet fun r hr => ?_]
    obtain ⟨⟨population, o⟩, -, rfl⟩ := List.mem_map.mp hr
    simp [Record.level]

theorem rename_warns {width : UInt8} {names : Names} (G : TaggedFrom R I o s base es t ms h s') :
    (rename I width t names).Ends s' j fun _ _ j' => warnings j' = warnings j := by
  refine Run.Ends.map ((mapM_walk_ends (renameNode_follows I width t names) rfl
    (fun y hy inner => G.renamePlan_inner hy inner) G.walked.held G.minted.below).imp
    fun r s'' j' done => ?_)
  rw [done.1]

end

section

variable {c : Collaborators} {b : Bindings} {o : Options} {s : Supply} {es : List Expr}

/-- A run that succeeds writes one warning for each tie of its ranking, and no other warning. -/
theorem canonicalize_warns (serves : s.Serves es) {out : Canonical}
    (done : (canonicalize c b o es).outcome s = .ok out) :
    ∃ t ms h s₁ found, (tag c.registers c.image o es).outcome s = .ok t ∧
      TaggedFrom c.registers c.image o s (Heap.of es) es t ms h s₁ ∧
      occurrencesBy (c.evaluator.value b) t = .ok found ∧
      out.report.collisions = (Ranking.ofOccurrences t found).collisions ∧
      warnings ((canonicalize c b o es).start s).2 =
        (Ranking.ofOccurrences t found).ties.map Tie.record := by
  obtain ⟨t, ranking, names, s₁, s₂, s₃, j₁, j₂, j₃, S⟩ :=
    exists_stages (Run.yields_of_outcome done)
  obtain ⟨-, ms, h, G⟩ := S.tagged.ends (tag_ends serves.holds serves.below_heap)
  obtain ⟨rfl, ranks⟩ := S.ranked.ends (rank_ends G.walked.held)
  obtain ⟨found, evaluated, rfl⟩ := ok_of_map ranks.symm
  refine ⟨t, ms, h, s₂, found, S.tagged.1, G, evaluated, congrArg Report.collisions S.report, ?_⟩
  rw [S.journal, warnings_push (by simp [Record.level]), S.renamed.ends (rename_warns G),
    warnings_push (by simp [Record.level]), S.ranked.ends rank_warns _ rfl,
    S.tagged.ends (tag_warns serves.holds serves.below_heap)]
  rfl

/-- A run that succeeds counts, for every fingerprint of registers, the registers but one that stand
there, and the same for addresses. It warns once of each fingerprint that two or more share, of
registers first and then of addresses, each in ascending order. It counts nothing if no fingerprint
stands for two, and it would count the same if tied occurrences came in another order. -/
theorem canonicalize_counts (serves : s.Serves es) {out : Canonical}
    (done : (canonicalize c b o es).outcome s = .ok out) :
    ∃ t ranking, (tag c.registers c.image o es).outcome s = .ok t ∧
      (∀ s', (rank c.evaluator b t).outcome s' = .ok ranking) ∧
      Tallied (c.evaluator.value b) .register (fun name => name) c.registers.keyOf es t.trees
        t.registers ranking.registers ∧
      Tallied (c.evaluator.value b) .address (fun a => toString a.toNat) (addressOf c.image o) es
        t.trees t.addresses ranking.addresses ∧
      ranking.ties = tiesOf .register (fun name => name) t.registers ranking.registers ++
        tiesOf .address (fun a => toString a.toNat) t.addresses ranking.addresses ∧
      out.report.collisions =
        excess (tiesOf .register (fun name => name) t.registers ranking.registers) +
          excess (tiesOf .address (fun a => toString a.toNat) t.addresses ranking.addresses) ∧
      warnings ((canonicalize c b o es).start s).2 = ranking.ties.map Tie.record ∧
      (out.report.collisions = 0 ↔ ∀ f,
        (keysAt (c.evaluator.value b) c.registers.keyOf es t.trees f).Subsingleton ∧
          (keysAt (c.evaluator.value b) (addressOf c.image o) es t.trees f).Subsingleton) := by
  obtain ⟨t, ms, h, s₁, found, tagging, G, evaluated, collisions, warned⟩ :=
    canonicalize_warns serves done
  have registers := G.tallied (registerKeys _ _ _) (fun _ => keyOf_of_kept) evaluated
    fun name => name
  have addresses := G.tallied (addressKeys _ _ _) (fun _ => addressOf_of_kept) evaluated
    fun a => toString a.toNat
  rw [← G.registers] at registers
  rw [← G.addresses] at addresses
  have total := collisions.trans
    (foldr_add_append (fun tie : Tie => tie.leaves.length - 1) _ _)
  refine ⟨t, Ranking.ofOccurrences t found, tagging, fun s' => ?_, registers, addresses, rfl, total,
    warned, ?_⟩
  · obtain ⟨-, -, -, ranks⟩ := (rank_ends G.walked.held).outcome
    rw [ranks, evaluated]
    rfl
  · have none := registers.counted.eq_zero_iff
    have none' := addresses.counted.eq_zero_iff
    rw [total, forall_and, ← none, ← none']
    exact Nat.add_eq_zero_iff

end

/-- Two registers at one fingerprint. -/
theorem canonicalize_counts_sample : ∃ (out : Canonical) (t : Tagged) (ranking : Ranking),
    (canonicalize Sample.collaborators Sample.bindings Sample.options Sample.tied).outcome
      (Supply.startingAt 3) = .ok out ∧
    Tallied (Sample.collaborators.evaluator.value Sample.bindings) .register (fun name => name)
      Sample.collaborators.registers.keyOf Sample.tied t.trees t.registers ranking.registers ∧
    out.report.collisions = 1 ∧
    (warnings ((canonicalize Sample.collaborators Sample.bindings Sample.options
      Sample.tied).start (Supply.startingAt 3)).2).length = 1 := by
  have runs : ((canonicalize Sample.collaborators Sample.bindings Sample.options
      Sample.tied).outcome (Supply.startingAt 3)).toOption.map
        (fun out => out.report.collisions) = some 1 := by cbv
  obtain ⟨out, done, one⟩ := exists_ok_of_map_eq runs
  obtain ⟨t, ranking, -, -, registers, -⟩ := canonicalize_counts Sample.serves_tied done
  refine ⟨out, t, ranking, done, registers, one, ?_⟩
  cbv

end Lifted
