import Lifted.Proofs.Canonical.Outcome
import Lifted.Proofs.Evaluation.Content

/-!
# The report by values and keys

With plain values a run needs neither its placeholders nor its identities to be told: which runs
succeed, and what they report, follows from the values that nodes have with their leaves masked,
from the keys of leaves, and from the order in which these are first met.

* `Semantics.word`: the value of a node with its leaves masked.
* `holders`, `crowding`, `keysBy`: how many placeholders a population has, how many of its members
  are in excess, and its keys in the order of their names.
* `marks`: the words down to each leaf with a key, and the key; `crowding_eq_marks`: they tell what
  is in excess.
* `reportBy`: the report from these.
* `exists_canonical_iff`: a run succeeds if the options and the trees are right and every tree has a
  value.
* `report_eq`: what a run that succeeds reports.
-/

namespace Lifted

/-! ## Reports -/

section

variable {κ : Type} (word : Expr → UInt64) (key : Expr → Option κ) (es : List Expr)

/-- The number of different nodes that have a key. -/
def holders : Nat :=
  (((Expr.nodesOf es).filter fun x => (key x).isSome).map Expr.id).toFinset.card

/-- The keys in the order of their words, and of their first meeting where these are equal. -/
def keysBy : List κ :=
  ((spots key es).mergeSort (spotLe (fun q => q.path.map word) (Expr.nodesOf es))).map Prod.snd

/-- How many keys share their words with one that was counted before. -/
def crowding [DecidableEq κ] : Nat :=
  ((spots key es).map fun a => (a.1.path.map word, a.2)).toFinset.card -
    ((spots key es).map fun a => a.1.path.map word).toFinset.card

/-- What names depend on: the words down to each spot, and its key. -/
def marks : List (List UInt64 × κ) := (spots key es).map fun a => (a.1.path.map word, a.2)

theorem crowding_eq_marks [DecidableEq κ] : crowding word key es =
    (marks word key es).toFinset.card - ((marks word key es).map Prod.fst).toFinset.card := by
  unfold crowding marks
  rw [List.map_map]
  rfl

/-- The report, by words and keys. -/
def reportBy (registerKey : Expr → Option String) (addressKey : Expr → Option UInt64) : Report where
  registerPlaceholders := holders registerKey es
  addressPlaceholders := holders addressKey es
  registerNames := (numbering .register (keysBy word registerKey es)).mergeSort fun a b =>
    decide (a.1 ≤ b.1)
  addressNames := (numbering .address (keysBy word addressKey es)).mergeSort fun a b =>
    decide (a.1 ≤ b.1)
  collisions := crowding word registerKey es + crowding word addressKey es

end

section

variable {κ : Type} {word : Expr → UInt64} {key : Expr → Option κ} {es : List Expr}

theorem mem_keysBy {k : κ} : k ∈ keysBy word key es ↔ ∃ x ∈ Expr.nodesOf es, key x = some k := by
  unfold keysBy
  rw [((List.mergeSort_perm _ _).map Prod.snd).mem_iff, exists_spot_iff]

/-- No later spot has smaller words. -/
theorem sorted_spots : ((spots key es).mergeSort
    (spotLe (fun q => q.path.map word) (Expr.nodesOf es))).Pairwise fun a b =>
      ¬b.1.path.map word < a.1.path.map word := by
  let seen (a : Position × κ) : Occurrence :=
    ⟨a.1.path.map word, a.1.node.rank (Expr.nodesOf es)⟩
  have same : ((spots key es).mergeSort
      (spotLe (fun q => q.path.map word) (Expr.nodesOf es))).map seen =
      ((spots key es).map seen).mergeSort Occurrence.le := List.map_mergeSort fun _ _ _ _ => rfl
  have sorted := sorted_mergeSort_le ((spots key es).map seen)
  rw [← same] at sorted
  exact List.pairwise_map.mp sorted

variable {registerKey : Expr → Option String} {addressKey : Expr → Option UInt64}

theorem registerName_reportBy (name : String) :
    (reportBy word es registerKey addressKey).registerName name =
      (numbering .register (keysBy word registerKey es)).lookup name :=
  lookup_mergeSort (distinct_numbering _ _) _ name

theorem addressName_reportBy (a : UInt64) :
    (reportBy word es registerKey addressKey).addressName a =
      (numbering .address (keysBy word addressKey es)).lookup a :=
  lookup_mergeSort (distinct_numbering _ _) _ a

end

/-! ## Values with masked leaves -/

section

variable (S : Semantics) (R : Registers) (I : ImageQueries) (o : Options) (b : Bindings)

/-- The value of a node with its leaves masked. -/
def Semantics.masked (e : Expr) : Except Error UInt64 := S.value b (e.mapLeaves (mask R I o))

/-- The same, where there is one. -/
def Semantics.word (e : Expr) : UInt64 := (S.masked R I o b e).toOption.getD 0

variable {S R I o b}

theorem map_word_of_mapM {es : List Expr} {vs : List UInt64}
    (h : es.mapM (S.masked R I o b) = .ok vs) : vs = es.map (S.word R I o b) := by
  have each := mapM_ok_iff.mp h
  clear h
  induction each with
  | nil => rfl
  | cons hv _ ih => rw [List.map_cons, ← ih, Semantics.word, hv]; rfl

end

section

variable {S : Semantics} {R : Registers} {I : ImageQueries} {o : Options} {b : Bindings}
  {s s' : Supply} {base h : Heap} {es : List Expr} {t : Tagged} {ms : List Mint} {p q : Position}
  {x : Expr}

/-- Tagging masks. -/
theorem TaggedFrom.tree_imageOf (G : TaggedFrom R I o s base es t ms h s')
    (hx : x ∈ Expr.nodesOf es) : (imageOf ms x).tree = (mask R I o x).tree := by
  have erased := congrArg Expr.tree (G.minted.erase_imageOf hx)
  obtain ⟨v?, hv⟩ := G.minted.planned x hx
  have stand := tagPlan_eq hv
  rw [Expr.tree_mapIds, hv] at erased
  rw [erased, mask, ← stand]
  cases v? with
  | none => exact Expr.tree_mapIds _ x
  | some v => rfl

theorem TaggedFrom.tree_mapLeaves_imageOf (G : TaggedFrom R I o s base es t ms h s')
    (hx : x ∈ Expr.nodesOf es) :
    (x.mapLeaves (imageOf ms)).tree = (x.mapLeaves (mask R I o)).tree := by
  refine Expr.tree_mapLeaves_congr fun y hy _ => ?_
  exact G.tree_imageOf (Expr.mem_nodesOf_of_mem_nodes hx hy)

/-- Nodes of the tagged batch have the values of the masked nodes that they come from. -/
theorem TaggedFrom.mapM_value (G : TaggedFrom R I o s base es t ms h s') {xs ys : List Expr}
    (mem : ∀ x ∈ xs, x ∈ Expr.nodesOf es)
    (outlines : ys.map Expr.outline = xs.map (Expr.mapLeaves (imageOf ms))) :
    ys.mapM (S.value b) = xs.mapM (S.masked R I o b) := by
  have same : ys.map Expr.tree = (xs.map (Expr.mapLeaves (mask R I o))).map Expr.tree := by
    calc ys.map Expr.tree
        = (ys.map Expr.outline).map Expr.tree := by
          rw [List.map_map]
          exact List.map_congr_left fun y _ => (Expr.tree_outline y).symm
      _ = (xs.map (Expr.mapLeaves (imageOf ms))).map Expr.tree := by rw [outlines]
      _ = (xs.map (Expr.mapLeaves (mask R I o))).map Expr.tree := by
          rw [List.map_map, List.map_map]
          exact List.map_congr_left fun x hx => G.tree_mapLeaves_imageOf (mem x hx)
  rw [mapM_eq_of_map_eq same fun y _ x hyx => S.value_congr hyx rfl fun _ _ => rfl, List.mapM_map]
  rfl

/-- The values down to a position of the tagged batch are the masked ones. -/
theorem TaggedFrom.values_path (G : TaggedFrom R I o s base es t ms h s')
    (hq : q ∈ es.flatMap Expr.positions) (origin : p.Over (imageOf ms) q) {vs : List UInt64}
    (values : p.path.mapM (S.value b) = .ok vs) : vs = q.path.map (S.word R I o b) := by
  rw [G.mapM_value (fun x hx => Expr.mem_nodesOf_of_mem_path hq hx) origin.path] at values
  exact map_word_of_mapM values

/-- The trees have values if the masked ones have. -/
theorem TaggedFrom.exists_value_iff (G : TaggedFrom R I o s base es t ms h s') :
    (∀ e ∈ t.trees, ∃ v, S.value b e = .ok v) ↔ ∀ e ∈ es, ∃ v, S.masked R I o b e = .ok v := by
  have mem : ∀ e ∈ es, e ∈ Expr.nodesOf es := by
    intro e he
    exact Expr.mem_nodesOf.mpr ⟨e, he, e.self_mem_nodes⟩
  rw [← exists_mapM_ok_iff, ← exists_mapM_ok_iff, G.mapM_value mem G.walked.outlines]

end

/-! ## One population -/

section

variable {S : Semantics} {R : Registers} {I : ImageQueries} {o : Options} {b : Bindings}
  {s s' : Supply} {base h : Heap} {es : List Expr} {t : Tagged} {ms : List Mint} {κ : Type}
  {key : Expr → Option κ} {seen : List Occurrence}

theorem TaggedFrom.values_sighting (G : TaggedFrom R I o s base es t ms h s') {a : Position × κ}
    {seen : Occurrence} (ha : Sighting (S.value b) ms key es a seen) :
    seen.values = a.1.path.map (S.word R I o b) := by
  obtain ⟨p, origin, values⟩ := ha.values
  exact G.values_path (mem_spots.mp ha.spot).1 origin values

theorem TaggedFrom.keys_eq (G : TaggedFrom R I o s base es t ms h s')
    (sightings : List.Forall₂ (Sighting (S.value b) ms key es) (spots key es) seen)
    {keys : List κ}
    (found : keysOf (referentsOf key ms) (seen.mergeSort Occurrence.le) = .ok keys) :
    keys = keysBy (S.word R I o b) key es := by
  obtain ⟨Z, -, -, -, inOrder, keys'⟩ := keysOf_ranked G.distinct sightings
  have order := inOrder (spotLe (fun q => q.path.map (S.word R I o b)) (Expr.nodesOf es))
    fun a o' b' o'' ha hb => le_eq_spotLe G.minted ha hb (G.values_sighting ha)
      (G.values_sighting hb)
  obtain rfl := Except.ok.inj (found.symm.trans keys')
  unfold keysBy
  rw [← order, List.map_map]
  rfl

theorem TaggedFrom.excess_eq_crowding [DecidableEq κ]
    (G : TaggedFrom R I o s base es t ms h s')
    (sightings : List.Forall₂ (Sighting (S.value b) ms key es) (spots key es) seen)
    (population : Population) (text : κ → String) :
    (tiesOf population text (referentsOf key ms) (seen.mergeSort Occurrence.le)).foldr
      (fun tie count => tie.leaves.length - 1 + count) 0 = crowding (S.word R I o b) key es := by
  obtain ⟨Z, perm, sorted, each, -, -⟩ := keysOf_ranked G.distinct sightings
  have known : ∀ o ∈ seen.mergeSort Occurrence.le,
      ∃ r, (referentsOf key ms)[o.placeholder]? = some r := by
    rw [← sorted]
    intro o ho
    obtain ⟨z, hz, rfl⟩ := List.mem_map.mp ho
    exact ⟨_, (each z hz).referent G.distinct⟩
  have excess := excess_tiesOf population text _ (sorted_mergeSort_le seen) known
  have pairs : ((seen.mergeSort Occurrence.le).map fun o =>
      (o.values, ((referentsOf key ms)[o.placeholder]?).map Referent.key)).Perm
      ((marks (S.word R I o b) key es).map (Prod.map id some)) := by
    unfold marks
    rw [← sorted, List.map_map, List.map_map]
    refine List.Perm.trans (List.Perm.of_eq ?_) (perm.map _)
    rw [List.map_map]
    refine List.map_congr_left fun z hz => ?_
    rw [Function.comp, (each z hz).referent G.distinct, G.values_sighting (each z hz)]
    rfl
  have values : ((seen.mergeSort Occurrence.le).map Occurrence.values).Perm
      ((marks (S.word R I o b) key es).map Prod.fst) := by
    have firsts := pairs.map Prod.fst
    rw [List.map_map, List.map_map] at firsts
    exact firsts
  have inj : Function.Injective (Prod.map id some : List UInt64 × κ → List UInt64 × Option κ) :=
    Function.injective_id.prodMap (Option.some_injective κ)
  rw [List.toFinset_eq_of_perm _ _ values, List.toFinset_eq_of_perm _ _ pairs,
    card_toFinset_map fun _ _ _ _ same => inj same] at excess
  rw [crowding_eq_marks]
  omega

/-- Every node with a key has one placeholder. -/
theorem TaggedFrom.size_eq_holders (G : TaggedFrom R I o s base es t ms h s')
    (kept : ∀ x, (roleBy R I o x).placeholder? I o = none → key x = none) :
    (referentsOf key ms).size = holders key es := by
  -- A leaf has one mint, so the mints are counted by the identities of their leaves.
  have ids : ((ms.filter fun m => (key m.leaf).isSome).map fun m => m.leaf.id).Nodup := by
    refine List.Nodup.map_on (fun m hm m' hm' same => ?_) ?_
    · exact G.minted.eq_of_id_eq (List.mem_of_mem_filter hm) (List.mem_of_mem_filter hm')
        (.inr same)
    · refine List.Nodup.filter _ (G.distinct.imp fun {m m'} differ same => ?_)
      exact differ (congrArg Mint.id same)
  rw [size_referentsOf G.distinct, List.length_filterMap_eq_countP, List.countP_eq_length_filter,
    ← List.length_map fun m : Mint => m.leaf.id, ← List.toFinset_card_of_nodup ids, holders]
  congr 1
  ext i
  simp only [List.mem_toFinset, List.mem_map, List.mem_filter]
  constructor
  · rintro ⟨m, ⟨hm, some⟩, rfl⟩
    exact ⟨m.leaf, ⟨(G.minted.sound m hm).1, some⟩, rfl⟩
  · rintro ⟨x, ⟨hx, some⟩, rfl⟩
    obtain ⟨v?, hv⟩ := G.minted.planned x hx
    cases v? with
    | none =>
      rw [kept x (tagPlan_eq hv).symm] at some
      cases some
    | some v =>
      obtain ⟨m, hm, rfl, -⟩ := G.minted.exists_mint hx hv
      exact ⟨m, ⟨hm, some⟩, rfl⟩

end

/-! ## Runs -/

section

variable {S : Semantics} {R : Registers} {I : ImageQueries} {o : Options} {b : Bindings}
  {s : Supply} {es : List Expr} {out : Canonical}

/-- What a run reports is a matter of values, keys and the order of first meetings. -/
theorem report_eq (serves : s.Serves es)
    (done : (canonicalize ⟨S.evaluator, R, I⟩ b o es).outcome s = .ok out) :
    out.report = reportBy (S.word R I o b) es R.keyOf (addressOf I o) := by
  obtain ⟨-, -, t, ms, h, s₁, found, registers, addresses, ms', h', s₂, P⟩ :=
    exists_passed serves done
  have G := P.tagged
  have seenR := G.seenRegisters P.evaluated
  have seenA := G.seenAddresses P.evaluated
  have keysR := P.registerKeys
  have keysA := P.addressKeys
  rw [G.registers] at keysR
  rw [G.addresses] at keysA
  have collisions : (Ranking.ofOccurrences t found).collisions =
      crowding (S.word R I o b) R.keyOf es + crowding (S.word R I o b) (addressOf I o) es := by
    rw [Ranking.collisions, Ranking.ofOccurrences, G.registers, G.addresses, ranked, ranked]
    refine (foldr_add_append (fun tie : Tie => tie.leaves.length - 1) _ _).trans ?_
    exact congrArg₂ (· + ·) (G.excess_eq_crowding seenR .register _)
      (G.excess_eq_crowding seenA .address _)
  rw [P.report, Report.of, reportBy, G.keys_eq seenR keysR, G.keys_eq seenA keysA, collisions,
    G.registers, G.addresses, G.size_eq_holders fun _ => keyOf_of_kept,
    G.size_eq_holders fun _ => addressOf_of_kept]

/-- A run succeeds if and only if the options are right, the trees are well formed, and every tree
has a value with its leaves masked, provided that the collaborators answer. -/
theorem exists_canonical_iff (hR : R.Answers) (hI : I.Answers) (serves : s.Serves es) :
    (∃ out, (canonicalize ⟨S.evaluator, R, I⟩ b o es).outcome s = .ok out) ↔
      o.validate = .ok () ∧ (∀ e ∈ es, e.WellFormed) ∧
        ∀ e ∈ es, ∃ v, S.masked R I o b e = .ok v := by
  have held := serves.holds
  constructor
  · rintro ⟨out, done⟩
    obtain ⟨options, trees, t, ms, h, s₁, found, registers, addresses, ms', h', s₂, P⟩ :=
      exists_passed serves done
    refine ⟨options, fun e he => (Expr.validate_ok_iff (held e he)).mp (trees e he), ?_⟩
    exact P.tagged.exists_value_iff.mp (occurrencesBy_ok P.evaluated).1
  · rintro ⟨options, wellFormed, values⟩
    have ends := (canonicalize_ends (c := ⟨S.evaluator, R, I⟩) (b := b) (o := o) serves).outcome
    obtain ⟨s', j', ends⟩ := ends
    cases done : (canonicalize ⟨S.evaluator, R, I⟩ b o es).outcome s with
    | ok out => exact ⟨out, rfl⟩
    | error err =>
      rw [done] at ends
      have stopped : Stopped ⟨S.evaluator, R, I⟩ b o s es err := ends
      exfalso
      cases stopped with
      | options h =>
        rw [options] at h
        cases h
      | tree _ h =>
        rw [forM_ok_iff.mpr fun e he => (Expr.validate_ok_iff (held e he)).mpr (wellFormed e he)] at h
        cases h
      | role _ h =>
        obtain ⟨vs, hvs⟩ := exists_mapM_ok_iff.mpr fun x _ => ⟨_, tagPlan_answers hR hI x⟩
        rw [hvs] at h
        cases h
      | value _ t ms h' s₁ _ G h =>
        obtain ⟨found, hf⟩ := exists_occurrencesBy (G.exists_value_iff.mpr values)
        have h : occurrencesBy (Expr.valueBy (S.onNode b)) t = .error err := h
        rw [hf] at h
        cases h
      | name _ t ms h' s₁ found registers addresses _ G evaluated keys keys' h =>
        obtain ⟨vs, hvs⟩ := exists_mapM_ok_iff.mpr fun y hy =>
          G.renamePlan_answers hI evaluated keys keys' hy
        rw [hvs] at h
        cases h

end

end Lifted
