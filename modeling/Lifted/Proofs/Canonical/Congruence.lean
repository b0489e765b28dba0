import Lifted.Proofs.Canonical.Order
import Lifted.Proofs.Expr.Equality

/-!
# Equal batches

Batches of equal trees may share their nodes in different ways. That shows only where registers, or
addresses, tie: which of them is met first is a matter of the nodes that they are.

* `forall₂_positions`, `forall₂_nodes`: the positions and nodes of equal trees correspond.
* `SharedAlike`: the leaves that get names are shared in the same way in both batches.
* `rank_eq`: then they are first met at the same places.
* `views`, `keysBy_eq_views`: what the order of names depends on; `views_eq`: it is the same.
* `canonicalize_congr`: the two runs.
* `canonicalize_tells_apart`: batches of equal trees whose registers get different names.
-/

namespace Lifted

/-! ## Corresponding positions -/

section

variable {es es' : List Expr}

/-- The ways down to all nodes are the same ones. -/
theorem forall₂_positions (same : es.map Expr.tree = es'.map Expr.tree) :
    List.Forall₂ (fun p q => p.path.map Expr.tree = q.path.map Expr.tree)
      (es.flatMap Expr.positions) (es'.flatMap Expr.positions) := by
  rw [← map_eq_map_iff, List.map_flatMap, List.map_flatMap, List.flatMap, List.flatMap]
  refine congrArg List.flatten (map_eq_of_map_eq same fun e _ e' h => ?_)
  exact Expr.paths_congr (fun _ _ h => h) h rfl

theorem tree_node_eq {p q : Position} (same : p.path.map Expr.tree = q.path.map Expr.tree) :
    p.node.tree = q.node.tree := by
  unfold Position.path at same
  rw [List.map_reverse, List.map_reverse, List.reverse_inj] at same
  exact (List.cons.inj same).1

theorem forall₂_nodes (same : es.map Expr.tree = es'.map Expr.tree) :
    List.Forall₂ (fun x y => x.tree = y.tree) (Expr.nodesOf es) (Expr.nodesOf es') := by
  rw [Expr.nodesOf_eq_map_node, Expr.nodesOf_eq_map_node, List.forall₂_map_left_iff,
    List.forall₂_map_right_iff]
  exact (forall₂_positions same).imp fun _ _ => tree_node_eq

end

/-- A part of a batch has the supply of the batch. -/
theorem Supply.Serves.part {s : Supply} {es es' : List Expr} (h : s.Serves es)
    (part : ∀ x ∈ Expr.nodesOf es', x ∈ Expr.nodesOf es) : s.Serves es' where
  coherent x hx y hy := h.coherent x (part x hx) y (part y hy)
  below x hx := h.below x (part x hx)

theorem Supply.Serves.of_append {s : Supply} {es es' : List Expr} (h : s.Serves (es ++ es')) :
    s.Serves es ∧ s.Serves es' := by
  refine ⟨h.part fun x hx => ?_, h.part fun x hx => ?_⟩ <;> rw [Expr.nodesOf_append]
  · exact List.mem_append_left _ hx
  · exact List.mem_append_right _ hx

/-! ## Leaves that are shared alike -/

section

variable (R : Registers) (I : ImageQueries) (o : Options)

/-- Two leaves that get names are one node in the one batch if they are one node in the other. -/
def SharedAlike (es es' : List Expr) : Prop :=
  ∀ p ∈ (Expr.nodesOf es).zip (Expr.nodesOf es'), ∀ q ∈ (Expr.nodesOf es).zip (Expr.nodesOf es'),
    (populationBy R I o p.1).isSome → (populationBy R I o q.1).isSome →
      (p.1.id = q.1.id ↔ p.2.id = q.2.id)

variable {R I o} {es es' : List Expr}

theorem populationBy_congr {x y : Expr} (same : x.tree = y.tree) :
    populationBy R I o x = populationBy R I o y := by
  rw [populationBy, populationBy, roleBy_congr same]

/-- They are first met at the same places. -/
theorem rank_eq (coherent : Expr.Coherent es) (coherent' : Expr.Coherent es')
    (same : es.map Expr.tree = es'.map Expr.tree) (alike : SharedAlike R I o es es')
    {p : Expr × Expr} (hp : p ∈ (Expr.nodesOf es).zip (Expr.nodesOf es'))
    (made : (populationBy R I o p.1).isSome) :
    p.1.rank (Expr.nodesOf es) = p.2.rank (Expr.nodesOf es') := by
  obtain ⟨length, contents⟩ := List.forall₂_iff_zip.mp (forall₂_nodes same)
  unfold Expr.rank
  refine idxOf_congr ?_
  rw [List.forall₂_map_left_iff, List.forall₂_map_right_iff, List.forall₂_iff_zip]
  refine ⟨length, fun {x y} hxy => ?_⟩
  cases other : (populationBy R I o x).isSome with
  | true => exact alike (x, y) hxy p hp other made
  | false =>
    -- A node that gets no name is neither of the two leaves.
    have apart : x.id ≠ p.1.id := by
      intro ids
      rw [coherent x (List.of_mem_zip hxy).1 p.1 (List.of_mem_zip hp).1 ids, made] at other
      cases other
    have apart' : y.id ≠ p.2.id := by
      intro ids
      rw [populationBy_congr (contents hxy),
        coherent' y (List.of_mem_zip hxy).2 p.2 (List.of_mem_zip hp).2 ids,
        ← populationBy_congr (contents hp), made] at other
      cases other
    exact iff_of_false apart apart'

end

/-! ## The order of names -/

section

variable {κ : Type} (word : Expr → UInt64) (key : Expr → Option κ) (es : List Expr)

/-- What the order of names depends on: the words down to each spot, the place at which its leaf was
first met, and its key. -/
def views : List (List UInt64 × ℕ × κ) :=
  (spots key es).map fun a => (a.1.path.map word, a.1.node.rank (Expr.nodesOf es), a.2)

variable {word key es} {es' : List Expr}

/-- The order of spots, by what is seen of them. -/
def viewLe (v v' : List UInt64 × ℕ × κ) : Bool :=
  decide (v.1 < v'.1) || (v.1 == v'.1 && decide (v.2.1 ≤ v'.2.1))

theorem keysBy_eq_views :
    keysBy word key es = ((views word key es).mergeSort viewLe).map fun v => v.2.2 := by
  have sorted : ((spots key es).mergeSort (spotLe (fun q => q.path.map word)
      (Expr.nodesOf es))).map (fun a =>
        (a.1.path.map word, a.1.node.rank (Expr.nodesOf es), a.2)) =
      (views word key es).mergeSort viewLe := List.map_mergeSort fun _ _ _ _ => rfl
  rw [← sorted, List.map_map]
  rfl

/-- The spots are the same ones, and their leaves stand at corresponding places. -/
theorem forall₂_spots (keys : ∀ x y : Expr, x.tree = y.tree → key x = key y)
    (same : es.map Expr.tree = es'.map Expr.tree) :
    List.Forall₂ (fun a a' => a.1.path.map Expr.tree = a'.1.path.map Expr.tree ∧ a.2 = a'.2 ∧
        a ∈ spots key es ∧
          (a.1.node, a'.1.node) ∈ (Expr.nodesOf es).zip (Expr.nodesOf es'))
      (spots key es) (spots key es') := by
  obtain ⟨length, paths⟩ := List.forall₂_iff_zip.mp (forall₂_positions same)
  have placed : List.Forall₂ (fun p q => p.path.map Expr.tree = q.path.map Expr.tree ∧
      p ∈ es.flatMap Expr.positions ∧
        (p.node, q.node) ∈ (Expr.nodesOf es).zip (Expr.nodesOf es'))
      (es.flatMap Expr.positions) (es'.flatMap Expr.positions) := by
    refine List.forall₂_iff_zip.mpr ⟨length, fun {p q} hpq => ?_⟩
    rw [Expr.nodesOf_eq_map_node, Expr.nodesOf_eq_map_node, List.zip_map]
    exact ⟨paths hpq, (List.of_mem_zip hpq).1, List.mem_map_of_mem hpq⟩
  unfold spots
  refine forall₂_filterMap placed ?_
  rintro p q ⟨path, hp, here⟩
  have one : key p.node = key q.node := keys _ _ (tree_node_eq path)
  cases hk : key q.node with
  | none =>
    rw [one, hk]
    exact .none
  | some k =>
    rw [one, hk]
    exact .some ⟨path, rfl, mem_spots.mpr ⟨hp, one.trans hk⟩, here⟩

theorem words_congr (words : ∀ x y : Expr, x.tree = y.tree → word x = word y) {p q : Position}
    (path : p.path.map Expr.tree = q.path.map Expr.tree) : p.path.map word = q.path.map word :=
  map_eq_of_map_eq path fun x _ y => words x y

theorem marks_congr (words : ∀ x y : Expr, x.tree = y.tree → word x = word y)
    (keys : ∀ x y : Expr, x.tree = y.tree → key x = key y)
    (same : es.map Expr.tree = es'.map Expr.tree) : marks word key es = marks word key es' := by
  refine map_eq_map_iff.mpr ((forall₂_spots keys same).imp fun a a' h => ?_)
  rw [words_congr words h.1, h.2.1]

variable {R : Registers} {I : ImageQueries} {o : Options} {population : Population}

theorem views_congr (K : Keys R I o population key)
    (words : ∀ x y : Expr, x.tree = y.tree → word x = word y)
    (keys : ∀ x y : Expr, x.tree = y.tree → key x = key y) (coherent : Expr.Coherent es)
    (coherent' : Expr.Coherent es') (same : es.map Expr.tree = es'.map Expr.tree)
    (alike : SharedAlike R I o es es') : views word key es = views word key es' := by
  refine map_eq_map_iff.mpr ((forall₂_spots keys same).imp fun a a' h => ?_)
  obtain ⟨path, key, spot, here⟩ := h
  have made : (populationBy R I o a.1.node).isSome := by
    rw [(K.iff a.1.node).mpr ⟨a.2, (mem_spots.mp spot).2⟩]
    rfl
  rw [words_congr words path, key, rank_eq coherent coherent' same alike here made]

/-- The keys are in one order if nothing ties, or if what ties is shared alike. -/
theorem keysBy_congr [DecidableEq κ] (K : Keys R I o population key)
    (words : ∀ x y : Expr, x.tree = y.tree → word x = word y)
    (keys : ∀ x y : Expr, x.tree = y.tree → key x = key y) (coherent : Expr.Coherent es)
    (coherent' : Expr.Coherent es') (same : es.map Expr.tree = es'.map Expr.tree)
    (h : crowding word key es = 0 ∨ SharedAlike R I o es es') :
    keysBy word key es' = keysBy word key es := by
  rcases h with free | alike
  · exact keysBy_eq (List.Perm.of_eq (marks_congr words keys same).symm) free
  · rw [keysBy_eq_views, keysBy_eq_views,
      views_congr K words keys coherent coherent' same alike]

end

/-! ## The two runs -/

section

variable {S : Semantics} {R : Registers} {I : ImageQueries} {o : Options} {b : Bindings}
  {s s' : Supply} {es es' : List Expr} {out out' : Canonical}

/-- With the same names the outputs are equal. -/
theorem Substituted.trees_congr (T : Substituted R I o es out) (T' : Substituted R I o es' out')
    (same : es.map Expr.tree = es'.map Expr.tree)
    (registers : out'.report.registerNames = out.report.registerNames)
    (addresses : out'.report.addressNames = out.report.addressNames) :
    out.trees.map Expr.tree = out'.trees.map Expr.tree := by
  have leaves : ∀ x, leafOfRole I o out'.report x (roleBy R I o x) =
      leafOfRole I o out.report x (roleBy R I o x) := fun x =>
    leafOfRole_congr registers addresses x _
  rw [T.content, T'.content, funext leaves]
  exact map_eq_of_map_eq same fun e _ e' h =>
    Expr.tree_mapLeaves_of_tree_eq (fun _ _ => tree_leafOfRole_congr _) h

/-- Equality is a congruence but for ties. The runs on two batches of equal trees, however each of
them shares its nodes, both fail or both succeed, and count the same collisions. If there are none,
or the leaves that get names are shared alike, both give the same names and their outputs are
equal. -/
theorem canonicalize_congr (hR : R.Answers) (hI : I.Answers) (serves : s.Serves es)
    (serves' : s'.Serves es') (coherent : Expr.Coherent (es ++ es'))
    (equal : List.Forall₂ (fun e e' => (e == e') = true) es es') :
    ((∃ out, (canonicalize ⟨S.evaluator, R, I⟩ b o es).outcome s = .ok out) ↔
      ∃ out', (canonicalize ⟨S.evaluator, R, I⟩ b o es').outcome s' = .ok out') ∧
    ∀ out out', (canonicalize ⟨S.evaluator, R, I⟩ b o es).outcome s = .ok out →
      (canonicalize ⟨S.evaluator, R, I⟩ b o es').outcome s' = .ok out' →
      out'.report.collisions = out.report.collisions ∧
        (out.report.collisions = 0 ∨ SharedAlike R I o es es' →
          out'.report.registerNames = out.report.registerNames ∧
          out'.report.addressNames = out.report.addressNames ∧
          List.Forall₂ (fun x y => x.tree = y.tree ∧ (x == y) = true) out.trees out'.trees) := by
  have each : List.Forall₂ (fun e e' => e.tree = e'.tree) es es' := by
    refine (forall₂_mem equal).imp fun e e' h => Expr.tree_eq_of_beq (fun x hx y hy ids => ?_) h.2.2
    refine coherent x ?_ y ?_ ids
    · exact Expr.mem_nodesOf.mpr ⟨e, List.mem_append_left _ h.1, hx⟩
    · exact Expr.mem_nodesOf.mpr ⟨e', List.mem_append_right _ h.2.1, hy⟩
  have same : es.map Expr.tree = es'.map Expr.tree := map_eq_map_iff.mpr each
  have words : ∀ x y : Expr, x.tree = y.tree → S.word R I o b x = S.word R I o b y :=
    unmoved_word.congr
  constructor
  · rw [exists_canonical_iff hR hI serves, exists_canonical_iff hR hI serves',
      forall_mem_congr each fun _ _ h => Expr.wellFormed_congr h,
      forall_mem_congr each fun _ _ h => by rw [masked_congr h]]
  · intro out out' done done'
    have T := substituted_of_ok serves done
    have T' := substituted_of_ok serves' done'
    have report := report_eq serves done
    have report' := report_eq serves' done'
    refine ⟨?_, fun h => ?_⟩
    · rw [report, report', reportBy, reportBy,
        crowding_eq (List.Perm.of_eq (marks_congr words unmoved_keyOf.congr same).symm),
        crowding_eq (List.Perm.of_eq (marks_congr words unmoved_addressOf.congr same).symm)]
    · rw [report, reportBy, Nat.add_eq_zero_iff] at h
      have names : out'.report.registerNames = out.report.registerNames := by
        rw [report, report', reportBy, reportBy, keysBy_congr (registerKeys R I o) words
          unmoved_keyOf.congr serves.coherent serves'.coherent same (h.imp_left And.left)]
      have names' : out'.report.addressNames = out.report.addressNames := by
        rw [report, report', reportBy, reportBy, keysBy_congr (addressKeys R I o) words
          unmoved_addressOf.congr serves.coherent serves'.coherent same (h.imp_left And.right)]
      refine ⟨names, names', ?_⟩
      exact (map_eq_map_iff.mp (T.trees_congr T' same names names')).imp fun x y h =>
        ⟨h, Expr.beq_of_tree_eq h⟩

end

/-! ## One register shared, and copied -/

namespace Sample

/-- The register of two trees is one node. -/
def shared : List Expr :=
  [.op 1 .not [.var 0 "ecx" 4 none], .var 2 "eax" 4 none, .var 0 "ecx" 4 none]

/-- The same once more. -/
def sharedAgain : List Expr :=
  [.op 4 .not [.var 3 "ecx" 4 none], .var 5 "eax" 4 none, .var 3 "ecx" 4 none]

/-- The same trees, with two nodes for the register. -/
def copied : List Expr :=
  [.op 4 .not [.var 3 "ecx" 4 none], .var 5 "eax" 4 none, .var 6 "ecx" 4 none]

theorem nodesOf_shared : Expr.nodesOf shared =
    [.op 1 .not [.var 0 "ecx" 4 none], .var 0 "ecx" 4 none, .var 2 "eax" 4 none,
      .var 0 "ecx" 4 none] := by
  simp [shared, Expr.nodesOf_cons, Expr.nodes_eq, Expr.children]

theorem nodesOf_sharedAgain : Expr.nodesOf sharedAgain =
    [.op 4 .not [.var 3 "ecx" 4 none], .var 3 "ecx" 4 none, .var 5 "eax" 4 none,
      .var 3 "ecx" 4 none] := by
  simp [sharedAgain, Expr.nodesOf_cons, Expr.nodes_eq, Expr.children]

theorem nodesOf_copied : Expr.nodesOf copied =
    [.op 4 .not [.var 3 "ecx" 4 none], .var 3 "ecx" 4 none, .var 5 "eax" 4 none,
      .var 6 "ecx" 4 none] := by
  simp [copied, Expr.nodesOf_cons, Expr.nodes_eq, Expr.children]

theorem serves_sharedAgain : (Supply.startingAt 7).Serves (shared ++ sharedAgain) where
  coherent := by
    simp [Expr.Coherent, Expr.nodesOf_append, nodesOf_shared, nodesOf_sharedAgain, Expr.id]
  below := by
    simp [Expr.Below, Expr.nodesOf_append, nodesOf_shared, nodesOf_sharedAgain, Expr.id,
      Supply.next, Supply.startingAt]

theorem serves_copied : (Supply.startingAt 7).Serves (shared ++ copied) where
  coherent := by simp [Expr.Coherent, Expr.nodesOf_append, nodesOf_shared, nodesOf_copied, Expr.id]
  below := by
    simp [Expr.Below, Expr.nodesOf_append, nodesOf_shared, nodesOf_copied, Expr.id, Supply.next,
      Supply.startingAt]

theorem sharedAlike :
    SharedAlike collaborators.registers collaborators.image options shared sharedAgain := by
  unfold SharedAlike
  rw [nodesOf_shared, nodesOf_sharedAgain]
  decide

end Sample

theorem canonicalize_congr_sample : ∃ out out',
    (canonicalize Sample.collaborators Sample.bindings Sample.options Sample.shared).outcome
      (Supply.startingAt 7) = .ok out ∧
    (canonicalize Sample.collaborators Sample.bindings Sample.options Sample.sharedAgain).outcome
      (Supply.startingAt 7) = .ok out' ∧
    out.report.collisions = 1 ∧ out'.report.collisions = 1 ∧
    out'.report.registerNames = out.report.registerNames ∧
    out'.report.addressNames = out.report.addressNames ∧
    List.Forall₂ (fun x y => x.tree = y.tree ∧ (x == y) = true) out.trees out'.trees := by
  have runs : ((canonicalize Sample.collaborators Sample.bindings Sample.options
      Sample.shared).outcome (Supply.startingAt 7)).toOption.map
        (fun out => out.report.collisions) = some 1 := by cbv
  obtain ⟨out, done, collisions⟩ := exists_ok_of_map_eq runs
  obtain ⟨serves, serves'⟩ := Sample.serves_sharedAgain.of_append
  have equal : List.Forall₂ (fun e e' => (e == e') = true) Sample.shared Sample.sharedAgain :=
    .cons rfl (.cons rfl (.cons rfl .nil))
  obtain ⟨both, same⟩ := canonicalize_congr (RegisterList.answers _) (Image.answers _) serves
    serves' Sample.serves_sharedAgain.coherent equal
  obtain ⟨out', done'⟩ := both.mp ⟨out, done⟩
  obtain ⟨collisions', names⟩ := same out out' done done'
  exact ⟨out, out', done, done', collisions, collisions'.trans collisions,
    names (.inr Sample.sharedAlike)⟩

/-- The register that is copied is met later where it ties, and so has the other name. -/
theorem canonicalize_tells_apart :
    List.Forall₂ (fun e e' => (e == e') = true) Sample.shared Sample.copied ∧
    (Supply.startingAt 7).Serves (Sample.shared ++ Sample.copied) ∧
    ∃ out out',
      (canonicalize Sample.collaborators Sample.bindings Sample.options Sample.shared).outcome
        (Supply.startingAt 7) = .ok out ∧
      (canonicalize Sample.collaborators Sample.bindings Sample.options Sample.copied).outcome
        (Supply.startingAt 7) = .ok out' ∧
      out.report.registerName "ecx" = some "0indreg" ∧
      out'.report.registerName "ecx" = some "1indreg" ∧
      out.trees.map Expr.tree =
        [.op .not [.var "0indreg" 4], .var "1indreg" 4, .var "0indreg" 4] ∧
      out'.trees.map Expr.tree =
        [.op .not [.var "1indreg" 4], .var "0indreg" 4, .var "1indreg" 4] := by
  refine ⟨.cons rfl (.cons rfl (.cons rfl .nil)), Sample.serves_copied, ?_⟩
  have runs : ((canonicalize Sample.collaborators Sample.bindings Sample.options
      Sample.shared).outcome (Supply.startingAt 7)).toOption.map
        (fun out => (out.report.registerName "ecx", out.trees.map Expr.tree)) =
      some (some "0indreg",
        [.op .not [.var "0indreg" 4], .var "1indreg" 4, .var "0indreg" 4]) := by cbv
  have runs' : ((canonicalize Sample.collaborators Sample.bindings Sample.options
      Sample.copied).outcome (Supply.startingAt 7)).toOption.map
        (fun out => (out.report.registerName "ecx", out.trees.map Expr.tree)) =
      some (some "1indreg",
        [.op .not [.var "1indreg" 4], .var "0indreg" 4, .var "1indreg" 4]) := by cbv
  obtain ⟨out, done, result⟩ := exists_ok_of_map_eq runs
  obtain ⟨out', done', result'⟩ := exists_ok_of_map_eq runs'
  exact ⟨out, out', done, done', congrArg Prod.fst result, congrArg Prod.fst result',
    congrArg Prod.snd result, congrArg Prod.snd result'⟩

end Lifted
