import Lifted.Proofs.Canonical.Stages
import Lifted.Proofs.Canonical.Values
import Lifted.Proofs.Walk.Sharing
import Mathlib

/-!
# Sharing in the canonical form

A run replaces leaves twice, by placeholders and then these by variables, and each pass makes the
nodes above them anew. Where a leaf is replaced by a thunk's name the second pass keeps it, and what
stands above it is made in the first pass alone; above any other it is made in the second.

* `Replaced`: the leaves that a run replaces.
* `tag_recasts`, `rename_recasts`: both passes recast the trees.
* `Passes`: both passes of a run; `Passes.exists_between`: they go from place to place.
* `Passes.leaf_id_eq_iff`, `Passes.place_eq`: leaves stay shared, and other new nodes are not.
* `SharedAs`: which nodes of the output are nodes of the batch, and which of its places share one.
* `canonicalize_shares`: such is the output of a run, and the report counts placeholders by nodes.
-/

namespace Lifted

section

variable (R : Registers) (I : ImageQueries) (o : Options)

/-- The node is a register, an anonymous address or a thunk. -/
def Replaced (x : Expr) : Prop := ∃ role, roleOf R I o x = .ok role ∧ role ≠ .kept

variable {R I o} {x : Expr}

/-- What tagging is to do with a node says whether it is replaced. -/
theorem replaced_iff {v? : Option Variable} (hv : tagPlan R I o x = .ok v?) :
    Replaced R I o x ↔ v? ≠ none := by
  obtain ⟨role, hr, rfl⟩ := ok_of_map hv
  cases role <;> simp [Replaced, hr, Role.placeholder?]

theorem roleOf_of_tagPlan {v? : Option Variable} (hv : tagPlan R I o x = .ok v?) :
    roleOf R I o x = .ok (roleBy R I o x) := by
  obtain ⟨role, hr, -⟩ := ok_of_map hv
  rw [hr, eq_roleBy hr]

end

/-! ## The passes -/

section

variable {R : Registers} {I : ImageQueries} {o : Options} {s s' : Supply} {j : Journal}
  {base h : Heap} {es : List Expr} {t : Tagged} {ms : List Mint}

theorem tag_recasts (held : ∀ e ∈ es, base.Holds e) (hb : base.Below s.next) :
    (tag R I o es).Ends s j fun r s' _ => ∀ t, r = .ok t →
      Recast (tagPlan R I o) s s es t.trees s' := by
  refine Run.Ends.bind ((mapM_walk_recasts (tagNode_follows R I o) rfl (fun _ _ inner =>
    tagPlan_inner inner) held hb).imp fun r s' j' done => ?_)
  cases r with
  | error err => exact nofun
  | ok out =>
    refine Run.Ends.bind (Run.Ends.note (Run.Ends.pure ?_))
    rintro t ⟨⟩
    exact done _ _ rfl

theorem rename_recasts {width : UInt8} {names : Names} (G : TaggedFrom R I o s base es t ms h s') :
    (rename I width t names).Ends s' j fun r s'' _ => ∀ trees, r = .ok trees →
      Recast (renamePlan I width t names) s' s' t.trees trees s'' := by
  refine Run.Ends.map ((mapM_walk_recasts (renameNode_follows I width t names) rfl
    (fun y hy inner => G.renamePlan_inner hy inner) G.walked.held G.minted.below).imp
    fun r s'' j' done => ?_)
  cases r with
  | error err => exact nofun
  | ok out =>
    rintro trees ⟨⟩
    exact done _ _ rfl

end

/-! ## Places -/

section

variable {R : Registers} {I : ImageQueries} {o : Options} {s s₁ s₂ : Supply} {h h' : Heap}
  {es es' : List Expr} {t : Tagged} {ms ms' : List Mint} {names : Names} {width : UInt8}
  {x x' y y' z z' : Expr} {p p' : Place}

/-- Renaming leaves alone what tagging has left alone. -/
theorem TaggedFrom.spares_renamePlan (G : TaggedFrom R I o s (Heap.of es) es t ms h s₁)
    (hx : x ∈ Expr.nodesOf es) (spared : (tagPlan R I o).Spares x) :
    (renamePlan I width t names).Spares x := by
  intro w hw
  have there := Expr.mem_nodesOf_of_mem_nodes hx hw
  have held := G.minted.held w there
  cases leaf : w.isLeaf with
  | false => exact G.renamePlan_inner (G.minted.base_le _ _ held) leaf
  | true =>
    have role := (tagPlan_eq (spared w hw)).symm
    have plan : renamePlan I width t names (imageOf ms w) = _ := G.renamePlan_image there leaf
    rw [keyOf_of_kept role, addressOf_of_kept role] at plan
    rwa [G.minted.imageOf_kept held (spared w hw)] at plan

/-- A node of the batch is spared if no leaf in it is replaced. -/
theorem TaggedFrom.spares_iff (G : TaggedFrom R I o s (Heap.of es) es t ms h s₁)
    (hx : x ∈ Expr.nodesOf es) :
    (tagPlan R I o).Spares x ↔ ∀ w ∈ x.nodes, ¬Replaced R I o w := by
  refine forall₂_congr fun w hw => ?_
  obtain ⟨v?, hv⟩ := G.minted.planned w (Expr.mem_nodesOf_of_mem_nodes hx hw)
  rw [replaced_iff hv, hv]
  simp

/-- The batch became `t` and that became `es'`, in two passes of which the second went on from where
the first has left the supply. -/
structure Passes (R : Registers) (I : ImageQueries) (o : Options) (names : Names) (s : Supply)
    (es : List Expr) (t : Tagged) (ms : List Mint) (h : Heap) (s₁ : Supply) (es' : List Expr)
    (ms' : List Mint) (h' : Heap) (s₂ : Supply) : Prop where
  tagged : TaggedFrom R I o s (Heap.of es) es t ms h s₁
  first : Recast (tagPlan R I o) s s es t.trees s₁
  renamed : Walked (renamePlan I o.placeholderWidth t names) s₁ h [] [] h t.trees es' ms' h' s₂
  second : Recast (renamePlan I o.placeholderWidth t names) s₁ s₁ t.trees es' s₂

namespace Passes

/-- Both passes go from place to place. -/
theorem exists_between (P : Passes R I o names s es t ms h s₁ es' ms' h' s₂)
    (hx : p.node? es = some x) (hy : p.node? es' = some y) : ∃ z, p.node? t.trees = some z ∧
      Became (tagPlan R I o) s ms x z ∧
      Became (renamePlan I o.placeholderWidth t names) s₁ ms' z y := by
  obtain ⟨z, hz, B⟩ := exists_became P.tagged.walked P.first hx
  obtain ⟨y', hy', B'⟩ := exists_became P.renamed P.second hz
  obtain rfl := Option.some.inj (hy.symm.trans hy')
  exact ⟨z, hz, B, B'⟩

/-- The very node stands there if no leaf in it is replaced. -/
theorem kept (P : Passes R I o names s es t ms h s₁ es' ms' h' s₂) (hx : p.node? es = some x)
    (hy : p.node? es' = some y) (spared : (tagPlan R I o).Spares x) : y = x := by
  obtain ⟨z, -, B, B'⟩ := P.exists_between hx hy
  obtain rfl := B.turned.kept spared
  exact B'.turned.kept (P.tagged.spares_renamePlan (Place.mem_nodesOf hx) spared)

/-- Where a leaf is replaced stands a node that was made in one of the passes. -/
theorem new (P : Passes R I o names s es t ms h s₁ es' ms' h' s₂) (hx : p.node? es = some x)
    (hy : p.node? es' = some y) (other : ¬(tagPlan R I o).Spares x) : s.next ≤ y.id := by
  obtain ⟨z, -, B, B'⟩ := P.exists_between hx hy
  rcases Nat.lt_or_ge y.id s₁.next with before | after
  · rw [B'.eq_of_lt before]
    exact B.turned.new other
  · exact Nat.le_trans (Supply.next_le_next P.first.le) after

/-- The nodes of the batch have the identities that were there before. -/
theorem old (P : Passes R I o names s es t ms h s₁ es' ms' h' s₂) (hx : p.node? es = some x) :
    x.id < s.next :=
  P.tagged.minted.base_below _ _ (P.tagged.minted.held x (Place.mem_nodesOf hx))

/-- One identity is one node of the batch. -/
theorem eq_of_id_eq (P : Passes R I o names s es t ms h s₁ es' ms' h' s₂)
    (hx : p.node? es = some x) (hx' : p'.node? es = some x') (same : x.id = x'.id) : x = x' := by
  have held := P.tagged.minted.held x (Place.mem_nodesOf hx)
  have held' := P.tagged.minted.held x' (Place.mem_nodesOf hx')
  rw [same, held'] at held
  exact (Option.some.inj held).symm

theorem id_eq_iff (P : Passes R I o names s es t ms h s₁ es' ms' h' s₂) (hx : p.node? es = some x)
    (hy : p.node? es' = some y) : y.id = x.id ↔ (tagPlan R I o).Spares x := by
  constructor
  · intro same
    by_contra other
    exact Nat.not_le_of_lt (P.old hx) (same ▸ P.new hx hy other)
  · intro spared
    rw [P.kept hx hy spared]

/-- One leaf has one image, and no two leaves have one. -/
theorem leaf_id_eq_iff (P : Passes R I o names s es t ms h s₁ es' ms' h' s₂)
    (hx : p.node? es = some x) (hy : p.node? es' = some y) (hx' : p'.node? es = some x')
    (hy' : p'.node? es' = some y') (leaf : x.isLeaf) (leaf' : x'.isLeaf) :
    y.id = y'.id ↔ x.id = x'.id := by
  obtain ⟨z, hz, B, B'⟩ := P.exists_between hx hy
  obtain ⟨z', hz', C, C'⟩ := P.exists_between hx' hy'
  obtain rfl := B'.eq_imageOf (B.isLeaf_eq.trans leaf)
  obtain rfl := C'.eq_imageOf (C.isLeaf_eq.trans leaf')
  obtain rfl := B.eq_imageOf leaf
  obtain rfl := C.eq_imageOf leaf'
  constructor
  · intro same
    have between := P.renamed.minted.imageOf_inj (Place.mem_nodesOf hz) (Place.mem_nodesOf hz') same
    exact P.tagged.minted.imageOf_inj (Place.mem_nodesOf hx) (Place.mem_nodesOf hx') between
  · intro same
    rw [P.eq_of_id_eq hx hx' same]

theorem isLeaf_eq (P : Passes R I o names s es t ms h s₁ es' ms' h' s₂) (hx : p.node? es = some x)
    (hy : p.node? es' = some y) : y.isLeaf = x.isLeaf := by
  obtain ⟨z, -, B, B'⟩ := P.exists_between hx hy
  rw [B'.isLeaf_eq, B.isLeaf_eq]

/-- An inner node that was made in one of the passes was made for one place. -/
theorem place_eq (P : Passes R I o names s es t ms h s₁ es' ms' h' s₂)
    (hx : p.node? es = some x) (hy : p.node? es' = some y) (hx' : p'.node? es = some x')
    (hy' : p'.node? es' = some y') (inner : x.isLeaf = false) (new : s.next ≤ y.id)
    (same : y = y') : p = p' := by
  rcases Nat.lt_or_ge y.id s₁.next with before | after
  · -- Renaming has kept both nodes, so tagging has made them.
    obtain ⟨z, hz, B, B'⟩ := P.exists_between hx hy
    obtain ⟨z', hz', -, C'⟩ := P.exists_between hx' hy'
    obtain rfl := B'.eq_of_lt before
    obtain rfl := C'.eq_of_lt (same ▸ before)
    exact P.first.place_eq hz hz' (B.isLeaf_eq.trans inner) new same
  · exact P.second.place_eq hy hy' ((P.isLeaf_eq hx hy).trans inner) after same

end Passes

/-- How the places of `es'` share nodes with each other and with `es`, if `es'` has come about from
`es` by putting other leaves in place of those that are `replaced`. -/
structure SharedAs (replaced : Expr → Prop) (es es' : List Expr) : Prop where
  /-- The batches have the same places. -/
  places : ∀ p : Place, (p.node? es').isSome = (p.node? es).isSome
  /-- At a place stands the very node that stood there, if and only if nothing in it is replaced. -/
  kept : ∀ (p : Place) (x y : Expr), p.node? es = some x → p.node? es' = some y →
    (y.sameNode x = true ↔ ∀ w ∈ x.nodes, ¬replaced w) ∧ ((∀ w ∈ x.nodes, ¬replaced w) → y = x)
  /-- Two places have one node, if and only if they had one and that is a replaced leaf, or a node
  in which nothing is replaced. -/
  shared : ∀ (p p' : Place) (x x' y y' : Expr), p ≠ p' → p.node? es = some x →
    p'.node? es = some x' → p.node? es' = some y → p'.node? es' = some y' →
    (y.sameNode y' = true ↔
      x.sameNode x' = true ∧ (replaced x ∨ ∀ w ∈ x.nodes, ¬replaced w))

theorem Passes.sharedAs (P : Passes R I o names s es t ms h s₁ es' ms' h' s₂) :
    SharedAs (Replaced R I o) es es' where
  places p := (P.second.isSome_node? p).trans (P.first.isSome_node? p)
  kept p x y hx hy := by
    rw [← P.tagged.spares_iff (Place.mem_nodesOf hx), Expr.sameNode, beq_iff_eq]
    exact ⟨P.id_eq_iff hx hy, P.kept hx hy⟩
  shared p p' x x' y y' other hx hx' hy hy' := by
    have spares := P.tagged.spares_iff (Place.mem_nodesOf hx)
    rw [← spares, Expr.sameNode, Expr.sameNode, beq_iff_eq, beq_iff_eq]
    constructor
    · intro same
      by_cases spared : (tagPlan R I o).Spares x
      · have here := P.kept hx hy spared
        have spared' : (tagPlan R I o).Spares x' := by
          by_contra new
          refine Nat.not_le_of_lt (P.old hx) ?_
          rw [← here, same]
          exact P.new hx' hy' new
        rw [here, P.kept hx' hy' spared'] at same
        exact ⟨same, .inr spared⟩
      · have one := Heap.coherent_of_holds P.renamed.held y (Place.mem_nodesOf hy) y'
          (Place.mem_nodesOf hy') same
        have kind : x'.isLeaf = x.isLeaf := by
          rw [← P.isLeaf_eq hx hy, ← P.isLeaf_eq hx' hy', one]
        cases leaf : x.isLeaf with
        | true =>
          refine ⟨(P.leaf_id_eq_iff hx hy hx' hy' leaf (kind.trans leaf)).mp same, .inl ?_⟩
          by_contra kept
          refine spared (spares.mpr fun w hw => ?_)
          rw [Expr.nodes_of_isLeaf leaf, List.mem_singleton] at hw
          rwa [hw]
        | false => exact absurd (P.place_eq hx hy hx' hy' leaf (P.new hx hy spared) one) other
    · rintro ⟨same, replaced | spared⟩
      · obtain rfl := P.eq_of_id_eq hx hx' same
        have leaf : x.isLeaf = true := by
          cases leaf : x.isLeaf with
          | true => rfl
          | false => exact absurd rfl ((replaced_iff (tagPlan_inner leaf)).mp replaced)
        exact (P.leaf_id_eq_iff hx hy hx' hy' leaf leaf).mpr rfl
      · obtain rfl := P.eq_of_id_eq hx hx' same
        rw [P.kept hx hy spared, P.kept hx' hy' spared]

end

/-! ## Runs -/

section

variable {c : Collaborators} {b : Bindings} {o : Options} {s : Supply} {es : List Expr}

/-- The nodes with a key are counted by their identities. -/
theorem holders_eq_ncard {κ : Type} {key : Expr → Option κ} {es : List Expr} {p : Expr → Prop}
    (hp : ∀ x ∈ Expr.nodesOf es, (key x).isSome = true ↔ p x) :
    holders key es = (Expr.id '' {x | x ∈ Expr.nodesOf es ∧ p x}).ncard := by
  unfold holders
  rw [← Set.ncard_coe_finset]
  congr 1
  ext i
  simp only [List.coe_toFinset, List.mem_map, List.mem_filter, Set.mem_ofPred_eq, Set.mem_image]
  exact exists_congr fun x => and_congr_left fun _ => and_congr_right (hp x)

/-- A run that succeeds puts the very node at each place in which it replaces no leaf. Two places of
its output have one node if and only if they had one that is replaced or has no replaced leaf in it,
so that other nodes are made for one place each. It reports the numbers of different nodes that are
registers and anonymous addresses. -/
theorem canonicalize_shares (serves : s.Serves es) {out : Canonical}
    (done : (canonicalize c b o es).outcome s = .ok out) :
    SharedAs (Replaced c.registers c.image o) es out.trees ∧
      out.report.registerPlaceholders = (Expr.id '' {x | x ∈ Expr.nodesOf es ∧
        ∃ name, roleOf c.registers c.image o x = .ok (.register name)}).ncard ∧
      out.report.addressPlaceholders = (Expr.id '' {x | x ∈ Expr.nodesOf es ∧
        ∃ a, roleOf c.registers c.image o x = .ok (.address a)}).ncard := by
  have held := serves.holds
  have below := serves.below_heap
  obtain ⟨t, ranking, names, s₁, s₂, s₃, j₁, j₂, j₃, S⟩ :=
    exists_stages (Run.yields_of_outcome done)
  obtain ⟨-, ms, h, G⟩ := S.tagged.ends (tag_ends held below)
  obtain ⟨rfl, -⟩ := S.ranked.ends (rank_ends G.walked.held)
  obtain ⟨-, ms', h', W⟩ := S.renamed.ends (rename_ends G)
  have P : Passes c.registers c.image o names s es t ms h s₂ out.trees ms' h' s₃ :=
    ⟨G, S.tagged.ends (tag_recasts held below) t rfl, W, S.renamed.ends (rename_recasts G) _ rfl⟩
  have found : ∀ x ∈ Expr.nodesOf es, roleOf c.registers c.image o x =
      .ok (roleBy c.registers c.image o x) := by
    intro x hx
    obtain ⟨v?, hv⟩ := G.minted.planned x hx
    exact roleOf_of_tagPlan hv
  refine ⟨P.sharedAs, ?_, ?_⟩
  · rw [S.report, Report.of, G.registers, G.size_eq_holders fun _ => keyOf_of_kept]
    refine holders_eq_ncard fun x hx => ?_
    rw [Option.isSome_iff_exists, found x hx]
    simp only [keyOf_eq_some_iff (I := c.image) (o := o), Except.ok.injEq]
  · rw [S.report, Report.of, G.addresses, G.size_eq_holders fun _ => addressOf_of_kept]
    refine holders_eq_ncard fun x hx => ?_
    rw [Option.isSome_iff_exists, found x hx]
    simp only [addressOf_eq_some_iff (R := c.registers), Except.ok.injEq]

end

namespace Sample

/-- A node with a register and a thunk, twice below one parent, and one with neither. -/
def twice : List Expr :=
  let sum := .op 2 .add [.var 0 "eax" 4 none, .const 1 0x1010 4]
  let negated := .op 4 .neg [.const 3 7 4]
  [.op 5 .xor [sum, sum], .op 6 .sub [negated, negated]]

theorem serves_twice : (Supply.startingAt 7).Serves twice where
  coherent := by
    simp [Expr.Coherent, twice, Expr.nodesOf_cons, Expr.nodes_eq, Expr.children, Expr.id]
  below := by
    simp [Expr.Below, twice, Expr.nodesOf_cons, Expr.nodes_eq, Expr.children, Expr.id, Supply.next,
      Supply.startingAt]

theorem replaced_eax : Replaced collaborators.registers collaborators.image options
    (.var 0 "eax" 4 none) :=
  ⟨.register "eax", by cbv, by simp⟩

end Sample

/-- The node that stood twice becomes two nodes, and its register one. -/
theorem canonicalize_shares_sample : ∃ out,
    (canonicalize Sample.collaborators Sample.bindings Sample.options Sample.twice).outcome
      (Supply.startingAt 7) = .ok out ∧
    (∃ y y', (Place.mk 0 [0]).node? out.trees = some y ∧
      (Place.mk 0 [1]).node? out.trees = some y' ∧ y.sameNode y' = false) ∧
    (∃ y y', (Place.mk 0 [0, 0]).node? out.trees = some y ∧
      (Place.mk 0 [1, 0]).node? out.trees = some y' ∧ y.sameNode y' = true) ∧
    out.report.registerPlaceholders = 1 ∧ out.report.addressPlaceholders = 0 := by
  have runs : ((canonicalize Sample.collaborators Sample.bindings Sample.options
      Sample.twice).outcome (Supply.startingAt 7)).toOption.map
        (fun out => (out.report.registerPlaceholders, out.report.addressPlaceholders)) =
      some (1, 0) := by
    have one : ((∅ : Referents String).insert 7 ⟨.var 0 "eax" 4 none, "eax"⟩).size = 1 := by
      simp [Std.HashMap.size_insert]
    have none : (∅ : Referents UInt64).size = 0 := Std.HashMap.size_empty
    cbv
    exact congrArg some (Prod.ext one none)
  obtain ⟨out, done, counts⟩ := exists_ok_of_map_eq runs
  obtain ⟨shares, -, -⟩ := canonicalize_shares Sample.serves_twice done
  have there : ∀ p : Place, (p.node? Sample.twice).isSome → ∃ y, p.node? out.trees = some y :=
    fun p h => Option.isSome_iff_exists.mp ((shares.places p).trans h)
  obtain ⟨y, hy⟩ := there ⟨0, [0]⟩ rfl
  obtain ⟨y', hy'⟩ := there ⟨0, [1]⟩ rfl
  obtain ⟨z, hz⟩ := there ⟨0, [0, 0]⟩ rfl
  obtain ⟨z', hz'⟩ := there ⟨0, [1, 0]⟩ rfl
  refine ⟨out, done, ⟨y, y', hy, hy', ?_⟩, ⟨z, z', hz, hz', ?_⟩, congrArg Prod.fst counts,
    congrArg Prod.snd counts⟩
  · rw [Bool.eq_false_iff, ne_eq, shares.shared _ _ _ _ y y' (by simp) rfl rfl hy hy']
    rintro ⟨-, replaced | spared⟩
    · obtain ⟨role, found, other⟩ := replaced
      exact other (Except.ok.inj found).symm
    · refine spared _ ?_ Sample.replaced_eax
      simp [Expr.nodes_eq, Expr.children]
  · rw [shares.shared _ _ _ _ z z' (by simp) rfl rfl hz hz']
    exact ⟨rfl, .inl Sample.replaced_eax⟩

end Lifted
