import Lifted.Proofs.Expr.Place
import Lifted.Proofs.Walk.Replacing

/-!
# Sharing after a walk that replaces leaves

Where a walk replaces nothing below a node, the very node stands there afterwards, so it is shared
as before. Any other inner node is made anew at each of its places, and no two places share what is
made for them.

* `Plan.Spares`: nothing in a tree is to be replaced.
* `Turned`: what a pass makes of the node at a place.
* `madeSince`: the identities of the inner nodes that a pass makes.
* `Recast`: what becomes of trees, place by place, and the identities that are taken for it.
* `walkTree_recasts`, `mapM_walk_recasts`: a walk, and a pass, that does not fail recasts its trees.
* `Became`: what becomes of a node at one of its places; `exists_became`, `Recast.place_eq`: a pass
  goes from place to place, and makes an inner node for one place.
-/

namespace Lifted

variable {σ : Type}

/-- The plan leaves every node of the tree as it is. -/
def Plan.Spares (plan : Plan) (e : Expr) : Prop := ∀ x ∈ e.nodes, plan x = .ok none

theorem Plan.spares_iff {plan : Plan} {e : Expr} :
    plan.Spares e ↔ plan e = .ok none ∧ ∀ c ∈ e.children, plan.Spares c :=
  Expr.forall_mem_nodes_iff

/-- What stands in place of `x` after a pass that took its identities from `first` on: `x` itself
if nothing in it was to be replaced, and otherwise a node of that pass. -/
structure Turned (plan : Plan) (first : Supply) (x y : Expr) : Prop where
  kept : plan.Spares x → y = x
  new : ¬plan.Spares x → first.next ≤ y.id

/-- The node is an inner one, with an identity from `first` on. -/
def Expr.isMadeSince (first : Supply) (y : Expr) : Bool :=
  !y.isLeaf && decide (first.next ≤ y.id)

/-- The identities of the inner nodes that were made since the supply was `first`, once for each
place. -/
def madeSince (first : Supply) (es : List Expr) : List NodeId := idsOf (Expr.isMadeSince first) es

/-- What became of the trees `es` in a pass that began at `first`, while the supply went from `s` to
`s'`: every place is turned, and no identity was taken for two places. -/
structure Recast (plan : Plan) (first s : Supply) (es es' : List Expr) (s' : Supply) : Prop where
  turned : List.Forall₂ (Alongside (Turned plan first)) es es'
  le : s ≤ s'
  range : ∀ i ∈ madeSince first es', s.next ≤ i ∧ i < s'.next
  distinct : (madeSince first es').Nodup

namespace Recast

variable {plan : Plan} {first s s' s'' : Supply} {base h : Heap} {e e' : Expr} {es es' : List Expr}

theorem nil : Recast plan first s [] [] s where
  turned := .nil
  le := Supply.le_refl s
  range := nofun
  distinct := List.nodup_nil

/-- The supply went on before. -/
theorem of_le (H : Recast plan first s' es es' s'') (hs : s ≤ s') :
    Recast plan first s es es' s'' where
  turned := H.turned
  le := Supply.le_trans hs H.le
  range i hi := ⟨Nat.le_trans (Supply.next_le_next hs) (H.range i hi).1, (H.range i hi).2⟩
  distinct := H.distinct

/-- One tree and then the others. -/
theorem cons (head : Recast plan first s [e] [e'] s') (tail : Recast plan first s' es es' s'') :
    Recast plan first s (e :: es) (e' :: es') s'' where
  turned := .cons (List.forall₂_cons.mp head.turned).1 tail.turned
  le := Supply.le_trans head.le tail.le
  range i hi := by
    rw [madeSince, idsOf_cons, List.mem_append] at hi
    rcases hi with hi | hi
    · obtain ⟨low, high⟩ := head.range i hi
      exact ⟨low, Nat.lt_of_lt_of_le high (Supply.next_le_next tail.le)⟩
    · obtain ⟨low, high⟩ := tail.range i hi
      exact ⟨Nat.le_trans (Supply.next_le_next head.le) low, high⟩
  distinct := by
    rw [madeSince, idsOf_cons]
    refine List.nodup_append'.mpr ⟨head.distinct, tail.distinct, fun i hi hi' => ?_⟩
    exact Nat.not_le_of_lt (head.range i hi).2 (tail.range i hi').1

/-- A tree in which nothing is made. -/
theorem of_turned (turned : Alongside (Turned plan first) e e') (le : s ≤ s')
    (none : ∀ y ∈ e'.nodes, y.isMadeSince first = false) : Recast plan first s [e] [e'] s' := by
  have none : madeSince first [e'] = [] := by
    rw [madeSince, idsOf, Expr.nodesOf_singleton, List.map_eq_nil_iff, List.filter_eq_nil_iff]
    simpa using none
  refine ⟨.cons turned .nil, le, ?_, ?_⟩
  · simp [none]
  · simp [none]

/-- A leaf that is replaced by a leaf. -/
theorem leaf (leaf : e.isLeaf) (leaf' : e'.isLeaf) (turned : Turned plan first e e') (le : s ≤ s') :
    Recast plan first s [e] [e'] s' := by
  refine .of_turned (.leaf turned leaf leaf') le ?_
  simp [Expr.nodes_of_isLeaf leaf', Expr.isMadeSince, leaf']

/-- A node whose children came back as they were. -/
theorem kept (old : ∀ x ∈ e.nodes, x.id < first.next) (plans : plan e = .ok none)
    (children : Recast plan first s e.children e.children s') :
    Recast plan first s [e] [e] s' := by
  have spared : plan.Spares e := by
    refine Plan.spares_iff.mpr ⟨plans, fun c hc => ?_⟩
    by_contra other
    have turned := (List.forall₂_same.mp children.turned c hc).root
    exact Nat.not_le_of_lt (old c (Expr.mem_nodes_of_child hc c.self_mem_nodes)) (turned.new other)
  refine .of_turned (.node ⟨fun _ => rfl, fun other => absurd spared other⟩ children.turned)
    children.le fun x hx => ?_
  simp [Expr.isMadeSince, Nat.not_le_of_lt (old x hx)]

/-- A node that is made anew, as some child did not come back as it was. -/
theorem node (since : first ≤ s') (children : Recast plan first s e.children e'.children s')
    (changed : e'.children ≠ e.children) (new : e'.id = s'.next) :
    Recast plan first s [e] [e'] s'.advance := by
  have since := Supply.next_le_next since
  have inner : e'.isLeaf = false := by
    cases leaf : e'.isLeaf with
    | false => rfl
    | true =>
      have none := children.turned.length_eq
      rw [Expr.children_of_isLeaf leaf] at none changed
      exact absurd (List.length_eq_zero_iff.mp none).symm changed
  have made : madeSince first [e'] = s'.next :: madeSince first e'.children := by
    rw [madeSince, idsOf_singleton, if_pos (by simp [Expr.isMadeSince, inner, new, since]), new]
    rfl
  have other : ¬plan.Spares e := by
    intro spared
    refine changed (List.forall₂_eq_eq_eq ▸ (forall₂_mem children.turned).imp ?_).symm
    rintro c c' ⟨hc, -, turned⟩
    exact (turned.root.kept ((Plan.spares_iff.mp spared).2 c hc)).symm
  refine ⟨.cons (.node ⟨fun spared => absurd spared other, fun _ => new ▸ since⟩ children.turned)
    .nil, ?_, fun i hi => ?_, ?_⟩
  · exact Supply.le_trans children.le (Supply.le_advance s')
  · rw [made] at hi
    rcases List.mem_cons.mp hi with rfl | hi
    · exact ⟨Supply.next_le_next children.le, s'.next_lt_next_advance⟩
    · obtain ⟨low, high⟩ := children.range i hi
      exact ⟨low, Nat.lt_trans high s'.next_lt_next_advance⟩
  · rw [made]
    exact List.nodup_cons.mpr ⟨fun again => Nat.lt_irrefl _ (children.range _ again).2,
      children.distinct⟩

end Recast

/-! ## Walks -/

section

variable {visitor : Visitor (StateT σ Run)} {plan : Plan} {memo : σ → Replacements}
  {record : σ → Mint → σ} {start : σ} {first s : Supply} {base h : Heap} {seen : List Expr}
  {ms : List Mint} {j : Journal}

/-- A walk of the tree that does not fail recasts it. -/
def TreeRecast (visitor : Visitor (StateT σ Run)) (plan : Plan) (record : σ → Mint → σ) (start : σ)
    (first : Supply) (base : Heap) (e : Expr) : Prop :=
  ∀ (above seen : List Expr) (ms : List Mint) (h : Heap) (s : Supply) (j : Journal),
    Minted plan first base seen ms h s →
    ((walkTree visitor above e).run (ms.foldl record start)).Ends s j fun r s' _ =>
      ∀ e' st, r = .ok (e', st) → Recast plan first s [e] [e'] s'

theorem walkTrees_recasts {es : List Expr}
    (walked : ∀ e ∈ es, TreeWalked visitor plan record start first base e)
    (each : ∀ e ∈ es, TreeRecast visitor plan record start first base e)
    (H : Minted plan first base seen ms h s) (above : List Expr) :
    ((walkTrees visitor above es).run (ms.foldl record start)).Ends s j fun r s' _ =>
      ∀ es' st, r = .ok (es', st) → Recast plan first s es es' s' := by
  induction es generalizing seen ms h s j with
  | nil =>
    refine Run.Ends.pure ?_
    rintro es' st ⟨⟩
    exact .nil
  | cons e es ih =>
    unfold walkTrees
    refine Run.Ends.runBind ((Run.Ends.and (walked e List.mem_cons_self above seen ms h s j H)
      (each e List.mem_cons_self above seen ms h s j H)).imp fun r s' j' done => ?_)
    obtain ⟨⟨-, -, done⟩, head⟩ := done
    cases r with
    | error err =>
      rintro es' st ⟨⟩
    | ok out =>
      obtain ⟨e', st⟩ := out
      obtain ⟨ms', h', rfl, W⟩ := done
      refine Run.Ends.runBind ((ih (fun x hx => walked x (List.mem_cons_of_mem _ hx))
        (fun x hx => each x (List.mem_cons_of_mem _ hx)) W.minted).imp fun r s'' j'' tail => ?_)
      cases r with
      | error err =>
        rintro es' st ⟨⟩
      | ok out =>
        refine Run.Ends.pure ?_
        rintro es' st ⟨⟩
        exact (head e' _ rfl).cons (tail _ _ rfl)

theorem rebuild_recasts (H : Minted plan first base seen ms h s) (st : σ) {node : Expr}
    (hn : base.Holds node) (kept : plan node = .ok none) {results : List Expr}
    (held : ∀ r ∈ results, h.Holds r) {s₀ : Supply}
    (children : Recast plan first s₀ node.children results s) :
    ((rebuild node results : StateT σ Run Expr).run st).Ends s j fun r s' _ =>
      ∀ e' st', r = .ok (e', st') → Recast plan first s₀ [node] [e'] s' := by
  have there : h.Holds node := hn.mono H.base_le
  have len : results.length = node.children.length := children.turned.length_eq.symm
  have old : ∀ x ∈ node.nodes, x.id < first.next := fun x hx => H.base_below _ _ (hn x hx)
  unfold rebuild
  by_cases same : ((node.children.zip results).all fun p => p.2.sameNode p.1) = true
  · obtain rfl := eq_children_of_sameNode (fun c hc => there.child hc) held len same
    rw [if_pos same]
    refine Run.Ends.pure ?_
    rintro e' st' ⟨⟩
    exact .kept old kept children
  · have changed : results ≠ node.children := by
      rintro rfl
      exact same ((all_sameNode_iff rfl).mpr rfl)
    rw [if_neg same]
    refine (withChildren_ends st node (isLeaf_eq_false_of_changed same) results len).imp
      fun r s' j' done => ?_
    obtain ⟨rfl, rfl, made, rfl, new, rfl, -⟩ := done
    rintro e' st' ⟨⟩
    exact .node H.first_le children changed new

/-- By induction on the tree, along with what the walk makes of leaves. -/
theorem walkTree_recasts (F : Follows visitor plan memo record) (empty : memo start = ∅)
    (inner : ∀ x : Expr, base x.id = some x → x.isLeaf = false → plan x = .ok none) {e : Expr}
    (he : base.Holds e) : TreeRecast visitor plan record start first base e := by
  induction e using Expr.induct_children with
  | step e ih =>
  intro above seen ms h s j H
  rw [walkTree_eq]
  refine Run.Ends.runBind ((visit_ends F empty H he.root above).imp fun r s' j' done => ?_)
  obtain ⟨rfl, hs, done⟩ := done
  cases r with
  | error err => exact nofun
  | ok out =>
    obtain ⟨y?, st⟩ := out
    obtain ⟨ms', h', rfl, -, H', done⟩ := done
    cases y? with
    | some y =>
      obtain ⟨⟨v, hv⟩, rfl⟩ := done
      have leaf := isLeaf_of_planned inner he.root hv
      obtain ⟨m, hm, same, -⟩ := H'.exists_mint (List.mem_append_right seen (by simp)) hv
      have image : imageOf (ms ++ ms') e = m.node := by rw [← same, H'.imageOf_leaf hm]
      refine Run.Ends.pure ?_
      rintro e' st' ⟨⟩
      refine .leaf leaf (isLeaf_imageOf _ leaf) ⟨fun spared => ?_, fun _ => ?_⟩ hs
      · rw [(Plan.spares_iff.mp spared).1] at hv
        cases hv
      · rw [image]
        exact (H'.new m hm).1
    | none =>
      have walked : ∀ c ∈ e.children, TreeWalked visitor plan record start first base c :=
        fun c hc => walkTree_ends F empty inner (he.child hc)
      refine Run.Ends.runBind ((Run.Ends.and (walkTrees_ends walked H' (e :: above))
        (walkTrees_recasts walked (fun c hc => ih c hc (he.child hc)) H' (e :: above))).imp
        fun r s'' j'' below => ?_)
      obtain ⟨⟨rfl, hs', below⟩, children⟩ := below
      cases r with
      | error err => exact nofun
      | ok out =>
        obtain ⟨results, st⟩ := out
        obtain ⟨ms'', h'', rfl, W⟩ := below
        refine (rebuild_recasts W.minted _ he done W.held (children _ _ rfl)).imp
          fun r s₃ j₃ made e' st' hr => ?_
        exact (made e' st' hr).of_le hs

/-- A pass over the trees of a heap, with nothing replaced at the start, recasts them. -/
theorem mapM_walk_recasts (F : Follows visitor plan memo record) (empty : memo start = ∅)
    (inner : ∀ x : Expr, base x.id = some x → x.isLeaf = false → plan x = .ok none)
    {es : List Expr} (held : ∀ e ∈ es, base.Holds e) (hb : base.Below s.next) :
    ((es.mapM (walk visitor)).run start).Ends s j fun r s' _ =>
      ∀ es' st, r = .ok (es', st) → Recast plan s s es es' s' := by
  rw [mapM_walk]
  exact walkTrees_recasts (fun e he => walkTree_ends F empty inner (held e he))
    (fun e he => walkTree_recasts F empty inner (held e he)) (.start hb) []

end

/-! ## Places -/

section

variable {plan : Plan} {first s : Supply} {base h : Heap} {es es' : List Expr} {ms : List Mint}
  {x y : Expr} {p : Place}

/-- What a pass with the mints `ms` makes of the node `x` at one of its places. -/
structure Became (plan : Plan) (first : Supply) (ms : List Mint) (x y : Expr) : Prop where
  turned : Turned plan first x y
  outline : y.outline = x.mapLeaves (imageOf ms)

namespace Became

theorem isLeaf_eq (B : Became plan first ms x y) : y.isLeaf = x.isLeaf := by
  rw [← Expr.isLeaf_outline, B.outline, Expr.isLeaf_mapLeaves fun _ => isLeaf_imageOf ms]

/-- A leaf becomes its image. -/
theorem eq_imageOf (B : Became plan first ms x y) (leaf : x.isLeaf) : y = imageOf ms x := by
  have outline := B.outline
  rwa [Expr.outline_of_isLeaf (B.isLeaf_eq.trans leaf), Expr.mapLeaves_of_isLeaf _ leaf] at outline

/-- What has an identity from before the pass was there before. -/
theorem eq_of_lt (B : Became plan first ms x y) (before : y.id < first.next) : y = x := by
  by_contra other
  exact Nat.not_le_of_lt before (B.turned.new fun spared => other (B.turned.kept spared))

end Became

/-- A pass goes from place to place. -/
theorem exists_became (W : Walked plan first base [] [] base es es' ms h s)
    (T : Recast plan first first es es' s) (hx : p.node? es = some x) :
    ∃ y, p.node? es' = some y ∧ Became plan first ms x y := by
  have outlines := Alongside.of_outlines (fun _ => isLeaf_imageOf ms) W.outlines
  obtain ⟨y, hy, turned⟩ := exists_of_rel_some (hx ▸ rel_node? T.turned p)
  obtain ⟨y', hy', outline⟩ := exists_of_rel_some (hx ▸ rel_node? outlines p)
  obtain rfl := Option.some.inj (hy.symm.trans hy')
  exact ⟨y, hy, turned, outline⟩

/-- A pass has the places that there were. -/
theorem Recast.isSome_node? (T : Recast plan first first es es' s) (p : Place) :
    (p.node? es').isSome = (p.node? es).isSome := by
  cases hx : p.node? es with
  | none =>
    have hy : p.node? es' = none := eq_none_of_rel (hx ▸ rel_node? T.turned p)
    rw [hy]
  | some x =>
    obtain ⟨y, hy, -⟩ := exists_of_rel_some (hx ▸ rel_node? T.turned p)
    rw [hy]
    rfl

/-- An inner node that is made in a pass is made for one place. -/
theorem Recast.place_eq (T : Recast plan first first es es' s) {p' : Place} {y' : Expr}
    (hy : p.node? es' = some y) (hy' : p'.node? es' = some y') (inner : y.isLeaf = false)
    (new : first.next ≤ y.id) (same : y = y') : p = p' := by
  subst same
  have made : y.isMadeSince first = true := by simp [Expr.isMadeSince, inner, new]
  exact Place.inj T.distinct hy hy' made made rfl

end

end Lifted
