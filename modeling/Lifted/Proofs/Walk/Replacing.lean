import Lifted.Proofs.Walk.Frames
import Lifted.Proofs.Walk.Mint
import Mathlib.Data.List.Induction

/-!
# Walks that replace leaves by plan

A visitor follows a plan if it consults a memo of what it has replaced, and else does as the plan
says and enters the new variable into the memo. Both rewriting passes of a run have such visitors.

* `Follows`: the visitor follows the plan.
* `Walked`: what has become of trees. The mints are those of all leaves met, and every tree is the
  tree with its leaves replaced by their images.
* `walkTree_ends`, `walkTrees_ends`: a walk fails with the first failure of the plan in walk order;
  else its trees are walked.
* `mapM_walk_ends`: the same for a pass that starts with nothing replaced.
-/

namespace Lifted

variable {σ : Type}

/-- What became of the nodes that were replaced, by their identities. -/
abbrev Replacements := Std.HashMap NodeId Expr

/-- The visitor does as `plan` says, once for each node; `memo` is its memory in a state, and
`record` what a new replacement makes of the state. -/
structure Follows (visitor : Visitor (StateT σ Run)) (plan : Plan) (memo : σ → Replacements)
    (record : σ → Mint → σ) : Prop where
  hit : ∀ above x st y, (memo st)[x.id]? = some y →
    (visitor above x).run st = pure (some y, st)
  miss : ∀ above x st s j, (memo st)[x.id]? = none →
    ((visitor above x).run st).Ends s j fun r s' j' => j' = j ∧ s ≤ s' ∧
      match plan x with
      | .error e => r = .error e
      | .ok none => r = .ok (none, st)
      | .ok (some v) => ∃ id, s.next ≤ id ∧ id < s'.next ∧
          r = .ok (some (v.node id), record st ⟨x, v, id⟩)
  memo_record : ∀ st m, memo (record st m) = (memo st).insert m.leaf.id m.node

/-! ## Failures of a plan -/

theorem mapM_plan_append {plan : Plan} {xs ys : List Expr}
    (h : ∀ x ∈ xs, ∃ v, plan x = .ok v) {e : Error} :
    (xs ++ ys).mapM plan = .error e ↔ ys.mapM plan = .error e := by
  induction xs with
  | nil => rfl
  | cons x xs ih =>
    obtain ⟨v, hv⟩ := h x List.mem_cons_self
    have ih := ih fun y hy => h y (List.mem_cons_of_mem _ hy)
    rw [List.cons_append, List.mapM_cons, hv, ← ih]
    cases (xs ++ ys).mapM plan <;> simp [bind, Except.bind, pure, Except.pure]

theorem mapM_plan_append_left {plan : Plan} {xs ys : List Expr} {e : Error}
    (h : xs.mapM plan = .error e) : (xs ++ ys).mapM plan = .error e := by
  rw [List.mapM_append, h]
  rfl

theorem mapM_plan_cons {plan : Plan} {x : Expr} {xs : List Expr} {e : Error}
    (h : plan x = .error e) : (x :: xs).mapM plan = .error e := by
  rw [List.mapM_cons, h]
  rfl

/-! ## One node -/

section

variable {visitor : Visitor (StateT σ Run)} {plan : Plan} {memo : σ → Replacements}
  {record : σ → Mint → σ} {start : σ} {first : Supply} {base : Heap}

theorem memo_foldl (F : Follows visitor plan memo record) (empty : memo start = ∅)
    {seen : List Expr} {ms : List Mint} {h : Heap} {s : Supply}
    (H : Minted plan first base seen ms h s) (id : NodeId) :
    (memo (ms.foldl record start))[id]? = (ms.find? (·.leaf.id == id)).map Mint.node := by
  have distinct := H.distinct_leaf
  clear H
  induction ms using List.reverseRecOn with
  | nil => simp [empty]
  | append_singleton ms m ih =>
    obtain ⟨pw, -, apart⟩ := List.pairwise_append.mp distinct
    rw [List.foldl_append, List.foldl_cons, List.foldl_nil, F.memo_record,
      Std.HashMap.getElem?_insert, ih pw, List.find?_append]
    by_cases e : m.leaf.id = id
    · have absent : ms.find? (·.leaf.id == id) = none :=
        find?_of_absent fun m' hm' => e ▸ apart m' hm' m (by simp)
      simp [e, absent]
    · simp [e]

/-- What the visitor does at a node: it fails as the plan does, it keeps the node, or it gives the
image of a leaf. -/
theorem visit_ends (F : Follows visitor plan memo record) (empty : memo start = ∅)
    {seen : List Expr} {ms : List Mint} {h : Heap} {s : Supply} {j : Journal}
    (H : Minted plan first base seen ms h s) {x : Expr} (hx : base x.id = some x)
    (above : List Expr) :
    ((visitor above x).run (ms.foldl record start)).Ends s j fun r s' j' => j' = j ∧ s ≤ s' ∧
      match r with
      | .error e => plan x = .error e
      | .ok (y?, st) => ∃ ms' h', st = (ms ++ ms').foldl record start ∧ h ≤ h' ∧
          Minted plan first base (seen ++ [x]) (ms ++ ms') h' s' ∧
          (match y? with
          | none => plan x = .ok none
          | some y => (∃ v, plan x = .ok (some v)) ∧ y = imageOf (ms ++ ms') x) := by
  have known := memo_foldl F empty H x.id
  cases hf : ms.find? (·.leaf.id == x.id) with
  | some m =>
    obtain ⟨hm, id⟩ := of_find?_eq_some hf
    obtain rfl := H.leaf_eq hm hx id
    rw [hf] at known
    rw [F.hit above _ _ _ known]
    refine Run.Ends.pure ⟨rfl, Supply.le_refl s, [], h, by simp, Heap.le_refl h, ?_, ?_⟩
    · rw [List.append_nil]
      exact H.skip hx ⟨_, (H.sound m hm).2⟩ fun v _ => ⟨m, hm, rfl⟩
    · rw [List.append_nil]
      exact ⟨⟨_, (H.sound m hm).2⟩, (H.imageOf_leaf hm).symm⟩
  | none =>
    rw [hf] at known
    refine (F.miss above x _ s j known).imp fun r s' j' done => ?_
    obtain ⟨rfl, hs, done⟩ := done
    refine ⟨rfl, hs, ?_⟩
    cases hp : plan x with
    | error e =>
      rw [hp] at done
      subst done
      rfl
    | ok v? =>
      cases v? with
      | none =>
        rw [hp] at done
        subst done
        have H' := (H.skip hx ⟨_, hp⟩ fun v hv => by rw [hp] at hv; cases hv).later hs
        exact ⟨[], h, by simp, Heap.le_refl h, by rwa [List.append_nil], rfl⟩
      | some v =>
        rw [hp] at done
        obtain ⟨id, low, high, rfl⟩ := done
        have fresh : ∀ m ∈ ms, m.leaf.id ≠ x.id := by
          intro m hm
          simpa using List.find?_eq_none.mp hf m hm
        have H' := H.mint hx hp fresh hs low high
        refine ⟨[⟨x, v, id⟩], _, by simp, Heap.le_insert (e := v.node id) H.below low, H', ⟨v, rfl⟩,
          ?_⟩
        exact (H'.imageOf_leaf (m := ⟨x, v, id⟩) (by simp)).symm

end

/-! ## Trees -/

section

variable {plan : Plan} {first s : Supply} {base h : Heap} {seen : List Expr} {ms : List Mint}
  {j : Journal}

/-- Children that come back as they were leave their node as it was. -/
theorem eq_children_of_sameNode {cs results : List Expr} (held : ∀ c ∈ cs, h.Holds c)
    (held' : ∀ r ∈ results, h.Holds r) (len : results.length = cs.length)
    (same : ((cs.zip results).all fun p => p.2.sameNode p.1) = true) : results = cs := by
  refine List.ext_getElem len fun i hi hi' => ?_
  have hz : i < (cs.zip results).length := by
    rw [List.length_zip]
    omega
  have := List.all_eq_true.mp same _ (List.getElem_mem hz)
  rw [List.getElem_zip] at this
  have same : results[i].id = cs[i].id := by simpa [Expr.sameNode] using this
  exact (held' _ (List.getElem_mem hi)).eq (held _ (List.getElem_mem hi')) same

/-- A node that is made anew. -/
theorem withChildren_ends (st : σ) (node : Expr) (inner : node.isLeaf = false) (results : List Expr)
    (len : results.length = node.children.length) :
    ((node.withChildren results : StateT σ Run Expr).run st).Ends s j fun r s' j' =>
      j' = j ∧ s' = s.advance ∧ ∃ made, r = .ok (made, st) ∧ made.id = s.next ∧
        made.children = results ∧
        ∀ f, results.map Expr.outline = node.children.map (Expr.mapLeaves f) →
          made.outline = node.mapLeaves f := by
  cases node with
  | const | var => cases inner
  | mem id address size =>
    obtain ⟨a, b, rfl⟩ := List.length_eq_two.mp len
    refine ⟨rfl, rfl, .mem s.next a b, rfl, rfl, rfl, fun f agree => ?_⟩
    simp only [Expr.children, List.map_cons, List.map_nil, List.cons.injEq, and_true] at agree
    rw [Expr.mapLeaves, ← agree.1, ← agree.2]
    rfl
  | op id kind operands =>
    refine ⟨rfl, rfl, .op s.next kind results, rfl, rfl, rfl, fun f agree => ?_⟩
    unfold Expr.outline
    rw [Expr.mapLeaves_op, Expr.mapLeaves_op]
    exact congrArg (Expr.op 0 kind) agree

/-- A node that does not come back as it was has children. -/
theorem isLeaf_eq_false_of_changed {node : Expr} {results : List Expr}
    (changed : ¬((node.children.zip results).all fun p => p.2.sameNode p.1) = true) :
    node.isLeaf = false := by
  cases leaf : node.isLeaf with
  | false => rfl
  | true => simp [Expr.children_of_isLeaf leaf] at changed

theorem rebuild_ends (H : Minted plan first base seen ms h s) (st : σ) {node : Expr}
    (hn : base.Holds node) (kept : plan node = .ok none) {results : List Expr}
    (len : results.length = node.children.length) (held : ∀ r ∈ results, h.Holds r)
    (agree : results.map Expr.outline = node.children.map (Expr.mapLeaves (imageOf ms))) :
    ((rebuild node results : StateT σ Run Expr).run st).Ends s j fun r s' j' =>
      j' = j ∧ s ≤ s' ∧ ∃ e' h', r = .ok (e', st) ∧ h ≤ h' ∧ Minted plan first base seen ms h' s' ∧
        h'.Holds e' ∧ e'.outline = node.mapLeaves (imageOf ms) := by
  have there : h.Holds node := hn.mono H.base_le
  unfold rebuild
  by_cases same : ((node.children.zip results).all fun p => p.2.sameNode p.1) = true
  · obtain rfl := eq_children_of_sameNode (fun c hc => there.child hc) held len same
    rw [if_pos same]
    refine Run.Ends.pure ⟨rfl, Supply.le_refl s, node, h, rfl, Heap.le_refl h, H, there, ?_⟩
    exact Expr.mapLeaves_eq_of_children (fun _ => (H.imageOf_kept hn.root kept).symm) agree
  · rw [if_neg same]
    refine (withChildren_ends st node (isLeaf_eq_false_of_changed same) results len).imp
      fun r s' j' done => ?_
    obtain ⟨rfl, rfl, made, rfl, new, rfl, content⟩ := done
    refine ⟨rfl, Supply.le_advance s, made, h.insert made, rfl,
      Heap.le_insert H.below (Nat.le_of_eq new.symm), H.make new,
      Heap.holds_insert H.below (Nat.le_of_eq new.symm) held, content _ agree⟩

/-- What has become of the trees `es` in a walk that went on from `seen`, `ms`, `h` and `s`. -/
structure Walked (plan : Plan) (first : Supply) (base : Heap) (seen : List Expr) (ms : List Mint)
    (h : Heap) (es results : List Expr) (ms' : List Mint) (h' : Heap) (s' : Supply) : Prop where
  le : h ≤ h'
  minted : Minted plan first base (seen ++ Expr.nodesOf es) (ms ++ ms') h' s'
  held : ∀ r ∈ results, h'.Holds r
  outlines : results.map Expr.outline = es.map (Expr.mapLeaves (imageOf (ms ++ ms')))

/-- Later mints change nothing in a tree that is walked. -/
theorem Minted.mapLeaves_append (H : Minted plan first base seen ms h s) {seen' : List Expr}
    {ms' : List Mint} {h' : Heap} {s' : Supply}
    (H' : Minted plan first base seen' (ms ++ ms') h' s') {e : Expr}
    (he : ∀ x ∈ e.nodes, x ∈ seen) :
    e.mapLeaves (imageOf (ms ++ ms')) = e.mapLeaves (imageOf ms) :=
  Expr.mapLeaves_congr fun x hx _ => H.imageOf_append H' (he x hx)

theorem Walked.nil (H : Minted plan first base seen ms h s) :
    Walked plan first base seen ms h [] [] [] h s where
  le := Heap.le_refl h
  minted := by simpa using H
  held := by simp
  outlines := rfl

/-- One tree and then the others. -/
theorem Walked.cons {e e' : Expr} {es es' : List Expr} {ms' ms'' : List Mint} {h' h'' : Heap}
    {s' s'' : Supply} (head : Walked plan first base seen ms h [e] [e'] ms' h' s')
    (tail : Walked plan first base (seen ++ e.nodes) (ms ++ ms') h' es es' ms'' h'' s'') :
    Walked plan first base seen ms h (e :: es) (e' :: es') (ms' ++ ms'') h'' s'' where
  le := Heap.le_trans head.le tail.le
  minted := by simpa [Expr.nodesOf_cons, List.append_assoc] using tail.minted
  held r hr := by
    rcases List.mem_cons.mp hr with rfl | hr
    · exact (head.held r (by simp)).mono tail.le
    · exact tail.held r hr
  outlines := by
    have first := head.outlines
    have seen : ∀ x ∈ e.nodes, x ∈ seen ++ Expr.nodesOf [e] := by
      intro x hx
      simp [Expr.nodesOf_singleton, hx]
    simp only [List.map_cons, List.map_nil, List.cons.injEq, and_true] at first
    rw [List.map_cons, List.map_cons, ← List.append_assoc, ← tail.outlines, first,
      head.minted.mapLeaves_append tail.minted seen]

/-- A node, met in the heap `h'`, and then its children. -/
theorem Walked.node {e e' : Expr} {results : List Expr} {ms' ms'' : List Mint} {h' h'' h₃ : Heap}
    {s' s'' : Supply} (met : h ≤ h')
    (below : Walked plan first base (seen ++ [e]) (ms ++ ms') h' e.children results ms'' h'' s')
    (le : h'' ≤ h₃) (minted : Minted plan first base (seen ++ [e] ++ Expr.nodesOf e.children)
      (ms ++ ms' ++ ms'') h₃ s'') (held : h₃.Holds e')
    (outline : e'.outline = e.mapLeaves (imageOf (ms ++ ms' ++ ms''))) :
    Walked plan first base seen ms h [e] [e'] (ms' ++ ms'') h₃ s'' where
  le := Heap.le_trans met (Heap.le_trans below.le le)
  minted := by
    rw [Expr.nodesOf_singleton, Expr.nodes_eq_nodesOf, ← List.append_assoc]
    simpa using minted
  held := by simpa using held
  outlines := by simp [outline]

variable {visitor : Visitor (StateT σ Run)} {memo : σ → Replacements} {record : σ → Mint → σ}
  {start : σ}

/-- The walk of one tree: the first failure of the plan, or the tree with its leaves replaced. -/
def TreeWalked (visitor : Visitor (StateT σ Run)) (plan : Plan) (record : σ → Mint → σ) (start : σ)
    (first : Supply) (base : Heap) (e : Expr) : Prop :=
  ∀ (above seen : List Expr) (ms : List Mint) (h : Heap) (s : Supply) (j : Journal),
    Minted plan first base seen ms h s →
    ((walkTree visitor above e).run (ms.foldl record start)).Ends s j fun r s' j' =>
      j' = j ∧ s ≤ s' ∧
      match r with
      | .error err => e.nodes.mapM plan = .error err
      | .ok (e', st) => ∃ ms' h', st = (ms ++ ms').foldl record start ∧
          Walked plan first base seen ms h [e] [e'] ms' h' s'

/-- Several trees, if the walk does so with each. -/
theorem walkTrees_ends {es : List Expr}
    (each : ∀ e ∈ es, TreeWalked visitor plan record start first base e)
    (H : Minted plan first base seen ms h s) (above : List Expr) :
    ((walkTrees visitor above es).run (ms.foldl record start)).Ends s j fun r s' j' =>
      j' = j ∧ s ≤ s' ∧
      match r with
      | .error err => (Expr.nodesOf es).mapM plan = .error err
      | .ok (es', st) => ∃ ms' h', st = (ms ++ ms').foldl record start ∧
          Walked plan first base seen ms h es es' ms' h' s' := by
  induction es generalizing seen ms h s with
  | nil => exact Run.Ends.pure ⟨rfl, Supply.le_refl s, [], h, by simp, .nil H⟩
  | cons e es ih =>
    unfold walkTrees
    refine Run.Ends.runBind ((each e List.mem_cons_self above seen ms h s j H).imp
      fun r s' j' done => ?_)
    obtain ⟨rfl, hs, done⟩ := done
    cases r with
    | error err =>
      refine ⟨rfl, hs, ?_⟩
      rw [Expr.nodesOf_cons]
      exact mapM_plan_append_left done
    | ok out =>
      obtain ⟨e', st⟩ := out
      obtain ⟨ms', h', rfl, head⟩ := done
      have H' := head.minted
      rw [Expr.nodesOf_singleton] at H'
      refine Run.Ends.runBind ((ih (fun x hx => each x (List.mem_cons_of_mem _ hx)) H').imp
        fun r s'' j'' done => ?_)
      obtain ⟨rfl, hs', done⟩ := done
      cases r with
      | error err =>
        refine ⟨rfl, Supply.le_trans hs hs', ?_⟩
        rw [Expr.nodesOf_cons]
        exact (mapM_plan_append fun x hx => H'.planned x (List.mem_append_right _ hx)).mpr done
      | ok out =>
        obtain ⟨es', st⟩ := out
        obtain ⟨ms'', h'', rfl, tail⟩ := done
        exact Run.Ends.pure ⟨rfl, Supply.le_trans hs hs', ms' ++ ms'', h'', by simp,
          head.cons tail⟩

/-- What a plan replaces is a leaf, if it keeps every inner node. -/
theorem isLeaf_of_planned
    (inner : ∀ x : Expr, base x.id = some x → x.isLeaf = false → plan x = .ok none) {e : Expr}
    (root : base e.id = some e) {v : Variable} (hv : plan e = .ok (some v)) : e.isLeaf := by
  cases leaf : e.isLeaf with
  | true => rfl
  | false =>
    rw [inner e root leaf] at hv
    cases hv

/-- By induction on the tree: a replaced leaf is its image; any other node is walked below. -/
theorem walkTree_ends (F : Follows visitor plan memo record) (empty : memo start = ∅)
    (inner : ∀ x : Expr, base x.id = some x → x.isLeaf = false → plan x = .ok none) {e : Expr}
    (he : base.Holds e) :
    TreeWalked visitor plan record start first base e := by
  induction e using Expr.induct_children with
  | step e ih =>
  intro above seen ms h s j H
  rw [walkTree_eq]
  refine Run.Ends.runBind ((visit_ends F empty H he.root above).imp fun r s' j' done => ?_)
  obtain ⟨rfl, hs, done⟩ := done
  cases r with
  | error err =>
    refine ⟨rfl, hs, ?_⟩
    rw [Expr.nodes_eq]
    exact mapM_plan_cons done
  | ok out =>
    obtain ⟨y?, st⟩ := out
    obtain ⟨ms', h', rfl, le, H', done⟩ := done
    cases y? with
    | some y =>
      obtain ⟨⟨v, hv⟩, rfl⟩ := done
      have leaf := isLeaf_of_planned inner he.root hv
      refine Run.Ends.pure ⟨rfl, hs, ms', h', rfl, le, ?_, ?_, ?_⟩
      · rwa [Expr.nodesOf_singleton, Expr.nodes_of_isLeaf leaf]
      · simpa using H'.holds_imageOf leaf (by simp)
      · simp [Expr.mapLeaves_of_isLeaf _ leaf, Expr.outline_of_isLeaf (isLeaf_imageOf _ leaf)]
    | none =>
      refine Run.Ends.runBind ((walkTrees_ends (fun c hc => ih c hc (he.child hc)) H'
        (e :: above)).imp fun r s'' j'' walked => ?_)
      obtain ⟨rfl, hs', walked⟩ := walked
      cases r with
      | error err =>
        refine ⟨rfl, Supply.le_trans hs hs', ?_⟩
        rw [Expr.nodes_eq_nodesOf]
        have planned : ∀ x ∈ [e], ∃ v?, plan x = .ok v? := by simpa using ⟨_, done⟩
        exact (mapM_plan_append planned).mpr walked
      | ok out =>
        obtain ⟨results, st⟩ := out
        obtain ⟨ms'', h'', rfl, below⟩ := walked
        have len : results.length = e.children.length := by
          simpa using congrArg List.length below.outlines
        refine (rebuild_ends below.minted _ he done len below.held below.outlines).imp
          fun r s₃ j₃ made => ?_
        obtain ⟨rfl, hs'', e', h₃, rfl, le', H₃, held, outline⟩ := made
        refine ⟨rfl, Supply.le_trans hs (Supply.le_trans hs' hs''), ms' ++ ms'', h₃, by simp, ?_⟩
        exact .node le below le' H₃ held outline

/-- A pass over the trees of a heap, with nothing replaced at the start. -/
theorem mapM_walk_ends (F : Follows visitor plan memo record) (empty : memo start = ∅)
    (inner : ∀ x : Expr, base x.id = some x → x.isLeaf = false → plan x = .ok none)
    {es : List Expr} (held : ∀ e ∈ es, base.Holds e) (hb : base.Below s.next) :
    ((es.mapM (walk visitor)).run start).Ends s j fun r s' j' =>
      j' = j ∧ s ≤ s' ∧
      match r with
      | .error err => (Expr.nodesOf es).mapM plan = .error err
      | .ok (es', st) => ∃ ms h', st = ms.foldl record start ∧
          Walked plan s base [] [] base es es' ms h' s' := by
  rw [mapM_walk]
  exact walkTrees_ends (fun e he => walkTree_ends F empty inner (held e he)) (.start hb) []

end

end Lifted
