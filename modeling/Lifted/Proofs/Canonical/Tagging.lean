import Lifted.Canonical.Ranking
import Lifted.Proofs.Canonical.Roles
import Lifted.Proofs.Walk.Replacing

/-!
# What tagging leaves behind

Tagging follows its plan, so its mints are the distinct leaves that have a role, and every tree is
the tree with its leaves replaced by their images. The two tables say of every mint what it stands
for, and of no other node anything.

* `referentsOf`: the table of the mints whose leaves have a key; `getElem?_referentsOf` and
  `size_referentsOf` say what is in it.
* `tagNode_follows`: tagging does as its plan says.
* `TaggedFrom`: the batch `t` has come about by tagging.
* `tag_ends`: tagging fails with the first failure of its plan, or leaves such a batch behind.
* `Position.Over`: a position of the tagged batch and the position of the batch that it comes from.
* `TaggedFrom.registerAt`, `TaggedFrom.addressAt`: what the tables say at a position.
-/

namespace Lifted

/-! ## Tables -/

section

variable {κ : Type} (key : Expr → Option κ)

/-- Enters what a mint stands for, if its leaf has a key. -/
def enter (r : Referents κ) (m : Mint) : Referents κ :=
  match key m.leaf with
  | some k => r.insert m.id ⟨m.leaf, k⟩
  | none => r

/-- What those mints stand for whose leaves have keys. -/
def referentsOf (ms : List Mint) : Referents κ := ms.foldl (enter key) ∅

variable {key} {ms : List Mint}

theorem getElem?_referentsOf (distinct : ms.Pairwise fun m m' => m.id ≠ m'.id) (i : NodeId) :
    (referentsOf key ms)[i]? =
      (ms.find? (·.id == i)).bind fun m => (key m.leaf).map (Referent.mk m.leaf) := by
  induction ms using List.reverseRecOn with
  | nil => simp [referentsOf]
  | append_singleton ms m ih =>
    obtain ⟨pw, -, apart⟩ := List.pairwise_append.mp distinct
    have ih := ih pw
    have here : m.id = i → ms.find? (·.id == i) = none := fun same =>
      find?_of_absent fun m' hm' => same ▸ apart m' hm' m (by simp)
    unfold referentsOf
    rw [List.foldl_append, List.foldl_cons, List.foldl_nil, enter, ← referentsOf, List.find?_append]
    by_cases same : m.id = i
    · rw [here same] at ih ⊢
      cases hk : key m.leaf with
      | none => simp [ih, same, hk]
      | some k => simp [same, hk]
    · cases hk : key m.leaf with
      | none => simp [ih, same]
      | some k => simp [Std.HashMap.getElem?_insert, ih, same]

/-- What the table says of a mint. -/
theorem getElem?_referentsOf_id (distinct : ms.Pairwise fun m m' => m.id ≠ m'.id) {m : Mint}
    (hm : m ∈ ms) : (referentsOf key ms)[m.id]? = (key m.leaf).map (Referent.mk m.leaf) := by
  rw [getElem?_referentsOf distinct, find?_of_distinct (f := Mint.id) distinct hm,
    Option.bind_some]

theorem size_referentsOf (distinct : ms.Pairwise fun m m' => m.id ≠ m'.id) :
    (referentsOf key ms).size = (ms.filterMap fun m => key m.leaf).length := by
  induction ms using List.reverseRecOn with
  | nil => simp [referentsOf]
  | append_singleton ms m ih =>
    obtain ⟨pw, -, apart⟩ := List.pairwise_append.mp distinct
    have new : m.id ∉ referentsOf key ms := by
      have absent : ms.find? (·.id == m.id) = none :=
        find?_of_absent fun m' hm' => apart m' hm' m (by simp)
      rw [← Std.HashMap.isSome_getElem?_iff_mem, getElem?_referentsOf pw, absent]
      simp
    unfold referentsOf
    rw [List.foldl_append, List.foldl_cons, List.foldl_nil, enter, ← referentsOf,
      List.filterMap_append, List.length_append, ← ih pw]
    cases hk : key m.leaf with
    | none => simp [hk]
    | some k => simp [Std.HashMap.size_insert, new, hk]

end

/-! ## Tagging follows its plan -/

section

variable (R : Registers) (I : ImageQueries) (o : Options)

/-- What tagging writes down about a new placeholder or thunk. -/
def recordTag (t : Tagging) (m : Mint) : Tagging where
  replaced := t.replaced.insert m.leaf.id m.node
  registers := enter R.keyOf t.registers m
  addresses := enter (addressOf I o) t.addresses m

theorem replaced_recordTag (t : Tagging) (m : Mint) :
    (recordTag R I o t m).replaced = t.replaced.insert m.leaf.id m.node := rfl

theorem foldl_recordTag (ms : List Mint) (t : Tagging) :
    (ms.foldl (recordTag R I o) t).registers = ms.foldl (enter R.keyOf) t.registers ∧
      (ms.foldl (recordTag R I o) t).addresses = ms.foldl (enter (addressOf I o)) t.addresses := by
  induction ms generalizing t with
  | nil => exact ⟨rfl, rfl⟩
  | cons m ms ih => exact ih _

theorem tagNode_follows :
    Follows (tagNode R I o) (tagPlan R I o) Tagging.replaced (recordTag R I o) where
  hit above x st y known := by
    unfold tagNode
    rw [StateT.run_bind, StateT.run_get, pure_bind]
    simp only [known]
    rfl
  miss above x st s j known := by
    refine Run.Ends.runBind (Run.Ends.pure ?_)
    simp only [known]
    refine Run.Ends.runBind ?_
    rw [Run.run_liftM_except]
    refine Run.Ends.map (Run.Ends.lift ?_)
    unfold tagPlan
    cases hr : roleOf R I o x with
    | error err => exact ⟨rfl, Supply.le_refl s, rfl⟩
    | ok role =>
      -- What is written down of a leaf is a matter of its role, as is what takes its place.
      have name : R.keyOf x = _ := keyOf_eq (I := I) (o := o)
      have value : addressOf I o x = _ := addressOf_eq (R := R)
      rw [← eq_roleBy hr] at name value
      cases role with
      | kept => exact ⟨rfl, Supply.le_refl s, rfl⟩
      | thunk | register | address =>
        refine ⟨rfl, Supply.le_advance s, s.next, Nat.le_refl _, s.next_lt_next_advance, ?_⟩
        unfold recordTag enter
        rw [name, value]
        rfl
  memo_record := replaced_recordTag R I o

/-- The batch `t` has come about by tagging the trees `es` of the heap `base`, with the mints
`ms`. -/
structure TaggedFrom (s : Supply) (base : Heap) (es : List Expr) (t : Tagged) (ms : List Mint)
    (h : Heap) (s' : Supply) : Prop where
  walked : Walked (tagPlan R I o) s base [] [] base es t.trees ms h s'
  registers : t.registers = referentsOf R.keyOf ms
  addresses : t.addresses = referentsOf (addressOf I o) ms

variable {R I o} {s : Supply} {base : Heap} {es : List Expr}

theorem tag_ends {j : Journal} (held : ∀ e ∈ es, base.Holds e) (hb : base.Below s.next) :
    (tag R I o es).Ends s j fun r s' _ => s ≤ s' ∧
      match r with
      | .error err => (Expr.nodesOf es).mapM (tagPlan R I o) = .error err
      | .ok t => ∃ ms h, TaggedFrom R I o s base es t ms h s' := by
  refine Run.Ends.bind ((mapM_walk_ends (tagNode_follows R I o) rfl (fun _ _ inner =>
    tagPlan_inner inner) held hb).imp fun r s' j' done => ?_)
  obtain ⟨rfl, hs, done⟩ := done
  cases r with
  | error err => exact ⟨hs, done⟩
  | ok out =>
    obtain ⟨trees, tagging⟩ := out
    obtain ⟨ms, h, rfl, walked⟩ := done
    refine Run.Ends.bind (Run.Ends.note ?_)
    have tables := foldl_recordTag R I o ms Tagging.empty
    exact Run.Ends.pure ⟨hs, ms, h, walked, tables.1, tables.2⟩

end

/-! ## Positions of a tagged batch -/

/-- The position has come about from the position `q` by a change of leaves. -/
def Position.Over (f : Expr → Expr) (p q : Position) : Prop :=
  p.mapLeaves (fun x => x) = q.mapLeaves f

namespace Position.Over

variable {f : Expr → Expr} {p q : Position}

theorem node (origin : p.Over f q) : p.node.outline = q.node.mapLeaves f :=
  congrArg Position.node origin

theorem path (origin : p.Over f q) :
    p.path.map Expr.outline = q.path.map (Expr.mapLeaves f) := by
  have above : p.above.map Expr.outline = q.above.map (Expr.mapLeaves f) :=
    congrArg Position.above origin
  unfold Position.path
  rw [List.map_reverse, List.map_reverse, List.map_cons, List.map_cons, above, origin.node]

theorem of_outlines {es es' : List Expr} (hf : ∀ x : Expr, x.isLeaf → (f x).isLeaf)
    (same : es'.map Expr.outline = es.map (Expr.mapLeaves f)) :
    List.Forall₂ (Position.Over f) (es'.flatMap Expr.positions) (es.flatMap Expr.positions) := by
  have positions := congrArg (List.flatMap Expr.positions) same
  have origin : ∀ (g : Expr → Expr), (∀ x : Expr, x.isLeaf → (g x).isLeaf) → ∀ xs : List Expr,
      (xs.map (Expr.mapLeaves g)).flatMap Expr.positions =
        (xs.flatMap Expr.positions).map (Position.mapLeaves g) := by
    intro g hg xs
    rw [List.flatMap_map, List.map_flatMap]
    exact List.flatMap_congr fun x _ => Expr.positions_mapLeaves hg x
  have id : es'.map Expr.outline = es'.map (Expr.mapLeaves fun x => x) := rfl
  rw [id, origin _ (fun _ h => h), origin f hf] at positions
  exact map_eq_map_iff.mp positions

end Position.Over

namespace TaggedFrom

variable {R : Registers} {I : ImageQueries} {o : Options} {s s' : Supply} {base h : Heap}
  {es : List Expr} {t : Tagged} {ms : List Mint} {κ : Type} {key : Expr → Option κ} {p q : Position}

theorem minted (G : TaggedFrom R I o s base es t ms h s') :
    Minted (tagPlan R I o) s base (Expr.nodesOf es) ms h s' := G.walked.minted

theorem distinct (G : TaggedFrom R I o s base es t ms h s') :
    ms.Pairwise fun m m' => m.id ≠ m'.id := G.minted.distinct

/-- The positions of the tagged batch are over those of the batch. -/
theorem positions (G : TaggedFrom R I o s base es t ms h s') :
    List.Forall₂ (Position.Over (imageOf ms)) (t.trees.flatMap Expr.positions)
      (es.flatMap Expr.positions) :=
  Position.Over.of_outlines (fun _ => isLeaf_imageOf ms) G.walked.outlines

theorem holds_node (G : TaggedFrom R I o s base es t ms h s')
    (hp : p ∈ t.trees.flatMap Expr.positions) : h.Holds p.node := by
  obtain ⟨e, he, hp⟩ := List.mem_flatMap.mp hp
  exact (G.walked.held e he).node (Expr.node_mem_nodes hp)

/-- At a leaf stands its image. -/
theorem node_eq_imageOf (origin : p.Over (imageOf ms) q) (leaf : q.node.isLeaf) :
    p.node = imageOf ms q.node := by
  have content := origin.node
  rw [Expr.mapLeaves_of_isLeaf _ leaf] at content
  have leaf' : p.node.isLeaf := by
    rw [← Expr.isLeaf_outline, content]
    exact isLeaf_imageOf ms leaf
  rwa [Expr.outline_of_isLeaf leaf'] at content

/-- Where a leaf has a key, its mint stands. -/
theorem exists_mint (G : TaggedFrom R I o s base es t ms h s')
    (kept : ∀ x, (roleBy R I o x).placeholder? I o = none → key x = none)
    (hq : q ∈ es.flatMap Expr.positions) (origin : p.Over (imageOf ms) q) {k : κ}
    (hk : key q.node = some k) : ∃ m ∈ ms, m.leaf = q.node ∧ m.node = p.node := by
  obtain ⟨v?, hv⟩ := G.minted.planned q.node (Expr.node_mem_nodesOf hq)
  have planned := tagPlan_eq hv
  cases v? with
  | none =>
    rw [kept q.node planned.symm] at hk
    cases hk
  | some v =>
    have leaf : q.node.isLeaf = true := by
      cases leaf : q.node.isLeaf with
      | true => rfl
      | false => rw [tagPlan_inner leaf] at hv; cases hv
    obtain ⟨m, hm, same, -⟩ := G.minted.exists_mint (Expr.node_mem_nodesOf hq) hv
    refine ⟨m, hm, same, ?_⟩
    rw [node_eq_imageOf origin leaf, ← same, G.minted.imageOf_leaf hm]

/-- The table has at a position the leaf that stood there, if that has a key. A node that is no
image of a leaf has an identity that no mint has. -/
theorem referentAt (G : TaggedFrom R I o s base es t ms h s')
    (kept : ∀ x, (roleBy R I o x).placeholder? I o = none → key x = none)
    (hp : p ∈ t.trees.flatMap Expr.positions) (hq : q ∈ es.flatMap Expr.positions)
    (origin : p.Over (imageOf ms) q) :
    (referentsOf key ms)[p.node.id]? = (key q.node).map (Referent.mk q.node) := by
  cases hk : key q.node with
  | some k =>
    obtain ⟨m, hm, same, node⟩ := G.exists_mint kept hq origin hk
    have id : m.id = p.node.id := by
      rw [← node]
      rfl
    rw [← id, getElem?_referentsOf_id G.distinct hm, same, hk]
  | none =>
    rw [getElem?_referentsOf G.distinct]
    cases hf : ms.find? (·.id == p.node.id) with
    | none => rfl
    | some m =>
      obtain ⟨hm, id⟩ := of_find?_eq_some hf
      have node : p.node = m.node := by
        have held := (G.minted.new m hm).2
        rw [id, (G.holds_node hp).root] at held
        exact Option.some.inj held
      have leaf : q.node.isLeaf := by
        rw [← Expr.isLeaf_mapLeaves (fun _ => isLeaf_imageOf ms) q.node, ← origin.node,
          Expr.isLeaf_outline, node]
        rfl
      have image := node_eq_imageOf origin leaf
      have same : m.leaf = q.node := by
        obtain ⟨v?, hv⟩ := G.minted.planned q.node (Expr.node_mem_nodesOf hq)
        have there := G.minted.held q.node (Expr.node_mem_nodesOf hq)
        cases v? with
        | none =>
          -- A node that is kept has an identity from before the first mint.
          rw [G.minted.imageOf_kept there hv] at image
          have old := G.minted.base_below _ _ there
          have new := (G.minted.new m hm).1
          rw [id, image] at new
          exact absurd old (Nat.not_lt.mpr new)
        | some v =>
          obtain ⟨m', hm', same, -⟩ := G.minted.exists_mint (Expr.node_mem_nodesOf hq) hv
          rw [← same, G.minted.imageOf_leaf hm'] at image
          have ids : m'.id = m.id := by
            rw [id, image]
            rfl
          rw [← G.minted.eq_of_id_eq hm' hm (.inl ids), same]
      rw [Option.bind_some, same, hk]

theorem registerAt (G : TaggedFrom R I o s base es t ms h s')
    (hp : p ∈ t.trees.flatMap Expr.positions) (hq : q ∈ es.flatMap Expr.positions)
    (origin : p.Over (imageOf ms) q) :
    t.registers[p.node.id]? = (R.keyOf q.node).map (Referent.mk q.node) := by
  rw [G.registers]
  exact G.referentAt (fun _ => keyOf_of_kept) hp hq origin

theorem addressAt (G : TaggedFrom R I o s base es t ms h s')
    (hp : p ∈ t.trees.flatMap Expr.positions) (hq : q ∈ es.flatMap Expr.positions)
    (origin : p.Over (imageOf ms) q) :
    t.addresses[p.node.id]? = (addressOf I o q.node).map (Referent.mk q.node) := by
  rw [G.addresses]
  exact G.referentAt (fun _ => addressOf_of_kept) hp hq origin

end TaggedFrom

end Lifted
