import Lifted.Proofs.Expr.Heap
import Lifted.Proofs.Expr.Remake
import Lifted.Proofs.Lists
import Lifted.Proofs.Run

/-!
# Minted leaves

A pass over a batch puts new variables in place of some leaves. A plan says which leaves and which
variables, by content; a leaf met again gets the variable that was made when it was first met. The
list of the variables made, in the order in which they were made, says all that the pass has done.

* `Variable`, `Plan`, `Mint`: what a leaf becomes, for every leaf, and one such replacement.
* `Expr.rank`: the place in the walk at which a node is first met; `Expr.rank_remake`: it is the
  same for a node that is made again.
* `Minted`: the mints so far are those of the leaves met so far. Leaves met earlier have the smaller
  identities, and the heap holds every mint under an identity that no earlier node had.
* `Minted.eq_or_lt`: any two mints are in order.
* `Minted.skip`, `Minted.mint`, `Minted.make`: a node is met that has no mint to be made, one that
  has, and a node is made that is no mint.
* `imageOf`: what a leaf has become; `Minted.imageOf_inj`: no two leaves become one.
-/

namespace Lifted

/-- The content of a variable. -/
structure Variable where
  name : String
  bytes : UInt8
  label : Option String
  deriving DecidableEq, Repr

/-- The variable with the identity `id`. -/
def Variable.node (v : Variable) (id : NodeId) : Expr := .var id v.name v.bytes v.label

/-- What a pass is to do with a node: to fail, to keep it, or to put a variable in its place. -/
abbrev Plan := Expr → Except Error (Option Variable)

/-- A replaced leaf, with the variable in its place and the identity of that variable. -/
structure Mint where
  leaf : Expr
  var : Variable
  id : NodeId

/-- The node in place of the leaf. -/
def Mint.node (m : Mint) : Expr := m.var.node m.id

/-- The first place of `x` in a walk that meets `nodes` in this order. -/
def Expr.rank (nodes : List Expr) (x : Expr) : Nat := (nodes.map Expr.id).idxOf x.id

theorem Expr.rank_append {nodes more : List Expr} {x : Expr} (hx : x ∈ nodes) :
    Expr.rank (nodes ++ more) x = Expr.rank nodes x := by
  rw [rank, List.map_append, List.idxOf_append, if_pos (List.mem_map_of_mem hx), rank]

theorem Expr.rank_lt_length {nodes : List Expr} {x : Expr} (hx : x ∈ nodes) :
    Expr.rank nodes x < nodes.length := by
  have := List.idxOf_lt_length_of_mem (List.mem_map_of_mem (f := Expr.id) hx)
  rwa [List.length_map] at this

theorem Expr.rank_new {nodes : List Expr} {x : Expr} (hx : ∀ y ∈ nodes, y.id ≠ x.id) :
    Expr.rank (nodes ++ [x]) x = nodes.length := by
  have new : x.id ∉ nodes.map Expr.id := by
    intro h
    obtain ⟨y, hy, same⟩ := List.mem_map.mp h
    exact hx y hy same
  unfold rank
  rw [List.map_append, List.idxOf_append, if_neg new]
  simp

/-- Nodes that are made again are first met in the same order, if no two identities become one. -/
theorem Expr.rank_remake {node : NodeId → NodeId} {f : Expr → Expr}
    (hf : ∀ x : Expr, x.isLeaf → (f x).isLeaf) (hid : ∀ x : Expr, x.isLeaf → (f x).id = node x.id)
    {es : List Expr}
    (inj : ∀ x ∈ nodesOf es, ∀ y ∈ nodesOf es, node x.id = node y.id → x.id = y.id) {x : Expr}
    (hx : x ∈ nodesOf es) :
    (x.remake node f).rank (nodesOf (es.map (remake node f))) = x.rank (nodesOf es) := by
  have ids : (nodesOf (es.map (remake node f))).map Expr.id =
      ((nodesOf es).map Expr.id).map node := by
    rw [nodesOf_remake hf, List.map_map, List.map_map]
    exact List.map_congr_left fun x _ => id_remake hid x
  unfold rank
  rw [ids, id_remake hid, idxOf_map]
  intro i hi same
  obtain ⟨y, hy, rfl⟩ := List.mem_map.mp hi
  exact inj y hy x hx same

/-- What the leaf `x` has become. -/
def imageOf (ms : List Mint) (x : Expr) : Expr :=
  ((ms.find? (·.leaf.id == x.id)).map Mint.node).getD x

theorem isLeaf_imageOf (ms : List Mint) {x : Expr} (h : x.isLeaf) : (imageOf ms x).isLeaf := by
  unfold imageOf
  cases ms.find? (·.leaf.id == x.id) with
  | none => exact h
  | some m => rfl

/-- The nodes `seen` of a walk over trees in the heap `base` are met, and `ms` are the mints made
for them since the supply was `first`; now it is `s`, and `h` holds all nodes there are. -/
structure Minted (plan : Plan) (first : Supply) (base : Heap) (seen : List Expr) (ms : List Mint)
    (h : Heap) (s : Supply) : Prop where
  base_below : base.Below first.next
  base_le : base ≤ h
  first_le : first ≤ s
  below : h.Below s.next
  held : ∀ x ∈ seen, base x.id = some x
  planned : ∀ x ∈ seen, ∃ v, plan x = .ok v
  sound : ∀ m ∈ ms, m.leaf ∈ seen ∧ plan m.leaf = .ok (some m.var)
  complete : ∀ x ∈ seen, ∀ v, plan x = .ok (some v) → ∃ m ∈ ms, m.leaf = x
  new : ∀ m ∈ ms, first.next ≤ m.id ∧ h m.id = some m.node
  ordered : ms.Pairwise fun m m' => m.id < m'.id ∧ m.leaf.rank seen < m'.leaf.rank seen

namespace Minted

variable {plan : Plan} {first s s' : Supply} {base h h' : Heap} {seen seen' : List Expr}
  {ms ms' : List Mint} {x : Expr}

theorem start (hb : base.Below first.next) : Minted plan first base [] [] base first where
  base_below := hb
  base_le := Heap.le_refl base
  first_le := Supply.le_refl first
  below := hb
  held := by simp
  planned := by simp
  sound := by simp
  complete := by simp
  new := by simp
  ordered := List.Pairwise.nil

/-! ## The order of mints -/

/-- Different mints have different identities, and the one made first has its leaf met first. -/
theorem eq_or_lt (H : Minted plan first base seen ms h s) {m m' : Mint} (hm : m ∈ ms)
    (hm' : m' ∈ ms) : m = m' ∨ (m.id < m'.id ∧ m.leaf.rank seen < m'.leaf.rank seen) ∨
      (m'.id < m.id ∧ m'.leaf.rank seen < m.leaf.rank seen) := by
  have before := List.pairwise_iff_getElem.mp H.ordered
  obtain ⟨i, hi, rfl⟩ := List.getElem_of_mem hm
  obtain ⟨k, hk, rfl⟩ := List.getElem_of_mem hm'
  rcases Nat.lt_trichotomy i k with lt | rfl | gt
  · exact .inr (.inl (before i k hi hk lt))
  · exact .inl rfl
  · exact .inr (.inr (before k i hk hi gt))

/-- Of two mints, the one with the smaller identity is the one whose leaf was met first. -/
theorem id_lt_iff (H : Minted plan first base seen ms h s) {m m' : Mint} (hm : m ∈ ms)
    (hm' : m' ∈ ms) : m.id < m'.id ↔ m.leaf.rank seen < m'.leaf.rank seen := by
  rcases H.eq_or_lt hm hm' with rfl | lt | gt
  · simp
  · simp [lt]
  · simp [Nat.lt_asymm gt.1, Nat.lt_asymm gt.2]

theorem eq_of_id_eq (H : Minted plan first base seen ms h s) {m m' : Mint} (hm : m ∈ ms)
    (hm' : m' ∈ ms) (same : m.id = m'.id ∨ m.leaf.id = m'.leaf.id) : m = m' := by
  have same : m.id = m'.id ∨ m.leaf.rank seen = m'.leaf.rank seen := by
    refine same.imp_right fun ids => ?_
    unfold Expr.rank
    rw [ids]
  rcases H.eq_or_lt hm hm' with eq | lt | gt
  · exact eq
  · rcases same with ids | ranks
    · exact absurd ids (Nat.ne_of_lt lt.1)
    · exact absurd ranks (Nat.ne_of_lt lt.2)
  · rcases same with ids | ranks
    · exact absurd ids.symm (Nat.ne_of_lt gt.1)
    · exact absurd ranks.symm (Nat.ne_of_lt gt.2)

theorem distinct (H : Minted plan first base seen ms h s) :
    ms.Pairwise fun m m' => m.id ≠ m'.id :=
  H.ordered.imp fun lt => Nat.ne_of_lt lt.1

theorem distinct_leaf (H : Minted plan first base seen ms h s) :
    ms.Pairwise fun m m' => m.leaf.id ≠ m'.leaf.id := by
  refine H.ordered.imp fun lt same => ?_
  unfold Expr.rank at lt
  rw [same] at lt
  exact Nat.lt_irrefl _ lt.2

/-! ## Images -/

theorem imageOf_leaf (H : Minted plan first base seen ms h s) {m : Mint} (hm : m ∈ ms) :
    imageOf ms m.leaf = m.node := by
  unfold imageOf
  rw [find?_of_distinct (f := fun m : Mint => m.leaf.id) H.distinct_leaf hm]
  rfl

/-- A mint's leaf is the node of the base heap with that identity. -/
theorem leaf_eq (H : Minted plan first base seen ms h s) {m : Mint} (hm : m ∈ ms)
    (hx : base x.id = some x) (same : m.leaf.id = x.id) : m.leaf = x := by
  have := H.held _ (H.sound m hm).1
  rw [same, hx] at this
  exact (Option.some.inj this).symm

theorem imageOf_kept (H : Minted plan first base seen ms h s) (hx : base x.id = some x)
    (kept : plan x = .ok none) : imageOf ms x = x := by
  unfold imageOf
  cases hf : ms.find? (·.leaf.id == x.id) with
  | none => rfl
  | some m =>
    obtain ⟨hm, id⟩ := of_find?_eq_some hf
    have planned := (H.sound m hm).2
    rw [H.leaf_eq hm hx id, kept] at planned
    cases planned

theorem exists_mint (H : Minted plan first base seen ms h s) (hx : x ∈ seen) {v : Variable}
    (hv : plan x = .ok (some v)) : ∃ m ∈ ms, m.leaf = x ∧ m.var = v := by
  obtain ⟨m, hm, rfl⟩ := H.complete x hx v hv
  have := (H.sound m hm).2
  rw [hv] at this
  exact ⟨m, hm, rfl, (Option.some.inj (Except.ok.inj this)).symm⟩

/-- Later mints change no image of a leaf that was met. -/
theorem imageOf_append (H : Minted plan first base seen ms h s)
    (H' : Minted plan first base seen' (ms ++ ms') h' s') (hx : x ∈ seen) :
    imageOf (ms ++ ms') x = imageOf ms x := by
  obtain ⟨v?, hv⟩ := H.planned x hx
  cases v? with
  | none => rw [H.imageOf_kept (H.held x hx) hv, H'.imageOf_kept (H.held x hx) hv]
  | some v =>
    obtain ⟨m, hm, rfl, -⟩ := H.exists_mint hx hv
    rw [H.imageOf_leaf hm, H'.imageOf_leaf (List.mem_append_left _ hm)]

theorem holds_imageOf (H : Minted plan first base seen ms h s) (leaf : x.isLeaf) (hx : x ∈ seen) :
    h.Holds (imageOf ms x) := by
  obtain ⟨v?, hv⟩ := H.planned x hx
  cases v? with
  | none =>
    rw [H.imageOf_kept (H.held x hx) hv]
    exact Heap.Holds.of_isLeaf leaf (H.base_le _ _ (H.held x hx))
  | some v =>
    obtain ⟨m, hm, rfl, -⟩ := H.exists_mint hx hv
    rw [H.imageOf_leaf hm]
    exact Heap.Holds.of_isLeaf rfl (H.new m hm).2

/-- No two leaves become one. -/
theorem imageOf_inj (H : Minted plan first base seen ms h s) {y : Expr} (hx : x ∈ seen)
    (hy : y ∈ seen) (same : (imageOf ms x).id = (imageOf ms y).id) : x.id = y.id := by
  -- A leaf that is kept has an identity from before the first mint.
  have old : ∀ {z m}, z ∈ seen → m ∈ ms → z.id ≠ m.node.id := by
    intro z m hz hm same
    have low : first.next ≤ m.node.id := (H.new m hm).1
    exact Nat.not_le_of_lt (H.base_below _ _ (H.held z hz)) (same ▸ low)
  have become : ∀ {z}, z ∈ seen → imageOf ms z = z ∨ ∃ m ∈ ms, m.leaf = z := by
    intro z hz
    obtain ⟨v?, hv⟩ := H.planned z hz
    cases v? with
    | none => exact .inl (H.imageOf_kept (H.held z hz) hv)
    | some v => exact .inr (H.complete z hz v hv)
  rcases become hx with ix | ⟨m, hm, rfl⟩
  · rcases become hy with iy | ⟨m', hm', rfl⟩
    · rwa [ix, iy] at same
    · rw [ix, H.imageOf_leaf hm'] at same
      exact absurd same (old hx hm')
  · rw [H.imageOf_leaf hm] at same
    rcases become hy with iy | ⟨m', hm', rfl⟩
    · rw [iy] at same
      exact absurd same.symm (old hy hm)
    · rw [H.imageOf_leaf hm'] at same
      rw [H.eq_of_id_eq hm hm' (.inl same)]

/-! ## Steps -/

/-- The base heap has one node for an identity, so a leaf with a mint is known by its identity. -/
theorem mem_seen_of_id (H : Minted plan first base seen ms h s) (hx : base x.id = some x)
    {y : Expr} (hy : y ∈ seen) (same : y.id = x.id) : x ∈ seen := by
  have := H.held y hy
  rw [same, hx] at this
  rwa [Option.some.inj this]

theorem held_append (H : Minted plan first base seen ms h s) (hx : base x.id = some x) :
    ∀ y ∈ seen ++ [x], base y.id = some y := by
  intro y hy
  rcases List.mem_append.mp hy with hy | hy
  · exact H.held y hy
  · rwa [List.mem_singleton.mp hy]

theorem planned_append (H : Minted plan first base seen ms h s) (hv : ∃ v?, plan x = .ok v?) :
    ∀ y ∈ seen ++ [x], ∃ v?, plan y = .ok v? := by
  intro y hy
  rcases List.mem_append.mp hy with hy | hy
  · exact H.planned y hy
  · rwa [List.mem_singleton.mp hy]

/-- One more node does not change where the others were first met. -/
theorem ordered_append (H : Minted plan first base seen ms h s) (x : Expr) :
    ms.Pairwise fun m m' => m.id < m'.id ∧
      m.leaf.rank (seen ++ [x]) < m'.leaf.rank (seen ++ [x]) := by
  refine H.ordered.imp_of_mem fun {m m'} hm hm' lt => ?_
  rwa [Expr.rank_append (H.sound m hm).1, Expr.rank_append (H.sound m' hm').1]

/-- A node is met for which no mint is made: it is kept, or its mint is there already. -/
theorem skip (H : Minted plan first base seen ms h s) (hx : base x.id = some x)
    (hv : ∃ v?, plan x = .ok v?)
    (done : ∀ v, plan x = .ok (some v) → ∃ m ∈ ms, m.leaf = x) :
    Minted plan first base (seen ++ [x]) ms h s where
  base_below := H.base_below
  base_le := H.base_le
  first_le := H.first_le
  below := H.below
  held := H.held_append hx
  planned := H.planned_append hv
  sound m hm := ⟨List.mem_append_left _ (H.sound m hm).1, (H.sound m hm).2⟩
  complete y hy v hv' := by
    rcases List.mem_append.mp hy with hy | hy
    · exact H.complete y hy v hv'
    · rw [List.mem_singleton.mp hy] at hv' ⊢
      exact done v hv'
  new := H.new
  ordered := H.ordered_append x

/-- A leaf is met that has no mint yet, and gets one. -/
theorem mint (H : Minted plan first base seen ms h s) (hx : base x.id = some x) {v : Variable}
    (hv : plan x = .ok (some v)) (fresh : ∀ m ∈ ms, m.leaf.id ≠ x.id) {id : NodeId}
    (hs : s ≤ s') (low : s.next ≤ id) (high : id < s'.next) :
    Minted plan first base (seen ++ [x]) (ms ++ [⟨x, v, id⟩]) (h.insert (v.node id)) s' where
  base_below := H.base_below
  base_le := Heap.le_trans H.base_le (Heap.le_insert H.below low)
  first_le := Supply.le_trans H.first_le hs
  below := (Heap.below_insert (e := v.node id) H.below low).mono high
  held := H.held_append hx
  planned := H.planned_append ⟨_, hv⟩
  sound m hm := by
    rcases List.mem_append.mp hm with hm | hm
    · exact ⟨List.mem_append_left _ (H.sound m hm).1, (H.sound m hm).2⟩
    · rw [List.mem_singleton.mp hm]
      exact ⟨by simp, hv⟩
  complete y hy w hw := by
    rcases List.mem_append.mp hy with hy | hy
    · obtain ⟨m, hm, same⟩ := H.complete y hy w hw
      exact ⟨m, List.mem_append_left _ hm, same⟩
    · exact ⟨⟨x, v, id⟩, by simp, (List.mem_singleton.mp hy).symm⟩
  new m hm := by
    rcases List.mem_append.mp hm with hm | hm
    · exact ⟨(H.new m hm).1, Heap.le_insert (e := v.node id) H.below low _ _ (H.new m hm).2⟩
    · rw [List.mem_singleton.mp hm]
      exact ⟨Nat.le_trans (Supply.next_le_next H.first_le) low, Heap.insert_self h (v.node id)⟩
  ordered := by
    refine List.pairwise_append.mpr
      ⟨H.ordered_append x, List.pairwise_singleton _ _, fun m hm m' hm' => ?_⟩
    -- `x` was not met before, as it would have its mint.
    have unseen : ∀ y ∈ seen, y.id ≠ x.id := by
      intro y hy same
      obtain ⟨m, hm, e⟩ := H.complete x (H.mem_seen_of_id hx hy same) v hv
      exact fresh m hm (by rw [e])
    rw [List.mem_singleton.mp hm']
    refine ⟨Nat.lt_of_lt_of_le (H.below _ _ (H.new m hm).2) low, ?_⟩
    rw [Expr.rank_append (H.sound m hm).1, Expr.rank_new unseen]
    exact Expr.rank_lt_length (H.sound m hm).1

/-- The supply goes on. -/
theorem later (H : Minted plan first base seen ms h s) (hs : s ≤ s') :
    Minted plan first base seen ms h s' where
  base_below := H.base_below
  base_le := H.base_le
  first_le := Supply.le_trans H.first_le hs
  below := H.below.mono (Supply.next_le_next hs)
  held := H.held
  planned := H.planned
  sound := H.sound
  complete := H.complete
  new := H.new
  ordered := H.ordered

/-- A node is made around nodes that are there. -/
theorem make (H : Minted plan first base seen ms h s) {e : Expr} (he : e.id = s.next) :
    Minted plan first base seen ms (h.insert e) s.advance where
  base_below := H.base_below
  base_le := Heap.le_trans H.base_le (Heap.le_insert H.below (Nat.le_of_eq he.symm))
  first_le := Supply.le_trans H.first_le (Supply.le_advance s)
  below := by
    refine (Heap.below_insert H.below (Nat.le_of_eq he.symm)).mono ?_
    rw [he]
    exact Supply.next_lt_next_advance s
  held := H.held
  planned := H.planned
  sound := H.sound
  complete := H.complete
  new m hm := ⟨(H.new m hm).1,
    Heap.le_insert H.below (Nat.le_of_eq he.symm) _ _ (H.new m hm).2⟩
  ordered := H.ordered

end Minted
end Lifted
