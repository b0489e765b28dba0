import Lifted.Proofs.Canonical.Tagging
import Lifted.Proofs.Evaluation.Memo
import Lifted.Proofs.Evaluation.Postorder

/-!
# Where placeholders occur

The ranking sees a placeholder at each of its positions, with the values of the nodes above it. Seen
from the batch before tagging these are the positions of the leaves that have a key.

* `spots`: the positions of a batch whose leaves have a key; `exists_spot_iff`: the keys there.
* `occurrencesBy`: the occurrences found without a memo; `occurrences_agrees`: a memo changes
  nothing.
* `rank_ends`: what the ranking finds, or the failure of the evaluation.
* `occurrencesOf_found`, `mem_occurrencesOf`: the occurrences of one population are those of its
  placeholders.
* `Sighting`: an occurrence of the placeholder for the leaf at a spot.
* `TaggedFrom.sightings`: the occurrences of one population are the sightings of the spots, in their
  order.
-/

namespace Lifted

section

variable {κ : Type}

/-- The positions of `es` whose leaves have a key, with their keys. -/
def spots (key : Expr → Option κ) (es : List Expr) : List (Position × κ) :=
  (es.flatMap Expr.positions).filterMap fun q => (key q.node).map (q, ·)

theorem mem_spots {key : Expr → Option κ} {es : List Expr} {a : Position × κ} :
    a ∈ spots key es ↔ a.1 ∈ es.flatMap Expr.positions ∧ key a.1.node = some a.2 := by
  unfold spots
  rw [List.mem_filterMap]
  constructor
  · rintro ⟨q, hq, h⟩
    obtain ⟨k, hk, rfl⟩ := Option.map_eq_some_iff.mp h
    exact ⟨hq, hk⟩
  · rintro ⟨hq, hk⟩
    exact ⟨a.1, hq, by rw [hk]; rfl⟩

/-- The keys of spots are the keys of nodes. -/
theorem exists_spot_iff {key : Expr → Option κ} {es : List Expr} {k : κ} :
    k ∈ (spots key es).map Prod.snd ↔ ∃ x ∈ Expr.nodesOf es, key x = some k := by
  constructor
  · intro hk
    obtain ⟨a, ha, rfl⟩ := List.mem_map.mp hk
    obtain ⟨hq, hk⟩ := mem_spots.mp ha
    exact ⟨a.1.node, Expr.node_mem_nodesOf hq, hk⟩
  · rintro ⟨x, hx, hk⟩
    obtain ⟨q, hq, rfl⟩ := Expr.exists_position hx
    exact List.mem_map.mpr ⟨(q, k), mem_spots.mpr ⟨hq, hk⟩, rfl⟩

end

/-! ## Evaluation -/

/-- The occurrences of a tagged batch, evaluated without a memo. -/
def occurrencesBy (value : Expr → Except Error UInt64) (t : Tagged) :
    Except Error (List (Population × Occurrence)) := do
  t.trees.forM fun tree => discard (value tree)
  t.placements.mapM fun (population, p) => do
    let values ← p.path.mapM value
    return (population, ⟨values, p.node.id⟩)

theorem mem_placements {t : Tagged} {a : Population × Position} (ha : a ∈ t.placements) :
    a.2 ∈ t.trees.flatMap Expr.positions := by
  obtain ⟨p, hp, h⟩ := List.mem_filterMap.mp ha
  obtain ⟨population, -, rfl⟩ := Option.map_eq_some_iff.mp h
  exact hp

section

variable {valueOf : (node : Expr) → (values : List UInt64) → Except Error UInt64} {h : Heap}
  {t : Tagged}

theorem occurrences_agrees (held : ∀ e ∈ t.trees, h.Holds e) :
    Agrees valueOf h (occurrences (m := Id) valueOf t)
      (occurrencesBy (Expr.valueBy valueOf) t) := by
  have discarded : ∀ es : List Expr, (∀ e ∈ es, h.Holds e) →
      Agrees valueOf h (es.forM fun tree => discard (solve (m := Id) valueOf tree))
        (es.forM fun tree => discard (tree.valueBy valueOf)) := by
    intro es hes
    induction es with
    | nil => exact Agrees.pure ()
    | cons e es ih =>
      exact Agrees.bind (Agrees.bind (Agrees.solve (hes e List.mem_cons_self)) fun _ =>
        Agrees.pure _) fun _ => ih fun x hx => hes x (List.mem_cons_of_mem _ hx)
  refine Agrees.bind (discarded t.trees held) fun _ => Agrees.mapM fun a ha => ?_
  refine Agrees.bind (Agrees.mapM fun x hx => Agrees.solve ?_) fun values => Agrees.pure _
  obtain ⟨e, he, hp⟩ := List.mem_flatMap.mp (mem_placements ha)
  exact (held e he).node (Expr.mem_nodes_of_mem_path hp hx)

/-- What a list of results says of each placement, if there is one. -/
theorem occurrencesBy_ok {value : Expr → Except Error UInt64}
    {found : List (Population × Occurrence)} (done : occurrencesBy value t = .ok found) :
    (∀ e ∈ t.trees, ∃ v, value e = .ok v) ∧
      List.Forall₂ (fun a o => o.1 = a.1 ∧ o.2.placeholder = a.2.node.id ∧
        a.2.path.mapM value = .ok o.2.values) t.placements found := by
  obtain ⟨⟨⟩, trees, placed⟩ := ok_of_bind done
  refine ⟨fun e he => discard_ok_iff.mp (forM_ok_iff.mp trees e he),
    (mapM_ok_iff.mp placed).imp fun a o h => ?_⟩
  obtain ⟨values, path, h⟩ := ok_of_bind h
  cases h
  exact ⟨rfl, rfl, path⟩

theorem exists_occurrencesBy (all : ∀ e ∈ t.trees, ∃ v, e.valueBy valueOf = .ok v) :
    ∃ found, occurrencesBy (Expr.valueBy valueOf) t = .ok found := by
  have trees : (t.trees.forM fun tree => discard (tree.valueBy valueOf)) = .ok () :=
    forM_ok_iff.mpr fun e he => discard_ok_iff.mpr (all e he)
  unfold occurrencesBy
  rw [trees]
  refine exists_mapM_ok_iff.mpr fun a ha => ?_
  obtain ⟨e, he, hp⟩ := List.mem_flatMap.mp (mem_placements ha)
  obtain ⟨vs, hvs⟩ := exists_mapM_ok_iff.mpr fun x hx =>
    Expr.value_of_mem_nodes (all e he) (Expr.mem_nodes_of_mem_path hp hx)
  obtain ⟨population, p⟩ := a
  refine ⟨(population, ⟨vs, p.node.id⟩), ?_⟩
  show (p.path.mapM (Expr.valueBy valueOf) >>= fun values => _) = _
  rw [hvs]
  rfl

end

/-! ## The ranking -/

theorem rank_ends {evaluator : Evaluator} {b : Bindings} {t : Tagged} {h : Heap} {s : Supply}
    {j : Journal} (held : ∀ e ∈ t.trees, h.Holds e) :
    (rank evaluator b t).Ends s j fun r s' _ => s' = s ∧
      r = (occurrencesBy (evaluator.value b) t).map (Ranking.ofOccurrences t) := by
  have agrees : Agrees (evaluator.onNode b) h _ _ := occurrences_agrees held
  have same := (agrees ∅ Memo.sound_empty).1
  unfold rank
  show ((liftM (Memo.run ∅ (occurrences (m := Id) (evaluator.onNode b) t)).1 : Run _) >>=
    fun found => _).Ends s j _
  rw [same]
  show ((liftM (occurrencesBy (evaluator.value b) t) : Run _) >>= fun found => _).Ends s j _
  refine Run.Ends.bind (Run.Ends.lift ?_)
  cases occurrencesBy (evaluator.value b) t with
  | error err => exact ⟨rfl, rfl⟩
  | ok found =>
    exact Run.Ends.bind (Run.Ends.notes (Run.Ends.bind (Run.Ends.note
      (Run.Ends.bind (Run.Ends.notes (Run.Ends.pure ⟨rfl, rfl⟩))))))

/-! ## Sightings -/

section

variable (R : Registers) (I : ImageQueries) (o : Options)

/-- The population that a leaf's placeholder belongs to. -/
def populationBy (e : Expr) : Option Population :=
  match roleBy R I o e with
  | .register _ => some .register
  | .address _ => some .address
  | .kept | .thunk _ => none

variable {R I o} in
theorem isSome_populationBy {e : Expr} : (populationBy R I o e).isSome ↔
    (∃ name, roleBy R I o e = .register name) ∨ ∃ a, roleBy R I o e = .address a := by
  unfold populationBy
  cases roleBy R I o e <;> simp

/-- The key tells what is in the population, and there is none for other leaves. -/
structure Keys {κ : Type} (population : Population) (key : Expr → Option κ) : Prop where
  iff : ∀ e, populationBy R I o e = some population ↔ ∃ k, key e = some k

theorem registerKeys : Keys R I o .register R.keyOf where
  iff e := by
    simp only [keyOf_eq_some_iff (I := I) (o := o), populationBy]
    cases roleBy R I o e <;> simp

theorem addressKeys : Keys R I o .address (addressOf I o) where
  iff e := by
    simp only [addressOf_eq_some_iff (R := R), populationBy]
    cases roleBy R I o e <;> simp

/-- The occurrences of one population. -/
def occurrencesOf (population : Population) (found : List (Population × Occurrence)) :
    List Occurrence :=
  found.filterMap fun o => if o.1 = population then some o.2 else none

end

section

variable {value : Expr → Except Error UInt64} {t : Tagged}
  {found : List (Population × Occurrence)} {population : Population}

/-- A population occurs where its placeholders stand, in the order of these positions. -/
theorem occurrencesOf_found (each : List.Forall₂ (fun a o => o.1 = a.1 ∧
      o.2.placeholder = a.2.node.id ∧ a.2.path.mapM value = .ok o.2.values) t.placements found) :
    List.Forall₂ (fun p seen => seen.placeholder = p.node.id ∧ p.path.mapM value = .ok seen.values)
      ((t.trees.flatMap Expr.positions).filterMap fun p =>
        if t.populationOf p.node = some population then some p else none)
      (occurrencesOf population found) := by
  have placed : t.placements.filterMap (fun a => if a.1 = population then some a.2 else none) =
      (t.trees.flatMap Expr.positions).filterMap fun p =>
        if t.populationOf p.node = some population then some p else none := by
    unfold Tagged.placements
    rw [List.filterMap_filterMap]
    congr 1
    funext p
    cases t.populationOf p.node <;> simp
  rw [← placed]
  refine forall₂_filterMap each ?_
  rintro a o ⟨same, id, values⟩
  rw [same]
  split
  · exact .some ⟨id, values⟩
  · exact .none

theorem mem_occurrencesOf (done : occurrencesBy value t = .ok found) {seen : Occurrence} :
    seen ∈ occurrencesOf population found ↔ ∃ p ∈ t.trees.flatMap Expr.positions,
      t.populationOf p.node = some population ∧ seen.placeholder = p.node.id ∧
        p.path.mapM value = .ok seen.values := by
  have each : List.Forall₂ _ _ (occurrencesOf population found) :=
    occurrencesOf_found (occurrencesBy_ok done).2
  constructor
  · intro hs
    obtain ⟨p, hp, id, values⟩ := exists_mem_of_forall₂ each.flip hs
    obtain ⟨p', hp', same⟩ := List.mem_filterMap.mp hp
    obtain ⟨here, ⟨⟩⟩ := Option.ite_none_right_eq_some.mp same
    exact ⟨p, hp', here, id, values⟩
  · rintro ⟨p, hp, here, id, values⟩
    obtain ⟨seen', hs, id', values'⟩ := exists_mem_of_forall₂ each
      (List.mem_filterMap.mpr ⟨p, hp, if_pos here⟩)
    obtain ⟨vs, i⟩ := seen
    obtain ⟨vs', i'⟩ := seen'
    obtain rfl : i' = i := id'.trans id.symm
    obtain rfl : vs = vs' := Except.ok.inj (values.symm.trans values')
    exact hs

end

/-- The placeholder for the leaf at a spot, seen at a position that comes from the spot's. -/
structure Sighting {κ : Type} (value : Expr → Except Error UInt64) (ms : List Mint)
    (key : Expr → Option κ) (es : List Expr) (a : Position × κ) (seen : Occurrence) : Prop where
  spot : a ∈ spots key es
  mint : ∃ m ∈ ms, m.leaf = a.1.node ∧ m.id = seen.placeholder
  values : ∃ p : Position, p.Over (imageOf ms) a.1 ∧ p.path.mapM value = .ok seen.values

namespace TaggedFrom

variable {R : Registers} {I : ImageQueries} {o : Options} {s s' : Supply} {base h : Heap}
  {es : List Expr} {t : Tagged} {ms : List Mint} {κ : Type} {key : Expr → Option κ}

theorem populationOf (G : TaggedFrom R I o s base es t ms h s') {p q : Position}
    (hp : p ∈ t.trees.flatMap Expr.positions) (hq : q ∈ es.flatMap Expr.positions)
    (origin : p.Over (imageOf ms) q) : t.populationOf p.node = populationBy R I o q.node := by
  have register : t.registers.contains p.node.id = (R.keyOf q.node).isSome := by
    rw [Std.HashMap.contains_eq_isSome_getElem?, G.registerAt hp hq origin, Option.isSome_map]
  have address : t.addresses.contains p.node.id = (addressOf I o q.node).isSome := by
    rw [Std.HashMap.contains_eq_isSome_getElem?, G.addressAt hp hq origin, Option.isSome_map]
  unfold Tagged.populationOf
  rw [register, address, populationBy, keyOf_eq (I := I) (o := o), addressOf_eq (R := R)]
  cases roleBy R I o q.node <;> rfl

/-- Each spot has its occurrence, in order. -/
theorem sightings (G : TaggedFrom R I o s base es t ms h s') {population : Population}
    (K : Keys R I o population key)
    (kept : ∀ x, (roleBy R I o x).placeholder? I o = none → key x = none)
    {value : Expr → Except Error UInt64} {found : List (Population × Occurrence)}
    (each : List.Forall₂ (fun a o => o.1 = a.1 ∧ o.2.placeholder = a.2.node.id ∧
      a.2.path.mapM value = .ok o.2.values) t.placements found) :
    List.Forall₂ (Sighting value ms key es) (spots key es) (occurrencesOf population found) := by
  -- From spots to the placeholders that stand there, and from these to what is found.
  have toSpots := forall₂_filterMap
    (S := fun p a => a ∈ spots key es ∧ p.Over (imageOf ms) a.1 ∧
      ∃ m ∈ ms, m.leaf = a.1.node ∧ m.id = p.node.id)
    (f := fun p => if t.populationOf p.node = some population then some p else none)
    (g := fun q => (key q.node).map (q, ·)) (forall₂_mem G.positions) (by
      rintro p q ⟨hp, hq, origin⟩
      cases hk : key q.node with
      | none =>
        rw [G.populationOf hp hq origin, if_neg]
        · exact .none
        · intro h
          obtain ⟨k, hk'⟩ := (K.iff q.node).mp h
          rw [hk] at hk'
          cases hk'
      | some k =>
        rw [G.populationOf hp hq origin, if_pos ((K.iff q.node).mpr ⟨k, hk⟩)]
        obtain ⟨m, hm, leaf, node⟩ := G.exists_mint kept hq origin hk
        refine .some ⟨mem_spots.mpr ⟨hq, hk⟩, origin, m, hm, leaf, ?_⟩
        rw [← node]
        rfl)
  refine (forall₂_comp toSpots.flip (occurrencesOf_found each)).imp ?_
  rintro a seen ⟨p, ⟨spot, origin, m, hm, leaf, id⟩, id', values⟩
  exact ⟨spot, ⟨m, hm, leaf, id.trans id'.symm⟩, p, origin, values⟩

end TaggedFrom

end Lifted
