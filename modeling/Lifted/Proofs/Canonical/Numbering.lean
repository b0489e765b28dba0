import Lifted.Canonical.Canonicalize
import Lifted.Proofs.Canonical.Occurrences
import Lifted.Proofs.Grouping
import Std.Data.String.ToNat

/-!
# Names and collisions

* `Population.canonicalName_inj`, `Population.register_ne_address`: no name is given twice, neither
  in one population nor across them.
* `mem_numbering`: a key's name is made from its place among the distinct keys;
  `exists_canonicalName_iff`: all places are taken.
* `lookup_mergeSort`: a report lists its names in another order, but says the same.
* `keysOf_ranked`: the keys that a ranking meets are those of the spots in their order;
  `mem_keysOf`: they are those of the nodes.
* `spotLe`: that order, without identities; `le_eq_spotLe` says that it is the same.
* `excess_tiesOf`: the collisions are the distinct pairs of values and keys less the distinct
  values.
-/

namespace Lifted

/-! ## Canonical names -/

namespace Population

theorem canonicalName_inj (p : Population) {i k : Nat} :
    p.canonicalName i = p.canonicalName k ↔ i = k := by
  unfold canonicalName
  rw [String.append_left_inj]
  exact Nat.repr_inj

theorem register_ne_address (i k : Nat) :
    register.canonicalName i ≠ address.canonicalName k := by
  intro same
  have last := congrArg (fun name : String => name.toList.getLast?) same
  simp [canonicalName, suffix, String.toList_append] at last

end Population

section

variable {κ : Type} [BEq κ] [LawfulBEq κ]

omit [LawfulBEq κ] in
theorem map_fst_numbering (p : Population) (keys : List κ) :
    (numbering p keys).map Prod.fst = keys.eraseDups := by
  unfold numbering
  rw [List.map_map]
  exact List.zipIdx_map_fst 0 _

theorem distinct_numbering (p : Population) (keys : List κ) :
    ((numbering p keys).map Prod.fst).Nodup := by
  rw [map_fst_numbering]
  exact nodup_eraseDups keys

omit [LawfulBEq κ] in
theorem mem_numbering {p : Population} {keys : List κ} {k : κ} {name : String} :
    (k, name) ∈ numbering p keys ↔
      ∃ i, keys.eraseDups[i]? = some k ∧ name = p.canonicalName i := by
  unfold numbering
  rw [List.mem_map]
  constructor
  · rintro ⟨⟨k', i⟩, h, same⟩
    cases same
    exact ⟨i, List.mem_zipIdx_iff_getElem?.mp h, rfl⟩
  · rintro ⟨i, h, rfl⟩
    exact ⟨(k, i), List.mem_zipIdx_iff_getElem?.mpr h, rfl⟩

theorem lookup_numbering {p : Population} {keys : List κ} {k : κ} {name : String} :
    (numbering p keys).lookup k = some name ↔ (k, name) ∈ numbering p keys :=
  lookup_eq_some_iff_mem (distinct_numbering p keys)

/-- Two keys have two names. -/
theorem name_inj {p : Population} {keys : List κ} {k k' : κ} {name : String}
    (h : (numbering p keys).lookup k = some name) (h' : (numbering p keys).lookup k' = some name) :
    k = k' := by
  rw [lookup_numbering, mem_numbering] at h h'
  obtain ⟨i, hi, rfl⟩ := h
  obtain ⟨i', hi', same⟩ := h'
  obtain rfl := p.canonicalName_inj.mp same
  rw [hi] at hi'
  exact Option.some.inj hi'

theorem exists_canonicalName {p : Population} {keys : List κ} {k : κ} {name : String}
    (h : (numbering p keys).lookup k = some name) : ∃ i, name = p.canonicalName i := by
  rw [lookup_numbering, mem_numbering] at h
  obtain ⟨i, -, rfl⟩ := h
  exact ⟨i, rfl⟩

theorem exists_name_iff {p : Population} {keys : List κ} {k : κ} :
    (∃ name, (numbering p keys).lookup k = some name) ↔ k ∈ keys := by
  simp only [lookup_numbering, mem_numbering]
  rw [← List.mem_eraseDups, List.mem_iff_getElem?]
  constructor
  · rintro ⟨name, i, h, -⟩
    exact ⟨i, h⟩
  · rintro ⟨i, h⟩
    exact ⟨_, i, h, rfl⟩

/-- The numbers given are those below the number of keys. -/
theorem exists_canonicalName_iff {p : Population} {keys : List κ} {i : Nat} :
    (∃ k, (numbering p keys).lookup k = some (p.canonicalName i)) ↔ i < {k | k ∈ keys}.ncard := by
  rw [ncard_mem]
  simp only [lookup_numbering, mem_numbering]
  constructor
  · rintro ⟨k, i', h, same⟩
    obtain rfl := p.canonicalName_inj.mp same
    exact (List.getElem?_eq_some_iff.mp h).1
  · intro h
    exact ⟨_, i, List.getElem?_eq_getElem h, rfl⟩

/-- The same keys in another order of the pairs. -/
theorem lookup_mergeSort {xs : List (κ × String)} (distinct : (xs.map Prod.fst).Nodup)
    (le : κ × String → κ × String → Bool) (k : κ) : (xs.mergeSort le).lookup k = xs.lookup k := by
  have perm := List.mergeSort_perm xs le
  have distinct' : ((xs.mergeSort le).map Prod.fst).Nodup := (perm.map _).nodup_iff.mpr distinct
  refine Option.ext fun name => ?_
  rw [lookup_eq_some_iff_mem distinct', lookup_eq_some_iff_mem distinct, perm.mem_iff]

end

theorem Report.registerName_of (t : Tagged) (ranking : Ranking) {keys : List String}
    {names : Names} (h : names.registers = numbering .register keys) (name : String) :
    (Report.of t ranking names).registerName name = names.registers.lookup name :=
  lookup_mergeSort (h ▸ distinct_numbering .register keys) _ name

theorem Report.addressName_of (t : Tagged) (ranking : Ranking) {keys : List UInt64}
    {names : Names} (h : names.addresses = numbering .address keys) (a : UInt64) :
    (Report.of t ranking names).addressName a = names.addresses.lookup a :=
  lookup_mergeSort (h ▸ distinct_numbering .address keys) _ a

/-! ## Keys in the order of a ranking -/

section

variable {κ : Type} {value : Expr → Except Error UInt64} {ms : List Mint} {key : Expr → Option κ}
  {es : List Expr} {seen : List Occurrence}

/-- The table has the key of every sighting. -/
theorem Sighting.referent (distinct : ms.Pairwise fun m m' => m.id ≠ m'.id) {a : Position × κ}
    {o : Occurrence} (h : Sighting value ms key es a o) :
    (referentsOf key ms)[o.placeholder]? = some ⟨a.1.node, a.2⟩ := by
  obtain ⟨m, hm, leaf, id⟩ := h.mint
  rw [← id, getElem?_referentsOf_id distinct hm, leaf, (mem_spots.mp h.spot).2]
  rfl

/-- Sightings in the order of their occurrences. The keys that the ranking meets are theirs. -/
theorem keysOf_ranked (distinct : ms.Pairwise fun m m' => m.id ≠ m'.id)
    (sightings : List.Forall₂ (Sighting value ms key es) (spots key es) seen) :
    ∃ Z : List ((Position × κ) × Occurrence), (Z.map Prod.fst).Perm (spots key es) ∧
      Z.map Prod.snd = seen.mergeSort Occurrence.le ∧
      (∀ z ∈ Z, Sighting value ms key es z.1 z.2) ∧
      (∀ r : Position × κ → Position × κ → Bool,
        (∀ a o b o', Sighting value ms key es a o → Sighting value ms key es b o' →
          Occurrence.le o o' = r a b) →
        Z.map Prod.fst = (spots key es).mergeSort r) ∧
      keysOf (referentsOf key ms) (seen.mergeSort Occurrence.le) = .ok (Z.map fun z => z.1.2) := by
  obtain ⟨len, each⟩ := List.forall₂_iff_zip.mp sightings
  -- Each spot goes with its occurrence while the occurrences are sorted.
  let zip := (spots key es).zip seen
  have snd : zip.map Prod.snd = seen := List.map_snd_zip (Nat.le_of_eq len.symm)
  have fst : zip.map Prod.fst = spots key es := List.map_fst_zip (Nat.le_of_eq len)
  let le (z z' : (Position × κ) × Occurrence) : Bool := Occurrence.le z.2 z'.2
  have perm := List.mergeSort_perm zip le
  have sorted : (zip.mergeSort le).map Prod.snd = seen.mergeSort Occurrence.le := by
    rw [List.map_mergeSort (s := Occurrence.le) fun _ _ _ _ => rfl, snd]
  have all : ∀ z ∈ zip.mergeSort le, Sighting value ms key es z.1 z.2 := fun z hz =>
    each (perm.mem_iff.mp hz)
  have inOrder : ∀ r : Position × κ → Position × κ → Bool,
      (∀ a o b o', Sighting value ms key es a o → Sighting value ms key es b o' →
        Occurrence.le o o' = r a b) →
      (zip.mergeSort le).map Prod.fst = (spots key es).mergeSort r := by
    intro r hr
    rw [List.map_mergeSort (s := r) fun z hz z' hz' => hr _ _ _ _ (each hz) (each hz'), fst]
  refine ⟨zip.mergeSort le, fst ▸ perm.map Prod.fst, sorted, all, inOrder, ?_⟩
  rw [← sorted, keysOf, mapM_ok_iff, List.forall₂_map_left_iff, List.forall₂_map_right_iff,
    List.forall₂_same]
  intro z hz
  rw [(all z hz).referent distinct]

/-- The keys that the ranking meets are those of the nodes. -/
theorem mem_keysOf (distinct : ms.Pairwise fun m m' => m.id ≠ m'.id)
    (sightings : List.Forall₂ (Sighting value ms key es) (spots key es) seen) {keys : List κ}
    (h : keysOf (referentsOf key ms) (seen.mergeSort Occurrence.le) = .ok keys) {k : κ} :
    k ∈ keys ↔ ∃ x ∈ Expr.nodesOf es, key x = some k := by
  obtain ⟨Z, perm, -, -, -, keys'⟩ := keysOf_ranked distinct sightings
  obtain rfl := Except.ok.inj (keys'.symm.trans h)
  rw [← exists_spot_iff, ← (perm.map Prod.snd).mem_iff, List.map_map]
  rfl

/-- The order of spots by their values, and where these are equal by the first meeting of their
leaves. -/
def spotLe (values : Position → List UInt64) (nodes : List Expr) (a b : Position × κ) : Bool :=
  decide (values a.1 < values b.1) ||
    (values a.1 == values b.1 && decide (a.1.node.rank nodes ≤ b.1.node.rank nodes))

/-- Placeholders were made in the order in which their leaves were first met. -/
theorem le_eq_spotLe {plan : Plan} {first s : Supply} {base h : Heap}
    (H : Minted plan first base (Expr.nodesOf es) ms h s) {values : Position → List UInt64}
    {a b : Position × κ} {o o' : Occurrence} (ha : Sighting value ms key es a o)
    (hb : Sighting value ms key es b o') (va : o.values = values a.1)
    (vb : o'.values = values b.1) :
    Occurrence.le o o' = spotLe values (Expr.nodesOf es) a b := by
  obtain ⟨m, hm, leaf, id⟩ := ha.mint
  obtain ⟨m', hm', leaf', id'⟩ := hb.mint
  have order : o.placeholder ≤ o'.placeholder ↔
      a.1.node.rank (Expr.nodesOf es) ≤ b.1.node.rank (Expr.nodesOf es) := by
    rw [← Nat.not_lt, ← Nat.not_lt, ← id, ← id', ← leaf, ← leaf', H.id_lt_iff hm' hm]
  unfold Occurrence.le spotLe
  rw [va, vb, decide_eq_decide.mpr order]

/-! ## Collisions -/

theorem Occurrence.le_iff {a b : Occurrence} :
    a.le b = true ↔ a.values < b.values ∨ a.values = b.values ∧ a.placeholder ≤ b.placeholder := by
  simp [Occurrence.le]

/-- The order of a ranking. -/
theorem pairwise_mergeSort_le (seen : List Occurrence) :
    (seen.mergeSort Occurrence.le).Pairwise fun a b => a.le b = true := by
  have trans : ∀ a b c : Occurrence, a.le b = true → b.le c = true → a.le c = true := by
    intro a b c hab hbc
    rw [Occurrence.le_iff] at *
    rcases hab with lt | ⟨eq, le⟩
    · rcases hbc with lt' | ⟨eq', -⟩
      · exact .inl (List.lt_trans lt lt')
      · exact .inl (eq' ▸ lt)
    · rcases hbc with lt' | ⟨eq', le'⟩
      · exact .inl (eq ▸ lt')
      · exact .inr ⟨eq.trans eq', Nat.le_trans le le'⟩
  have total : ∀ a b : Occurrence, (a.le b || b.le a) = true := by
    intro a b
    rw [Bool.or_eq_true, Occurrence.le_iff, Occurrence.le_iff]
    by_cases lt : a.values < b.values
    · exact .inl (.inl lt)
    · by_cases gt : b.values < a.values
      · exact .inr (.inl gt)
      · have eq := List.le_antisymm gt lt
        rcases Nat.le_total a.placeholder b.placeholder with le | le
        · exact .inl (.inr ⟨eq, le⟩)
        · exact .inr (.inr ⟨eq.symm, le⟩)
  exact List.pairwise_mergeSort trans total seen

/-- In the order of a ranking no later fingerprint is smaller. -/
theorem sorted_mergeSort_le (seen : List Occurrence) :
    (seen.mergeSort Occurrence.le).Pairwise fun a b => ¬b.values < a.values := by
  refine (pairwise_mergeSort_le seen).imp fun {a b} hab gt => ?_
  rcases Occurrence.le_iff.mp hab with lt | ⟨eq, -⟩
  · exact List.lt_asymm lt gt
  · exact List.lt_irrefl a.values (eq ▸ gt)

variable [DecidableEq κ]

/-- A tie counts all of its keys but one. -/
theorem excess_tieOf (population : Population) (text : κ → String) (referents : Referents κ)
    {group : List Occurrence} (ne : group ≠ [])
    (known : ∀ o ∈ group, ∃ r, referents[o.placeholder]? = some r) :
    ((tieOf population text referents group).map fun tie => tie.leaves.length - 1).getD 0 =
      (group.map fun o => (referents[o.placeholder]?).map Referent.key).toFinset.card - 1 := by
  have keys : group.map (fun o => (referents[o.placeholder]?).map Referent.key) =
      ((group.filterMap (referents[·.placeholder]?)).map Referent.key).map some := by
    clear ne
    induction group with
    | nil => rfl
    | cons o os ih =>
      obtain ⟨r, hr⟩ := known o List.mem_cons_self
      rw [List.map_cons, List.filterMap_cons, hr,
        ih fun x hx => known x (List.mem_cons_of_mem _ hx)]
      rfl
  have count : (distinctReferents text (group.filterMap (referents[·.placeholder]?))).length =
      (group.map fun o => (referents[o.placeholder]?).map Referent.key).toFinset.card := by
    rw [keys, card_toFinset_map fun _ _ _ _ same => Option.some_injective κ same,
      ← length_eraseDups, ← map_eraseDupsBy, List.length_map, distinctReferents,
      List.length_mergeSort]
  obtain ⟨first, rest, rfl⟩ := List.exists_cons_of_ne_nil ne
  rw [← count, tieOf]
  split
  · simp
  · simp
    omega

/-- The ties of a ranked population count its distinct pairs of values and keys less its distinct
values. -/
theorem excess_tiesOf (population : Population) (text : κ → String) (referents : Referents κ)
    {ranked : List Occurrence} (sorted : ranked.Pairwise fun a b => ¬b.values < a.values)
    (known : ∀ o ∈ ranked, ∃ r, referents[o.placeholder]? = some r) :
    (tiesOf population text referents ranked).foldr
          (fun tie count => tie.leaves.length - 1 + count) 0 +
        (ranked.map Occurrence.values).toFinset.card =
      (ranked.map fun o =>
        (o.values, (referents[o.placeholder]?).map Referent.key)).toFinset.card := by
  have ne : ∀ g ∈ ranked.splitBy Occurrence.tied, g ≠ [] := fun g hg =>
    List.ne_nil_of_mem_splitBy hg
  have excess := excess_eq Occurrence.values
    (fun o => (referents[o.placeholder]?).map Referent.key) ne
    (fun g hg => const_splitBy (v := Occurrence.values) hg)
    (apart_splitBy (v := Occurrence.values) sorted)
  rw [List.flatten_splitBy] at excess
  rw [← excess]
  congr 1
  have sum : ∀ groups : List (List Occurrence), (∀ g ∈ groups, g ≠ []) →
      (∀ g ∈ groups, ∀ o ∈ g, ∃ r, referents[o.placeholder]? = some r) →
      (groups.filterMap (tieOf population text referents)).foldr
        (fun tie count => tie.leaves.length - 1 + count) 0 =
      groups.foldr (fun g count =>
        (g.map fun o => (referents[o.placeholder]?).map Referent.key).toFinset.card - 1 + count)
        0 := by
    intro groups ne known
    induction groups with
    | nil => rfl
    | cons g gs ih =>
      have here := excess_tieOf population text referents (ne g List.mem_cons_self)
        (known g List.mem_cons_self)
      have ih := ih (fun g' hg' => ne g' (List.mem_cons_of_mem _ hg'))
        fun g' hg' => known g' (List.mem_cons_of_mem _ hg')
      rw [List.filterMap_cons, List.foldr_cons, ← ih, ← here]
      cases tieOf population text referents g <;> simp
  refine sum _ (fun g hg => List.ne_nil_of_mem_splitBy hg) fun g hg o ho => known o ?_
  rw [← List.flatten_splitBy Occurrence.tied ranked]
  exact List.mem_flatten_of_mem hg ho

end

end Lifted
