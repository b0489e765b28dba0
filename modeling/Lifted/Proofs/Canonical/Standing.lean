import Lifted.Proofs.Canonical.Outcome
import Mathlib

/-!
# Names in closed form

A register, or an address, stands at each of its placeholders: below the values on the way there,
and after the leaves that were met before. Its number is the number of those that have a smaller
least standing.

* `Standing`, `standings`: where a key stands, in lexicographic order.
* `NumberedBy`: names that follow from the least standings.
* `numberedBy_of_sorted`: the numbering of keys that are met in the order of their standings.
* `metAt`: what a ranking meets; `sorted_metAt`: it does so in order.
* `TaggedFrom.numberedBy`: these are the standings of one population.
* `canonicalize_numbers`: every run names registers and addresses by their least standings.
-/

namespace Lifted

/-! ## Standings -/

/-- Values on the way down to a placeholder, as numbers, and the place in the walk at which the leaf
of that placeholder was first met. The values count first, and a way that goes on is larger. -/
abbrev Standing := List ℕ ×ₗ ℕ

/-- Where the key `k` stands in `trees`, the batch `es` with its placeholders. -/
def standings {κ : Type} (value : Expr → Except Error UInt64) (es trees : List Expr)
    (referents : Referents κ) (k : κ) : Set Standing :=
  {z | ∃ p ∈ trees.flatMap Expr.positions, ∃ leaf words,
    referents[p.node.id]? = some ⟨leaf, k⟩ ∧ p.path.mapM value = .ok words ∧
      z = toLex (words.map UInt64.toNat, leaf.rank (Expr.nodesOf es))}

/-- Every key has the name whose number is the number of keys with a smaller least standing, and no
two keys have one least standing. So the numbers are those below the number of keys, each given
once. -/
structure NumberedBy {κ : Type} (population : Population) (keys : Set κ)
    (standings : κ → Set Standing) (least : κ → Standing) (name? : κ → Option String) : Prop where
  finite : keys.Finite
  isLeast : ∀ k ∈ keys, IsLeast (standings k) (least k)
  distinct : keys.InjOn least
  named : ∀ k ∈ keys,
    name? k = some (population.canonicalName {k' ∈ keys | least k' < least k}.ncard)
  unnamed : ∀ k ∉ keys, name? k = none
  used : ∀ i, (∃ k ∈ keys, name? k = some (population.canonicalName i)) ↔ i < keys.ncard
  once : keys.InjOn name?

section

variable {κ : Type} [BEq κ] [LawfulBEq κ]

/-- Keys that are met in the order of their standings, no two at one standing, are numbered by the
least of them: their first meetings are in the order of these. -/
theorem numberedBy_of_sorted (population : Population) {met : List (Standing × κ)}
    (sorted : met.Pairwise fun a b => a.1 ≤ b.1)
    (inj : ∀ a ∈ met, ∀ b ∈ met, a.1 = b.1 → a.2 = b.2) :
    ∃ least, NumberedBy population {k | k ∈ met.map Prod.snd} (fun k => {z | (z, k) ∈ met}) least
      fun k => (numbering population (met.map Prod.snd)).lookup k := by
  have exists_least : ∀ k, ∃ z, k ∈ met.map Prod.snd → IsLeast {z | (z, k) ∈ met} z := by
    intro k
    by_cases mem : k ∈ met.map Prod.snd
    · obtain ⟨⟨z, k⟩, hz, rfl⟩ := List.mem_map.mp mem
      have finite : {z | (z, k) ∈ met}.Finite :=
        (met.map Prod.fst).finite_toSet.subset fun z hz => List.mem_map.mpr ⟨(z, k), hz, rfl⟩
      obtain ⟨z, hz, lower⟩ := Set.exists_min_image _ (fun z => z) finite ⟨z, hz⟩
      exact ⟨z, fun _ => ⟨hz, lower⟩⟩
    · exact ⟨default, fun h => absurd h mem⟩
  choose least isLeast using exists_least
  have ascending : (met.map Prod.snd).eraseDups.Pairwise fun k k' => least k < least k' := by
    refine pairwise_eraseDups_map sorted inj (fun a ha => ?_) fun a ha => ?_
    · exact (isLeast a.2 (List.mem_map_of_mem ha)).2 ha
    · exact ⟨(least a.2, a.2), (isLeast a.2 (List.mem_map_of_mem ha)).1, rfl, rfl⟩
  have named : ∀ k ∈ met.map Prod.snd, (numbering population (met.map Prod.snd)).lookup k =
      some (population.canonicalName
        {k' ∈ {k | k ∈ met.map Prod.snd} | least k' < least k}.ncard) := by
    intro k hk
    obtain ⟨i, hi⟩ := List.mem_iff_getElem?.mp (List.mem_eraseDups.mpr hk)
    have smaller : {k' ∈ {k | k ∈ met.map Prod.snd} | least k' < least k} =
        {k' | k' ∈ (met.map Prod.snd).eraseDups.filter fun k' => least k' < least k} := by
      ext k'
      simp
    rw [lookup_numbering, mem_numbering, smaller, ncard_of_nodup ((nodup_eraseDups _).filter _),
      length_filter_lt ascending hi]
    exact ⟨i, hi, rfl⟩
  have known : ∀ k name, (numbering population (met.map Prod.snd)).lookup k = some name →
      k ∈ met.map Prod.snd := fun k name h => exists_name_iff.mp ⟨name, h⟩
  refine ⟨least, List.finite_toSet _, isLeast, fun k hk k' hk' same => ?_, named, fun k hk => ?_,
    fun i => ?_, fun k hk k' hk' same => ?_⟩
  · exact inj _ (isLeast k hk).1 _ (isLeast k' hk').1 same
  · exact Option.eq_none_iff_forall_ne_some.mpr fun name h => hk (known k name h)
  · rw [← exists_canonicalName_iff]
    constructor
    · rintro ⟨k, -, h⟩
      exact ⟨k, h⟩
    · rintro ⟨k, h⟩
      exact ⟨k, known k _ h, h⟩
  · have here := named k hk
    exact name_inj here (same.symm.trans here)

end

/-! ## What a ranking meets -/

/-- What is met at the occurrences: a standing and a key at each. -/
def metAt {κ : Type} (referents : Referents κ) (nodes : List Expr) (seen : List Occurrence) :
    List (Standing × κ) :=
  seen.filterMap fun o => (referents[o.placeholder]?).map fun r =>
    (toLex (o.values.map UInt64.toNat, r.leaf.rank nodes), r.key)

section

variable {κ : Type} {referents : Referents κ} {nodes : List Expr} {seen : List Occurrence}

theorem mem_metAt {z : Standing} {k : κ} : (z, k) ∈ metAt referents nodes seen ↔
    ∃ o ∈ seen, ∃ leaf, referents[o.placeholder]? = some ⟨leaf, k⟩ ∧
      z = toLex (o.values.map UInt64.toNat, leaf.rank nodes) := by
  unfold metAt
  rw [List.mem_filterMap]
  constructor
  · rintro ⟨o, ho, h⟩
    obtain ⟨⟨leaf, k'⟩, hr, same⟩ := Option.map_eq_some_iff.mp h
    cases same
    exact ⟨o, ho, leaf, hr, rfl⟩
  · rintro ⟨o, ho, leaf, hr, rfl⟩
    exact ⟨o, ho, by rw [hr]; rfl⟩

theorem map_snd_metAt {keys : List κ} (found : keysOf referents seen = .ok keys) :
    (metAt referents nodes seen).map Prod.snd = keys := by
  have each := mapM_ok_iff.mp found
  clear found
  induction each with
  | nil => rfl
  | @cons o k seen keys here _ ih =>
    unfold metAt at ih ⊢
    cases hr : referents[o.placeholder]? with
    | none => simp [hr] at here
    | some r =>
      obtain rfl : r.key = k := by simpa [hr] using here
      rw [List.filterMap_cons, hr, Option.map_some, List.map_cons, ih]

/-- Numbers are compared as words are. -/
theorem map_toNat_lt {xs ys : List UInt64} :
    xs.map UInt64.toNat < ys.map UInt64.toNat ↔ xs < ys := by
  induction xs generalizing ys with
  | nil => cases ys <;> simp
  | cons x xs ih =>
    cases ys with
    | nil => simp
    | cons y ys =>
      rw [List.map_cons, List.map_cons, List.cons_lt_cons_iff, List.cons_lt_cons_iff, ih,
        UInt64.lt_iff_toNat_lt, UInt64.toNat_inj]

theorem map_toNat_inj {xs ys : List UInt64} :
    xs.map UInt64.toNat = ys.map UInt64.toNat ↔ xs = ys :=
  (List.map_injective_iff.mpr fun _ _ => UInt64.toNat_inj.mp).eq_iff

variable {plan : Plan} {first s : Supply} {base h : Heap} {ms : List Mint} {key : Expr → Option κ}

/-- A placeholder is a mint. -/
theorem exists_mint_of_referent (distinct : ms.Pairwise fun m m' => m.id ≠ m'.id) {i : NodeId}
    {r : Referent κ} (hr : (referentsOf key ms)[i]? = some r) :
    ∃ m ∈ ms, m.id = i ∧ m.leaf = r.leaf ∧ key m.leaf = some r.key := by
  rw [getElem?_referentsOf distinct] at hr
  obtain ⟨m, hf, hk⟩ := Option.bind_eq_some_iff.mp hr
  obtain ⟨hm, id⟩ := of_find?_eq_some hf
  obtain ⟨k, here, rfl⟩ := Option.map_eq_some_iff.mp hk
  exact ⟨m, hm, id, rfl, here⟩

/-- A ranking meets keys in the order of their standings, as placeholders are made in the order in
which leaves are first met. -/
theorem sorted_metAt (H : Minted plan first base nodes ms h s) (seen : List Occurrence) :
    (metAt (referentsOf key ms) nodes (seen.mergeSort Occurrence.le)).Pairwise
      fun a b => a.1 ≤ b.1 := by
  unfold metAt
  rw [List.pairwise_filterMap]
  refine (pairwise_mergeSort_le seen).imp fun {o o'} le a ha a' ha' => ?_
  obtain ⟨r, hr, rfl⟩ := Option.map_eq_some_iff.mp ha
  obtain ⟨r', hr', rfl⟩ := Option.map_eq_some_iff.mp ha'
  obtain ⟨m, hm, id, leaf, -⟩ := exists_mint_of_referent H.distinct hr
  obtain ⟨m', hm', id', leaf', -⟩ := exists_mint_of_referent H.distinct hr'
  rw [Prod.Lex.toLex_le_toLex, map_toNat_lt, map_toNat_inj, ← leaf, ← leaf', ← Nat.not_lt,
    ← H.id_lt_iff hm' hm, id, id', Nat.not_lt]
  exact Occurrence.le_iff.mp le

/-- One standing is that of one placeholder. -/
theorem metAt_inj (H : Minted plan first base nodes ms h s) :
    ∀ a ∈ metAt (referentsOf key ms) nodes seen, ∀ b ∈ metAt (referentsOf key ms) nodes seen,
      a.1 = b.1 → a.2 = b.2 := by
  rintro ⟨z, k⟩ ha ⟨z', k'⟩ hb same
  obtain ⟨o, -, leaf, hr, rfl⟩ := mem_metAt.mp ha
  obtain ⟨o', -, leaf', hr', rfl⟩ := mem_metAt.mp hb
  obtain ⟨m, hm, -, rfl, hk⟩ := exists_mint_of_referent H.distinct hr
  obtain ⟨m', hm', -, rfl, hk'⟩ := exists_mint_of_referent H.distinct hr'
  have rank : m.leaf.rank nodes = m'.leaf.rank nodes := (Prod.mk.inj (toLex_inj.mp same)).2
  have one : m = m' := by
    rcases H.eq_or_lt hm hm' with eq | lt | gt
    · exact eq
    · exact absurd rank (Nat.ne_of_lt lt.2)
    · exact absurd rank.symm (Nat.ne_of_lt gt.2)
  subst one
  exact Option.some.inj (hk.symm.trans hk')

end

/-! ## One population -/

section

variable {R : Registers} {I : ImageQueries} {o : Options} {s s' : Supply} {base h : Heap}
  {es : List Expr} {t : Tagged} {ms : List Mint} {value : Expr → Except Error UInt64}
  {found : List (Population × Occurrence)} {population : Population} {κ : Type} [BEq κ]
  [LawfulBEq κ] {key : Expr → Option κ}

omit [BEq κ] [LawfulBEq κ] in
/-- What is met is where the placeholders of the population stand. -/
theorem TaggedFrom.mem_standings (G : TaggedFrom R I o s base es t ms h s')
    (K : Keys R I o population key)
    (kept : ∀ x, (roleBy R I o x).placeholder? I o = none → key x = none)
    (evaluated : occurrencesBy value t = .ok found) {z : Standing} {k : κ} :
    (z, k) ∈ metAt (referentsOf key ms) (Expr.nodesOf es) (ranked population found) ↔
      z ∈ standings value es t.trees (referentsOf key ms) k := by
  have mem : ∀ o, o ∈ ranked population found ↔ o ∈ occurrencesOf population found := fun _ =>
    (List.mergeSort_perm _ _).mem_iff
  rw [mem_metAt]
  constructor
  · rintro ⟨o, ho, leaf, hr, rfl⟩
    obtain ⟨p, hp, -, id, values⟩ := (mem_occurrencesOf evaluated).mp ((mem o).mp ho)
    exact ⟨p, hp, leaf, o.values, id ▸ hr, values, rfl⟩
  · rintro ⟨p, hp, leaf, words, hr, values, rfl⟩
    obtain ⟨q, hq, origin⟩ := exists_mem_of_forall₂ G.positions hp
    have here : t.populationOf p.node = some population := by
      rw [G.populationOf hp hq origin]
      rw [G.referentAt kept hp hq origin] at hr
      obtain ⟨k', hk, -⟩ := Option.map_eq_some_iff.mp hr
      exact (K.iff q.node).mpr ⟨k', hk⟩
    exact ⟨⟨words, p.node.id⟩, (mem _).mpr ((mem_occurrencesOf evaluated).mpr
      ⟨p, hp, here, rfl, values⟩), leaf, hr, rfl⟩

/-- A population is numbered by the least standings of its keys. -/
theorem TaggedFrom.numberedBy (G : TaggedFrom R I o s base es t ms h s')
    (K : Keys R I o population key)
    (kept : ∀ x, (roleBy R I o x).placeholder? I o = none → key x = none)
    (evaluated : occurrencesBy value t = .ok found) {keys : List κ}
    (met : keysOf (referentsOf key ms) (ranked population found) = .ok keys) :
    ∃ least, NumberedBy population {k | k ∈ keys}
      (standings value es t.trees (referentsOf key ms)) least
      fun k => (numbering population keys).lookup k := by
  have sorted : (metAt (referentsOf key ms) (Expr.nodesOf es) (ranked population found)).Pairwise
      fun a b => a.1 ≤ b.1 := sorted_metAt G.minted _
  have numbered := numberedBy_of_sorted population sorted (metAt_inj G.minted)
  rw [map_snd_metAt met] at numbered
  have same : (fun k => {z | (z, k) ∈ metAt (referentsOf key ms) (Expr.nodesOf es)
      (ranked population found)}) = standings value es t.trees (referentsOf key ms) := by
    funext k
    ext z
    exact G.mem_standings K kept evaluated
  rwa [same] at numbered

end

/-! ## The run -/

variable {c : Collaborators} {b : Bindings} {o : Options} {s : Supply} {es : List Expr}

/-- Canonical numbering in closed form: a run that succeeds gives every register of the batch the
number of registers with a smaller least standing among the placeholders, and every anonymous
address the number of such addresses, whatever evaluates the nodes and however many fingerprints
tie. -/
theorem canonicalize_numbers (serves : s.Serves es) {out : Canonical}
    (done : (canonicalize c b o es).outcome s = .ok out) :
    ∃ t, (tag c.registers c.image o es).outcome s = .ok t ∧
      (∀ x ∈ Expr.nodesOf t.trees, ∃ word, c.evaluator.value b x = .ok word) ∧
      (∃ least, NumberedBy .register {name | RegisterIn c.registers es name}
        (standings (c.evaluator.value b) es t.trees t.registers) least out.report.registerName) ∧
      ∃ least, NumberedBy .address {a | AddressIn c.image o es a}
        (standings (c.evaluator.value b) es t.trees t.addresses) least
        out.report.addressName := by
  obtain ⟨-, -, t, ms, h, s₁, found, registers, addresses, ms', h', s₂, P⟩ :=
    exists_passed serves done
  have G := P.tagged
  have keysR := P.registerKeys
  have keysA := P.addressKeys
  have inR : {name | RegisterIn c.registers es name} = {name | name ∈ registers} := by
    ext name
    exact registerIn_iff.trans P.mem_registers.symm
  have inA : {a | AddressIn c.image o es a} = {a | a ∈ addresses} := by
    ext a
    exact addressIn_iff.trans P.mem_addresses.symm
  rw [G.registers] at keysR
  rw [G.addresses] at keysA
  refine ⟨t, P.tagging, fun x hx => ?_, ?_, ?_⟩
  · obtain ⟨e, he, hx⟩ := Expr.mem_nodesOf.mp hx
    exact Expr.value_of_mem_nodes ((occurrencesBy_ok P.evaluated).1 e he) hx
  · rw [inR, G.registers, funext P.registerName_eq]
    exact G.numberedBy (registerKeys _ _ _) (fun _ => keyOf_of_kept) P.evaluated keysR
  · rw [inA, G.addresses, funext P.addressName_eq]
    exact G.numberedBy (addressKeys _ _ _) (fun _ => addressOf_of_kept) P.evaluated keysA

/-! ## Two registers that tie -/

namespace Sample

/-- Two registers that are told apart only by which of them is met first. -/
def tied : List Expr := [.op 2 .add [.var 0 "ecx" 4 none, .var 1 "ebx" 4 none]]

theorem nodesOf_tied : Expr.nodesOf tied =
    [.op 2 .add [.var 0 "ecx" 4 none, .var 1 "ebx" 4 none], .var 0 "ecx" 4 none,
      .var 1 "ebx" 4 none] := by
  simp [tied, Expr.nodesOf_cons, Expr.nodes_eq, Expr.children]

theorem serves_tied : (Supply.startingAt 3).Serves tied where
  coherent := by simp [Expr.Coherent, nodesOf_tied, Expr.id]
  below := by simp [Expr.Below, nodesOf_tied, Expr.id, Supply.next, Supply.startingAt]

end Sample

theorem canonicalize_numbers_tied : ∃ (out : Canonical) (t : Tagged) (least : String → Standing),
    (canonicalize Sample.collaborators Sample.bindings Sample.options Sample.tied).outcome
      (Supply.startingAt 3) = .ok out ∧
    out.report.collisions = 1 ∧ out.report.registerName "ecx" = some "0indreg" ∧
    out.report.registerName "ebx" = some "1indreg" ∧
    NumberedBy .register {name | RegisterIn Sample.collaborators.registers Sample.tied name}
      (standings (Sample.collaborators.evaluator.value Sample.bindings) Sample.tied t.trees
        t.registers) least out.report.registerName := by
  have runs : ((canonicalize Sample.collaborators Sample.bindings Sample.options
      Sample.tied).outcome (Supply.startingAt 3)).toOption.map (fun out =>
        (out.report.collisions, out.report.registerName "ecx", out.report.registerName "ebx")) =
      some (1, some "0indreg", some "1indreg") := by cbv
  obtain ⟨out, done, reported⟩ := exists_ok_of_map_eq runs
  obtain ⟨t, -, -, ⟨least, numbered⟩, -⟩ := canonicalize_numbers Sample.serves_tied done
  simp only [Prod.mk.injEq] at reported
  exact ⟨out, t, least, done, reported.1, reported.2.1, reported.2.2, numbered⟩

end Lifted
