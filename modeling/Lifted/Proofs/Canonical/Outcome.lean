import Lifted.Proofs.Canonical.Renaming
import Lifted.Proofs.Expr.Validation

/-!
# The outcome of a run

A run over a batch whose nodes came from its supply goes through tagging, ranking, naming and
renaming, each as its plan says, or it fails where one of these fails.

* `Supply.Serves`: the batch shares nodes soundly, and the supply has not yet issued any of them.
* `Passed`: what a run that succeeded went through.
* `Stopped`: why a run failed, and that it came as far as that.
* `canonicalize_ends`: every run does one or the other; `tag_coherent`: soundness of sharing is kept.
* `TaggedFrom.mem_registers`, `TaggedFrom.mem_addresses`: what is named.
* `Passed.leaf_eq`: what a leaf has become.
* `Substituted`, `substituted_of_ok`: what a run that succeeds comes to.
* `start_congr`: runs that tag a batch alike and do the same with it then are the same.
* `Substituted.content`, `Substituted.nodes`: the content of the output, and its nodes.
* `Sample`: a small batch with what a run needs, to try theorems on.
-/

namespace Lifted

/-- One identity is one node throughout the batch, and the identities to come are new. -/
structure Supply.Serves (s : Supply) (es : List Expr) : Prop where
  coherent : Expr.Coherent es
  below : Expr.Below s.next es

namespace Supply.Serves

variable {s : Supply} {es : List Expr}

theorem holds (h : s.Serves es) : ∀ e ∈ es, (Heap.of es).Holds e :=
  fun _ he => Heap.holds_of h.coherent he

theorem below_heap (h : s.Serves es) : (Heap.of es).Below s.next := Heap.below_of h.below

end Supply.Serves

variable (c : Collaborators) (b : Bindings) (o : Options) (s : Supply) (es : List Expr)

/-- A run succeeded with `out`. The batch became `t` with the mints `ms`, the placeholders were
found at `found`, the keys were met in the order of `registers` and `addresses`, and the
placeholders became the mints `ms'`. -/
structure Passed (out : Canonical) (t : Tagged) (ms : List Mint) (h : Heap) (s₁ : Supply)
    (found : List (Population × Occurrence)) (registers : List String) (addresses : List UInt64)
    (ms' : List Mint) (h' : Heap) (s₂ : Supply) : Prop where
  tagging : (tag c.registers c.image o es).outcome s = .ok t
  tagged : TaggedFrom c.registers c.image o s (Heap.of es) es t ms h s₁
  evaluated : occurrencesBy (c.evaluator.value b) t = .ok found
  registerKeys : keysOf t.registers (ranked .register found) = .ok registers
  addressKeys : keysOf t.addresses (ranked .address found) = .ok addresses
  renamed : Walked (renamePlan c.image o.placeholderWidth t
    ⟨numbering .register registers, numbering .address addresses⟩) s₁ h [] [] h t.trees out.trees
    ms' h' s₂
  report : out.report = Report.of t (Ranking.ofOccurrences t found)
    ⟨numbering .register registers, numbering .address addresses⟩

/-- The options and all trees of the batch are accepted. -/
structure Accepted : Prop where
  options : o.validate = .ok ()
  trees : es.forM Expr.validate = .ok ()

/-- A run failed: the options or a tree were refused, a collaborator had no answer while leaves
were replaced, a tree had no value, or no text was to be had for an address. -/
inductive Stopped (err : Error) : Prop where
  | options (h : o.validate = .error err)
  | tree (options : o.validate = .ok ()) (h : es.forM Expr.validate = .error err)
  | role (accepted : Accepted o es)
    (h : (Expr.nodesOf es).mapM (tagPlan c.registers c.image o) = .error err)
  | value (accepted : Accepted o es) (t : Tagged) (ms : List Mint) (h : Heap) (s₁ : Supply)
    (tagging : (tag c.registers c.image o es).outcome s = .ok t)
    (tagged : TaggedFrom c.registers c.image o s (Heap.of es) es t ms h s₁)
    (h : occurrencesBy (c.evaluator.value b) t = .error err)
  | name (accepted : Accepted o es) (t : Tagged) (ms : List Mint) (h : Heap) (s₁ : Supply)
    (found : List (Population × Occurrence)) (registers : List String) (addresses : List UInt64)
    (tagging : (tag c.registers c.image o es).outcome s = .ok t)
    (tagged : TaggedFrom c.registers c.image o s (Heap.of es) es t ms h s₁)
    (evaluated : occurrencesBy (c.evaluator.value b) t = .ok found)
    (registerKeys : keysOf t.registers (ranked .register found) = .ok registers)
    (addressKeys : keysOf t.addresses (ranked .address found) = .ok addresses)
    (h : (Expr.nodesOf t.trees).mapM (renamePlan c.image o.placeholderWidth t
      ⟨numbering .register registers, numbering .address addresses⟩) = .error err)

variable {c b o s es}

/-! ## Keys -/

section

variable {t : Tagged} {ms : List Mint} {h : Heap} {s₁ : Supply}
  {found : List (Population × Occurrence)}

/-- The occurrences of a tagged batch are the sightings of its spots. -/
theorem TaggedFrom.seenRegisters
    (G : TaggedFrom c.registers c.image o s (Heap.of es) es t ms h s₁)
    (evaluated : occurrencesBy (c.evaluator.value b) t = .ok found) :
    List.Forall₂ (Sighting (c.evaluator.value b) ms c.registers.keyOf es)
      (spots c.registers.keyOf es) (occurrencesOf .register found) :=
  G.sightings (registerKeys c.registers c.image o) (fun _ => keyOf_of_kept)
    (occurrencesBy_ok evaluated).2

theorem TaggedFrom.seenAddresses
    (G : TaggedFrom c.registers c.image o s (Heap.of es) es t ms h s₁)
    (evaluated : occurrencesBy (c.evaluator.value b) t = .ok found) :
    List.Forall₂ (Sighting (c.evaluator.value b) ms (addressOf c.image o) es)
      (spots (addressOf c.image o) es) (occurrencesOf .address found) :=
  G.sightings (addressKeys c.registers c.image o) (fun _ => addressOf_of_kept)
    (occurrencesBy_ok evaluated).2

/-- The keys are found for all occurrences. -/
theorem TaggedFrom.exists_keys
    (G : TaggedFrom c.registers c.image o s (Heap.of es) es t ms h s₁)
    (evaluated : occurrencesBy (c.evaluator.value b) t = .ok found) :
    ∃ registers addresses, keysOf t.registers (ranked .register found) = .ok registers ∧
      keysOf t.addresses (ranked .address found) = .ok addresses := by
  obtain ⟨Z, -, -, -, -, keys⟩ := keysOf_ranked G.distinct (G.seenRegisters evaluated)
  obtain ⟨Z', -, -, -, -, keys'⟩ := keysOf_ranked G.distinct (G.seenAddresses evaluated)
  rw [G.registers, G.addresses]
  exact ⟨_, _, keys, keys'⟩

/-- The names are a numbering of the keys, for each population its own. -/
theorem ofRanking_of_keys {registers : List String} {addresses : List UInt64}
    (keys : keysOf t.registers (ranked .register found) = .ok registers)
    (keys' : keysOf t.addresses (ranked .address found) = .ok addresses) :
    Names.ofRanking t (Ranking.ofOccurrences t found) =
      .ok ⟨numbering .register registers, numbering .address addresses⟩ := by
  unfold Names.ofRanking
  show (keysOf t.registers (ranked .register found) >>= fun registers => _) = _
  rw [keys]
  show (keysOf t.addresses (ranked .address found) >>= fun addresses => _) = _
  rw [keys']
  rfl

end

/-! ## Runs -/

theorem validate_ends (s : Supply) (j : Journal) (es : List Expr) :
    (es.forM fun tree => (liftM tree.validate : Run Unit)).Ends s j fun r s' j' =>
      s' = s ∧ j' = j ∧ r = es.forM Expr.validate := by
  induction es with
  | nil => exact Run.Ends.pure ⟨rfl, rfl, rfl⟩
  | cons e es ih =>
    refine Run.Ends.bind (Run.Ends.lift ?_)
    cases hv : e.validate with
    | error err =>
      refine ⟨rfl, rfl, ?_⟩
      rw [List.forM, hv]
      rfl
    | ok u =>
      refine ih.imp fun r s' j' h => ⟨h.1, h.2.1, ?_⟩
      rw [List.forM, hv, h.2.2]
      rfl

/-- A run fails for one of the known reasons, or it passes through everything. -/
theorem canonicalize_ends (serves : s.Serves es) :
    (canonicalize c b o es).Ends s #[] fun r _ _ =>
      match r with
      | .error err => Stopped c b o s es err
      | .ok out => o.validate = .ok () ∧ (∀ e ∈ es, e.validate = .ok ()) ∧
          ∃ t ms h s₁ found registers addresses ms' h' s₂,
            Passed c b o s es out t ms h s₁ found registers addresses ms' h' s₂ := by
  unfold canonicalize
  refine Run.Ends.bind (Run.Ends.lift ?_)
  cases options : o.validate with
  | error err => exact .options options
  | ok u =>
  refine Run.Ends.bind ((validate_ends s #[] es).imp fun r s' j' done => ?_)
  obtain ⟨rfl, rfl, rfl⟩ := done
  cases trees : es.forM Expr.validate with
  | error err => exact .tree options trees
  | ok u =>
  have accepted : Accepted o es := ⟨options, trees⟩
  refine Run.Ends.bind ((tag_ends serves.holds serves.below_heap).and_outcome.imp
    fun r s₁ j' done => ?_)
  obtain ⟨tagging, -, done⟩ := done
  cases r with
  | error err => exact .role accepted done
  | ok t =>
  obtain ⟨ms, h, G⟩ := done
  refine Run.Ends.bind ((rank_ends G.walked.held).imp fun r s' j'' done => ?_)
  obtain ⟨rfl, rfl⟩ := done
  cases evaluated : occurrencesBy (c.evaluator.value b) t with
  | error err => exact .value accepted t ms h s' tagging G evaluated
  | ok found =>
  obtain ⟨registers, addresses, keys, keys'⟩ := G.exists_keys evaluated
  refine Run.Ends.bind (Run.Ends.bind (Run.Ends.lift ?_))
  rw [ofRanking_of_keys keys keys']
  refine Run.Ends.bind (Run.Ends.note (Run.Ends.pure ?_))
  refine Run.Ends.bind ((rename_ends G).imp fun r s₂ j₂ done => ?_)
  obtain ⟨-, done⟩ := done
  cases r with
  | error err =>
    exact .name accepted t ms h s' found registers addresses tagging G evaluated keys keys' done
  | ok renamed =>
  obtain ⟨ms', h', walked⟩ := done
  refine Run.Ends.bind (Run.Ends.note (Run.Ends.pure ⟨rfl, forM_ok_iff.mp trees, ?_⟩))
  exact ⟨t, ms, h, s', found, registers, addresses, ms', h', s₂, tagging, G, evaluated, keys, keys',
    walked, rfl⟩

/-- What tagging leaves behind shares its nodes soundly. -/
theorem tag_coherent {R : Registers} {I : ImageQueries} {j : Journal} (coherent : Expr.Coherent es)
    (below : Expr.Below s.next es) :
    (tag R I o es).Ends s j fun r _ _ => ∀ t, r = .ok t → Expr.Coherent t.trees := by
  refine (tag_ends (fun e he => Heap.holds_of coherent he) (Heap.below_of below)).imp ?_
  rintro r s' j' ⟨-, done⟩ t rfl
  obtain ⟨ms, h, G⟩ := done
  exact Heap.coherent_of_holds G.walked.held

/-! ## What is named -/

section

variable {t : Tagged} {ms : List Mint} {h : Heap} {s₁ : Supply}
  {found : List (Population × Occurrence)} {registers : List String} {addresses : List UInt64}

theorem TaggedFrom.mem_registers
    (G : TaggedFrom c.registers c.image o s (Heap.of es) es t ms h s₁)
    (evaluated : occurrencesBy (c.evaluator.value b) t = .ok found)
    (keys : keysOf t.registers (ranked .register found) = .ok registers) {name : String} :
    name ∈ registers ↔ ∃ x ∈ Expr.nodesOf es, c.registers.keyOf x = some name := by
  rw [G.registers] at keys
  exact mem_keysOf G.distinct (G.seenRegisters evaluated) keys

theorem TaggedFrom.mem_addresses
    (G : TaggedFrom c.registers c.image o s (Heap.of es) es t ms h s₁)
    (evaluated : occurrencesBy (c.evaluator.value b) t = .ok found)
    (keys : keysOf t.addresses (ranked .address found) = .ok addresses) {a : UInt64} :
    a ∈ addresses ↔ ∃ x ∈ Expr.nodesOf es, addressOf c.image o x = some a := by
  rw [G.addresses] at keys
  exact mem_keysOf G.distinct (G.seenAddresses evaluated) keys

/-- Every key has its name, so renaming fails only where an address has no answer. -/
theorem TaggedFrom.discard_renamePlan
    (G : TaggedFrom c.registers c.image o s (Heap.of es) es t ms h s₁)
    (evaluated : occurrencesBy (c.evaluator.value b) t = .ok found)
    (keys : keysOf t.registers (ranked .register found) = .ok registers)
    (keys' : keysOf t.addresses (ranked .address found) = .ok addresses) {p q : Position}
    (hp : p ∈ t.trees.flatMap Expr.positions) (hq : q ∈ es.flatMap Expr.positions)
    (origin : p.Over (imageOf ms) q) :
    discard (renamePlan c.image o.placeholderWidth t
      ⟨numbering .register registers, numbering .address addresses⟩ p.node) =
      (addressOf c.image o q.node).elim (.ok ()) fun a => discard (c.image.stringLiteral a) := by
  cases leaf : q.node.isLeaf with
  | false =>
    have inner : p.node.isLeaf = false := by
      rw [← Expr.isLeaf_outline, origin.node, Expr.isLeaf_mapLeaves fun _ => isLeaf_imageOf ms]
      exact leaf
    have none : addressOf c.image o q.node = none := by
      rw [addressOf_eq (R := c.registers), roleBy_of_not_isLeaf leaf]
    rw [G.renamePlan_inner (G.holds_node hp).root inner, none]
    rfl
  | true =>
    rw [TaggedFrom.node_eq_imageOf origin leaf, G.renamePlan_image (Expr.node_mem_nodesOf hq) leaf]
    cases hr : c.registers.keyOf q.node with
    | some name =>
      obtain ⟨new, hn⟩ := exists_name_iff (p := .register).mpr
        ((G.mem_registers evaluated keys).mpr ⟨q.node, Expr.node_mem_nodesOf hq, hr⟩)
      have none : addressOf c.image o q.node = none := by
        rw [keyOf_eq_some_iff (I := c.image) (o := o)] at hr
        rw [addressOf_eq (R := c.registers), hr]
      simp only [nameOf, hn, none, Except.map]
      rfl
    | none =>
      cases ha : addressOf c.image o q.node with
      | none => rfl
      | some a =>
        obtain ⟨new, hn⟩ := exists_name_iff (p := .address).mpr
          ((G.mem_addresses evaluated keys').mpr ⟨q.node, Expr.node_mem_nodesOf hq, ha⟩)
        simp only [nameOf, hn, Option.elim_some]
        cases c.image.stringLiteral a <;> rfl

/-- With answers to every question renaming succeeds. -/
theorem TaggedFrom.renamePlan_answers (hI : c.image.Answers)
    (G : TaggedFrom c.registers c.image o s (Heap.of es) es t ms h s₁)
    (evaluated : occurrencesBy (c.evaluator.value b) t = .ok found)
    (keys : keysOf t.registers (ranked .register found) = .ok registers)
    (keys' : keysOf t.addresses (ranked .address found) = .ok addresses) {y : Expr}
    (hy : y ∈ Expr.nodesOf t.trees) :
    ∃ v?, renamePlan c.image o.placeholderWidth t
      ⟨numbering .register registers, numbering .address addresses⟩ y = .ok v? := by
  obtain ⟨p, hp, rfl⟩ := Expr.exists_position hy
  obtain ⟨q, hq, origin⟩ := exists_mem_of_forall₂ G.positions hp
  rw [← discard_ok_iff, G.discard_renamePlan evaluated keys keys' hp hq origin]
  cases addressOf c.image o q.node with
  | none => rfl
  | some a => exact discard_ok_iff.mpr (hI.stringLiteral a)

end

/-! ## Leaves of the output -/

/-- What stands in the canonical form for the leaf `x`, which has this role. -/
def leafOfRole (I : ImageQueries) (o : Options) (report : Report) (x : Expr) : Role → Expr
  | .register name => .var 0 ((report.registerName name).getD "") o.placeholderWidth none
  | .address a => .var 0 ((report.addressName a).getD "") o.placeholderWidth (I.literal? a)
  | .thunk name => .var 0 name I.pointerWidth none
  | .kept => x.mapIds fun _ => 0

theorem isLeaf_leafOfRole {I : ImageQueries} {o : Options} {report : Report} {x : Expr}
    (leaf : x.isLeaf) (role : Role) : (leafOfRole I o report x role).isLeaf := by
  cases role with
  | register | address | thunk => rfl
  | kept => cases x <;> first | rfl | cases leaf

/-- What the leaf becomes, but for its identity. -/
theorem Minted.erase_imageOf {plan : Plan} {first s : Supply} {base h : Heap} {seen : List Expr}
    {ms : List Mint} (H : Minted plan first base seen ms h s) {x : Expr} (hx : x ∈ seen) :
    (imageOf ms x).mapIds (fun _ => 0) =
      match plan x with
      | .ok (some v) => v.node 0
      | _ => x.mapIds fun _ => 0 := by
  obtain ⟨v?, hv⟩ := H.planned x hx
  rw [hv]
  cases v? with
  | none => rw [H.imageOf_kept (H.held x hx) hv]
  | some v =>
    obtain ⟨m, hm, rfl, rfl⟩ := H.exists_mint hx hv
    rw [H.imageOf_leaf hm]
    rfl

namespace Passed

variable {out : Canonical} {t : Tagged} {ms : List Mint} {h : Heap} {s₁ : Supply}
  {found : List (Population × Occurrence)} {registers : List String} {addresses : List UInt64}
  {ms' : List Mint} {h' : Heap} {s₂ : Supply}

/-- Each output tree is the input tree with its leaves replaced twice. -/
theorem outlines (P : Passed c b o s es out t ms h s₁ found registers addresses ms' h' s₂) :
    out.trees.map Expr.outline = es.map (Expr.mapLeaves (imageOf ms' ∘ imageOf ms)) := by
  calc out.trees.map Expr.outline
      = t.trees.map (Expr.mapLeaves (imageOf ms')) := P.renamed.outlines
    _ = (t.trees.map Expr.outline).map (Expr.mapLeaves (imageOf ms')) := by
        rw [List.map_map]
        exact List.map_congr_left fun e _ => (Expr.mapLeaves_outline _ e).symm
    _ = (es.map (Expr.mapLeaves (imageOf ms))).map (Expr.mapLeaves (imageOf ms')) :=
        congrArg _ P.tagged.walked.outlines
    _ = es.map (Expr.mapLeaves (imageOf ms' ∘ imageOf ms)) := by
        rw [List.map_map]
        exact List.map_congr_left fun e _ =>
          Expr.mapLeaves_mapLeaves (fun _ => isLeaf_imageOf ms) _ e

theorem registerName_eq (P : Passed c b o s es out t ms h s₁ found registers addresses ms' h' s₂)
    (name : String) :
    out.report.registerName name = (numbering .register registers).lookup name := by
  rw [P.report]
  exact Report.registerName_of t _ rfl name

theorem addressName_eq (P : Passed c b o s es out t ms h s₁ found registers addresses ms' h' s₂)
    (a : UInt64) : out.report.addressName a = (numbering .address addresses).lookup a := by
  rw [P.report]
  exact Report.addressName_of t _ rfl a

theorem mem_registers (P : Passed c b o s es out t ms h s₁ found registers addresses ms' h' s₂)
    {name : String} :
    name ∈ registers ↔ ∃ x ∈ Expr.nodesOf es, c.registers.keyOf x = some name :=
  P.tagged.mem_registers P.evaluated P.registerKeys

theorem mem_addresses (P : Passed c b o s es out t ms h s₁ found registers addresses ms' h' s₂)
    {a : UInt64} : a ∈ addresses ↔ ∃ x ∈ Expr.nodesOf es, addressOf c.image o x = some a :=
  P.tagged.mem_addresses P.evaluated P.addressKeys

/-- What a leaf has become in the output, but for its identity: it is a matter of its role. -/
theorem leaf_eq (P : Passed c b o s es out t ms h s₁ found registers addresses ms' h' s₂)
    {x : Expr} (hx : x ∈ Expr.nodesOf es) (leaf : x.isLeaf) :
    (imageOf ms' (imageOf ms x)).mapIds (fun _ => 0) =
      leafOfRole c.image o out.report x (roleBy c.registers c.image o x) := by
  have G := P.tagged
  obtain ⟨hy, -, -⟩ := G.image_mem hx leaf
  obtain ⟨v?, planned⟩ := G.minted.planned x hx
  obtain ⟨w?, planned'⟩ := P.renamed.minted.planned _ hy
  have erase : (imageOf ms' (imageOf ms x)).mapIds (fun _ => 0) = _ :=
    P.renamed.minted.erase_imageOf hy
  have erase' := G.minted.erase_imageOf hx
  have stand := tagPlan_eq planned
  have renamed : renamePlan c.image o.placeholderWidth t ⟨numbering .register registers,
      numbering .address addresses⟩ (imageOf ms x) = _ := G.renamePlan_image hx leaf
  -- Both plans are a matter of the role, so one case for each role is left.
  rw [keyOf_eq (I := c.image) (o := o), addressOf_eq (R := c.registers)] at renamed
  rw [planned'] at erase renamed
  rw [planned] at erase'
  cases role : roleBy c.registers c.image o x with
  | kept | thunk =>
    rw [role] at stand renamed
    obtain rfl := stand
    obtain rfl := Except.ok.inj renamed
    rw [erase, erase']
    rfl
  | register name =>
    rw [role] at renamed
    obtain ⟨new, named, rfl⟩ := ok_of_map renamed.symm
    rw [leafOfRole, P.registerName_eq, lookup_of_nameOf named]
    exact erase
  | address a =>
    rw [role] at renamed
    dsimp only at renamed
    cases named : nameOf (imageOf ms x).id a (numbering .address addresses) with
    | error err =>
      rw [named] at renamed
      cases renamed
    | ok new =>
      rw [named] at renamed
      obtain ⟨label?, text, rfl⟩ := ok_of_map renamed.symm
      rw [leafOfRole, P.addressName_eq, lookup_of_nameOf named, ImageQueries.literal?, text]
      exact erase

/-- Every output tree is the input tree with its leaves replaced according to their roles. -/
theorem erased_trees (P : Passed c b o s es out t ms h s₁ found registers addresses ms' h' s₂) :
    out.trees.map (Expr.mapIds fun _ => 0) = es.map (Expr.mapLeaves fun x =>
      leafOfRole c.image o out.report x (roleBy c.registers c.image o x)) := by
  calc out.trees.map (Expr.mapIds fun _ => 0)
      = (out.trees.map Expr.outline).map (Expr.mapLeaves fun x => x.mapIds fun _ => 0) := by
        rw [List.map_map]
        refine List.map_congr_left fun e _ => ?_
        rw [Expr.mapIds_zero]
        exact (Expr.mapLeaves_outline _ e).symm
    _ = es.map (Expr.mapLeaves fun x => (imageOf ms' (imageOf ms x)).mapIds fun _ => 0) := by
        rw [P.outlines, List.map_map]
        refine List.map_congr_left fun e _ => Expr.mapLeaves_mapLeaves (fun x leaf => ?_) _ e
        exact isLeaf_imageOf ms' (isLeaf_imageOf ms leaf)
    _ = es.map (Expr.mapLeaves fun x =>
          leafOfRole c.image o out.report x (roleBy c.registers c.image o x)) :=
        List.map_congr_left fun e he => Expr.mapLeaves_congr fun x hx leaf =>
          P.leaf_eq (Expr.mem_nodesOf.mpr ⟨e, he, hx⟩) leaf

end Passed

/-- What a run that succeeded comes to: the leaves of all trees are replaced according to their
roles, nodes are shared soundly, and the report names the registers and the anonymous addresses of
the batch, each by a canonical name of its own. -/
structure Substituted (R : Registers) (I : ImageQueries) (o : Options) (es : List Expr)
    (out : Canonical) : Prop where
  trees : out.trees.map (Expr.mapIds fun _ => 0) =
    es.map (Expr.mapLeaves fun x => leafOfRole I o out.report x (roleBy R I o x))
  coherent : Expr.Coherent out.trees
  registers : ∀ name, (∃ new, out.report.registerName name = some new) ↔ RegisterIn R es name
  addresses : ∀ a, (∃ new, out.report.addressName a = some new) ↔ AddressIn I o es a
  canonical_register : ∀ name new, out.report.registerName name = some new →
    ∃ k, new = Population.register.canonicalName k
  canonical_address : ∀ a new, out.report.addressName a = some new →
    ∃ k, new = Population.address.canonicalName k
  register_inj : ∀ name name' new, out.report.registerName name = some new →
    out.report.registerName name' = some new → name = name'
  address_inj : ∀ a a' new, out.report.addressName a = some new →
    out.report.addressName a' = some new → a = a'

theorem Passed.substituted {out : Canonical} {t : Tagged} {ms : List Mint} {h : Heap} {s₁ : Supply}
    {found : List (Population × Occurrence)} {registers : List String} {addresses : List UInt64}
    {ms' : List Mint} {h' : Heap} {s₂ : Supply}
    (P : Passed c b o s es out t ms h s₁ found registers addresses ms' h' s₂) :
    Substituted c.registers c.image o es out where
  trees := P.erased_trees
  coherent := Heap.coherent_of_holds P.renamed.held
  registers name := by rw [P.registerName_eq, exists_name_iff, P.mem_registers, registerIn_iff]
  addresses a := by rw [P.addressName_eq, exists_name_iff, P.mem_addresses, addressIn_iff]
  canonical_register name new hn := by
    rw [P.registerName_eq] at hn
    exact exists_canonicalName hn
  canonical_address a new hn := by
    rw [P.addressName_eq] at hn
    exact exists_canonicalName hn
  register_inj name name' new hn hn' := by
    rw [P.registerName_eq] at hn hn'
    exact name_inj hn hn'
  address_inj a a' new hn hn' := by
    rw [P.addressName_eq] at hn hn'
    exact name_inj hn hn'

/-- A run that succeeds passes through everything. -/
theorem exists_passed (serves : s.Serves es) {out : Canonical}
    (done : (canonicalize c b o es).outcome s = .ok out) :
    o.validate = .ok () ∧ (∀ e ∈ es, e.validate = .ok ()) ∧
      ∃ t ms h s₁ found registers addresses ms' h' s₂,
        Passed c b o s es out t ms h s₁ found registers addresses ms' h' s₂ := by
  have ends := (canonicalize_ends (c := c) (b := b) (o := o) serves).outcome
  rw [done] at ends
  obtain ⟨-, -, ends⟩ := ends
  exact ends

theorem substituted_of_ok (serves : s.Serves es) {out : Canonical}
    (done : (canonicalize c b o es).outcome s = .ok out) :
    Substituted c.registers c.image o es out := by
  obtain ⟨-, -, t, ms, h, s₁, found, registers, addresses, ms', h', s₂, P⟩ :=
    exists_passed serves done
  exact P.substituted

/-- Two runs are the same, down to the journal, if they tag the batch in the same way and rank and
rename the tagged batch in the same way. -/
theorem start_congr {c' : Collaborators} (serves : s.Serves es)
    (tagging : tag c.registers c.image o es = tag c'.registers c'.image o es)
    (ranking : ∀ t ms h s₁, TaggedFrom c.registers c.image o s (Heap.of es) es t ms h s₁ →
      rank c.evaluator b t = rank c'.evaluator b t)
    (renames : ∀ t ms h s₁, TaggedFrom c.registers c.image o s (Heap.of es) es t ms h s₁ →
      ∀ names, rename c.image o.placeholderWidth t names =
        rename c'.image o.placeholderWidth t names) :
    (canonicalize c b o es).start s = (canonicalize c' b o es).start s := by
  refine Run.SameFrom.start ?_
  unfold canonicalize
  refine Run.SameFrom.bind (Run.Ends.lift fun _ _ => ?_)
  refine Run.SameFrom.bind ((validate_ends s #[] es).imp ?_)
  rintro r s' j' ⟨rfl, rfl, -⟩ _ -
  rw [← tagging]
  refine Run.SameFrom.bind ((tag_ends serves.holds serves.below_heap).imp ?_)
  rintro r s₁ j' ⟨-, done⟩ t rfl
  obtain ⟨ms, h, G⟩ := done
  refine Run.SameFrom.of_eq ?_
  rw [ranking t ms h s₁ G]
  simp only [renames t ms h s₁ G]

/-- The content of the output. -/
theorem Substituted.content {R : Registers} {I : ImageQueries} {out : Canonical}
    (S : Substituted R I o es out) : out.trees.map Expr.tree = es.map fun e =>
      (e.mapLeaves fun x => leafOfRole I o out.report x (roleBy R I o x)).tree := by
  have trees := congrArg (List.map Expr.tree) S.trees
  rw [List.map_map, List.map_map] at trees
  rw [← List.map_congr_left fun e _ => Expr.tree_mapIds (fun _ => 0) e]
  exact trees

/-- Every node of the output has come about from the node of the batch in its place. -/
theorem Substituted.nodes {R : Registers} {I : ImageQueries} {out : Canonical}
    (S : Substituted R I o es out) :
    List.Forall₂ (fun x y => y.mapIds (fun _ => 0) =
        x.mapLeaves fun z => leafOfRole I o out.report z (roleBy R I o z))
      (Expr.nodesOf es) (Expr.nodesOf out.trees) := by
  have leaf : ∀ x : Expr, x.isLeaf → (x.mapIds fun _ => 0).isLeaf := by
    intro x h
    cases x <;> first | rfl | cases h
  have nodes := congrArg Expr.nodesOf S.trees
  rw [Expr.mapIds_eq_remake, Expr.mapLeaves_eq_remake, Expr.nodesOf_remake leaf,
    Expr.nodesOf_remake fun _ h => isLeaf_leafOfRole h _, ← Expr.mapIds_eq_remake,
    ← Expr.mapLeaves_eq_remake, map_eq_map_iff] at nodes
  exact nodes.flip

/-! ## A small batch -/

namespace Sample

/-- A section with the string "hi" at its start, and two thunks of one name behind it. -/
def image : Image :=
  (((Image.empty.addSection ⟨0x1000, 0x100, "data"⟩).addLocation
    (.ofString 0x1000 "hi")).addFunction 0x1010 (some "puts")).addFunction 0x1020 (some "puts")

/-- Plain values, the registers of the i386 and that image. -/
def collaborators : Collaborators :=
  ⟨Semantics.evaluator {}, Architecture.i386.registerList.registers, image.queries⟩

/-- Values for the two placeholders and for the thunks. -/
def bindings : Bindings :=
  ((Bindings.empty.setVar Population.register.placeholder 5).setVar
    Population.address.placeholder 7).setVar "puts" 9

/-- Addresses are made anonymous too. -/
def options : Options := { anonymizeAddresses := true }

/-- A register of two trees, which is one node, an address that lies in a string, and a thunk. -/
def batch : List Expr :=
  [.op 2 .add [.var 0 "eax" 4 none, .const 1 0x1000 4],
    .op 4 .shl [.var 0 "eax" 4 none, .const 3 0x1010 4]]

theorem nodesOf_batch : Expr.nodesOf batch =
    [.op 2 .add [.var 0 "eax" 4 none, .const 1 0x1000 4], .var 0 "eax" 4 none, .const 1 0x1000 4,
      .op 4 .shl [.var 0 "eax" 4 none, .const 3 0x1010 4], .var 0 "eax" 4 none,
      .const 3 0x1010 4] := by
  simp [batch, Expr.nodesOf_cons, Expr.nodes_eq, Expr.children]

theorem serves_batch : (Supply.startingAt 5).Serves batch where
  coherent := by simp [Expr.Coherent, nodesOf_batch, Expr.id]
  below := by simp [Expr.Below, nodesOf_batch, Expr.id, Supply.next, Supply.startingAt]

theorem wellFormed_of_all {es : List Expr}
    (h : (Expr.nodesOf es).all (fun x => x.fault.isNone) = true) : ∀ e ∈ es, e.WellFormed := by
  intro e he x hx
  have here := List.all_eq_true.mp h x (Expr.mem_nodesOf.mpr ⟨e, he, hx⟩)
  rwa [Option.isNone_iff_eq_none] at here

/-- Both thunks have one name. -/
theorem eq_puts_of_lookup {a : UInt64} {name : String}
    (found : image.functions.lookup a = some (some name)) : name = "puts" := by
  simp only [image, Image.addFunction, List.lookup_cons] at found
  split at found
  · simpa using found.symm
  · split at found
    · simpa using found.symm
    · cases found

theorem eq_puts {a : UInt64} {name : String}
    (h : options.thunk? collaborators.image a = some name) : name = "puts" :=
  eq_puts_of_lookup (lookup_of_thunk? h)

end Sample

end Lifted
