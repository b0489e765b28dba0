import Lifted.Proofs.Canonical.Values
import Mathlib

/-!
# Other registers, other addresses

A batch that uses other registers, of another machine even, and other addresses, has the same
canonical form, whatever the widths of these leaves are.

* `Relabelling`: other identities, registers, addresses and widths.
* `Relabelling.Sound`: what is different stays different, and what is anonymous stays so.
* `Bindings.Agree`: bindings that differ at most in what a run masks.
* `Relabelling.roleBy_relabel`, `word_relabel`: roles and words of the nodes of the other batch.
* `keysBy_remake`, `crowding_remake`, `holders_remake`: one population of the two batches.
* `canonicalize_relabel`: the two runs.
-/

namespace Lifted

/-- What becomes of identities, of the names of registers and of anonymous addresses, and how wide
a register or an anonymous address with an old identity is made. -/
structure Relabelling where
  node : NodeId → NodeId
  register : String → String
  address : UInt64 → UInt64
  bytes : NodeId → UInt8

/-- A leaf of the other batch. -/
def Relabelling.leaf (f : Relabelling) (R : Registers) (I : ImageQueries) (o : Options) :
    Expr → Expr
  | .var id name bytes label =>
    if R.knows name then .var (f.node id) (f.register name) (f.bytes id) label
    else .var (f.node id) name bytes label
  | .const id value bytes =>
    if o.anonymizes I value then .const (f.node id) (f.address value) (f.bytes id)
    else .const (f.node id) value bytes
  | e => e

/-- The tree with other registers and anonymous addresses, and other identities. -/
def Expr.relabel (f : Relabelling) (R : Registers) (I : ImageQueries) (o : Options) (e : Expr) :
    Expr :=
  e.remake f.node (f.leaf R I o)

/-- Different nodes, registers and anonymous addresses of the batch stay different. Registers become
registers of the other machine, which has none but these in the batch, and anonymous addresses
become such. -/
structure Relabelling.Sound (f : Relabelling) (R R' : Registers) (I : ImageQueries) (o : Options)
    (es : List Expr) : Prop where
  node : ∀ x ∈ Expr.nodesOf es, ∀ y ∈ Expr.nodesOf es, f.node x.id = f.node y.id → x.id = y.id
  registers : Set.InjOn f.register {name | RegisterIn R es name}
  known : ∀ name, RegisterIn R es name → R'.knows (f.register name) = true
  unknown : ∀ x ∈ Expr.nodesOf es, ∀ name, x.name? = some name → R.knows name = false →
    R'.knows name = false
  addresses : Set.InjOn f.address {a | AddressIn I o es a}
  anonymous : ∀ a, AddressIn I o es a → o.anonymizes I (f.address a) = true

/-- The bindings agree on all cells, on the variables of the batch that are no registers, on the
names of thunks and on the two names of placeholders. -/
structure Bindings.Agree (R : Registers) (I : ImageQueries) (o : Options) (es : List Expr)
    (b b' : Bindings) : Prop where
  cell : b.cell = b'.cell
  plain : ∀ x ∈ Expr.nodesOf es, ∀ name, x.name? = some name → R.knows name = false →
    b.var name = b'.var name
  thunk : ∀ a name, o.thunk? I a = some name → b.var name = b'.var name
  placeholder : ∀ p : Population, b.var p.placeholder = b'.var p.placeholder

/-! ## One population -/

theorem numbering_map {κ κ' : Type} [BEq κ] [LawfulBEq κ] [BEq κ'] [LawfulBEq κ'] (p : Population)
    {g : κ → κ'} {keys : List κ} (inj : ∀ k ∈ keys, ∀ k' ∈ keys, g k = g k' → k = k') :
    numbering p (keys.map g) = (numbering p keys).map (Prod.map g id) := by
  unfold numbering
  rw [eraseDups_map inj, List.zipIdx_map, List.map_map, List.map_map]
  rfl

/-- A key that is named anew has the name that it had. -/
theorem lookup_numbering_map {κ κ' : Type} [BEq κ] [LawfulBEq κ] [BEq κ'] [LawfulBEq κ']
    (p : Population) {g : κ → κ'} {keys : List κ}
    (inj : ∀ k ∈ keys, ∀ k' ∈ keys, g k = g k' → k = k') {k : κ} (hk : k ∈ keys) :
    (numbering p (keys.map g)).lookup (g k) = (numbering p keys).lookup k := by
  have mem : ∀ {k : κ} {name : String}, (k, name) ∈ numbering p keys → k ∈ keys := fun h =>
    exists_name_iff.mp ⟨_, lookup_numbering.mpr h⟩
  refine Option.ext fun name => ?_
  rw [lookup_numbering, lookup_numbering, numbering_map p inj, List.mem_map]
  constructor
  · rintro ⟨⟨k', name'⟩, h, same⟩
    obtain ⟨named, rfl⟩ : g k' = g k ∧ name' = name := Prod.mk.inj same
    rwa [inj k hk k' (mem h) named.symm]
  · intro h
    exact ⟨(k, name), h, rfl⟩

section

variable {κ κ' : Type} {node : NodeId → NodeId} {f : Expr → Expr} {g : κ → κ'} {es : List Expr}
  {word word' : Expr → UInt64} {key : Expr → Option κ} {key' : Expr → Option κ'}

theorem spots_remake (hf : ∀ x : Expr, x.isLeaf → (f x).isLeaf)
    (keys : ∀ x ∈ Expr.nodesOf es, key' (x.remake node f) = (key x).map g) :
    spots key' (es.map (Expr.remake node f)) =
      (spots key es).map (Prod.map (Position.remake node f) g) := by
  unfold spots
  rw [Expr.positions_remake hf, List.filterMap_map, List.map_filterMap]
  refine List.filterMap_congr fun q hq => ?_
  show (key' (q.node.remake node f)).map _ = _
  rw [keys q.node (Expr.node_mem_nodesOf hq), Option.map_map, Option.map_map]
  rfl

theorem words_remake (words : ∀ x ∈ Expr.nodesOf es, word' (x.remake node f) = word x)
    {a : Position × κ} (ha : a ∈ spots key es) :
    ((a.1.remake node f).path.map word') = a.1.path.map word := by
  rw [Position.path_remake, List.map_map]
  refine List.map_congr_left fun x hx => ?_
  exact words x (Expr.mem_nodesOf_of_mem_path (mem_spots.mp ha).1 hx)

theorem keysBy_remake (hf : ∀ x : Expr, x.isLeaf → (f x).isLeaf)
    (hid : ∀ x : Expr, x.isLeaf → (f x).id = node x.id)
    (inj : ∀ x ∈ Expr.nodesOf es, ∀ y ∈ Expr.nodesOf es, node x.id = node y.id → x.id = y.id)
    (keys : ∀ x ∈ Expr.nodesOf es, key' (x.remake node f) = (key x).map g)
    (words : ∀ x ∈ Expr.nodesOf es, word' (x.remake node f) = word x) :
    keysBy word' key' (es.map (Expr.remake node f)) = (keysBy word key es).map g := by
  have rank : ∀ a ∈ spots key es,
      ((a.1.node.remake node f).rank (Expr.nodesOf (es.map (Expr.remake node f)))) =
        a.1.node.rank (Expr.nodesOf es) := fun a ha =>
    Expr.rank_remake hf hid inj (Expr.node_mem_nodesOf (mem_spots.mp ha).1)
  unfold keysBy
  rw [spots_remake hf keys, ← List.map_mergeSort, List.map_map, List.map_map]
  · rfl
  · intro a ha b hb
    show spotLe _ _ a b = spotLe _ _ (a.1.remake node f, g a.2) (b.1.remake node f, g b.2)
    rw [spotLe, spotLe, words_remake words ha, words_remake words hb]
    simp only [Position.remake, rank a ha, rank b hb]

theorem crowding_remake [DecidableEq κ] [DecidableEq κ']
    (hf : ∀ x : Expr, x.isLeaf → (f x).isLeaf)
    (keys : ∀ x ∈ Expr.nodesOf es, key' (x.remake node f) = (key x).map g)
    (words : ∀ x ∈ Expr.nodesOf es, word' (x.remake node f) = word x)
    (injKey : Set.InjOn g {k | ∃ x ∈ Expr.nodesOf es, key x = some k}) :
    crowding word' key' (es.map (Expr.remake node f)) = crowding word key es := by
  have pairs : marks word' key' (es.map (Expr.remake node f)) =
      (marks word key es).map (Prod.map id g) := by
    unfold marks
    rw [spots_remake hf keys, List.map_map, List.map_map]
    exact List.map_congr_left fun a ha => Prod.ext (words_remake words ha) rfl
  have values : (marks word' key' (es.map (Expr.remake node f))).map Prod.fst =
      (marks word key es).map Prod.fst := by
    rw [pairs, List.map_map]
    rfl
  rw [crowding_eq_marks, crowding_eq_marks, values, pairs, card_toFinset_map]
  intro x hx y hy same
  obtain ⟨a, ha, rfl⟩ := List.mem_map.mp hx
  obtain ⟨a', ha', rfl⟩ := List.mem_map.mp hy
  have known : ∀ a ∈ spots key es, ∃ x ∈ Expr.nodesOf es, key x = some a.2 := by
    intro a ha
    exact exists_spot_iff.mp (List.mem_map_of_mem ha)
  exact Prod.ext (Prod.mk.inj same).1 (injKey (known a ha) (known a' ha') (Prod.mk.inj same).2)

theorem holders_remake (hf : ∀ x : Expr, x.isLeaf → (f x).isLeaf)
    (hid : ∀ x : Expr, x.isLeaf → (f x).id = node x.id)
    (inj : ∀ x ∈ Expr.nodesOf es, ∀ y ∈ Expr.nodesOf es, node x.id = node y.id → x.id = y.id)
    (keys : ∀ x ∈ Expr.nodesOf es, key' (x.remake node f) = (key x).map g) :
    holders key' (es.map (Expr.remake node f)) = holders key es := by
  have ids : ((Expr.nodesOf (es.map (Expr.remake node f))).filter fun x => (key' x).isSome).map
      Expr.id = (((Expr.nodesOf es).filter fun x => (key x).isSome).map Expr.id).map node := by
    rw [Expr.nodesOf_remake hf, List.filter_map, List.map_map, List.map_map]
    have same : (Expr.nodesOf es).filter ((fun x => (key' x).isSome) ∘ Expr.remake node f) =
        (Expr.nodesOf es).filter fun x => (key x).isSome :=
      List.filter_congr fun x hx => by rw [Function.comp, keys x hx, Option.isSome_map]
    rw [same]
    exact List.map_congr_left fun x _ => Expr.id_remake hid x
  unfold holders
  rw [ids, card_toFinset_map]
  intro i hi k hk same
  obtain ⟨x, hx, rfl⟩ := List.mem_map.mp hi
  obtain ⟨y, hy, rfl⟩ := List.mem_map.mp hk
  exact inj x (List.mem_of_mem_filter hx) y (List.mem_of_mem_filter hy) same

end

/-! ## The two batches -/

namespace Relabelling

variable {f : Relabelling} {R R' : Registers} {I : ImageQueries} {o : Options} {es : List Expr}
  {x : Expr}

theorem isLeaf_leaf (leaf : x.isLeaf) : (f.leaf R I o x).isLeaf := by
  cases x with
  | const | var =>
    rw [Relabelling.leaf]
    split <;> rfl
  | mem | op => cases leaf

theorem id_leaf (leaf : x.isLeaf) : (f.leaf R I o x).id = f.node x.id := by
  cases x with
  | const | var =>
    rw [Relabelling.leaf]
    split <;> rfl
  | mem | op => cases leaf

/-- The role of the new leaf. -/
def role (f : Relabelling) : Role → Role
  | .register name => .register (f.register name)
  | .address a => .address (f.address a)
  | .thunk name => .thunk name
  | .kept => .kept

theorem roleBy_relabel (sound : f.Sound R R' I o es) (hx : x ∈ Expr.nodesOf es) :
    roleBy R' I o (x.relabel f R I o) = f.role (roleBy R I o x) := by
  cases leaf : x.isLeaf with
  | false =>
    rw [roleBy_of_not_isLeaf leaf, roleBy_of_not_isLeaf, role]
    unfold Expr.relabel
    rw [Expr.isLeaf_remake fun _ => isLeaf_leaf, leaf]
  | true =>
    unfold Expr.relabel
    rw [Expr.remake_of_isLeaf leaf]
    cases hr : roleBy R I o x with
    | register name =>
      have inside : RegisterIn R es name := registerIn_iff.mpr ⟨x, hx, keyOf_eq_some_iff.mpr hr⟩
      obtain ⟨known, id, bytes, label, rfl⟩ := eq_var_of_register hr
      rw [Relabelling.leaf, if_pos known, roleBy_var, if_pos (sound.known name inside), role]
    | address a =>
      have inside : AddressIn I o es a := addressIn_iff.mpr ⟨x, hx, addressOf_eq_some_iff.mpr hr⟩
      obtain ⟨anonymous, id, bytes, rfl⟩ := eq_const_of_address hr
      have anonymous' := sound.anonymous a inside
      rw [Relabelling.leaf, if_pos anonymous, roleBy_const, thunk?_of_anonymizes anonymous',
        if_pos anonymous', role]
    | thunk name =>
      obtain ⟨id, a, bytes, rfl, ht⟩ := eq_const_of_thunk hr
      have named : ¬o.anonymizes I a = true := by
        intro h
        rw [thunk?_of_anonymizes h] at ht
        cases ht
      rw [Relabelling.leaf, if_neg named, roleBy_const, ht, role]
    | kept =>
      cases x with
      | const id a bytes =>
        obtain ⟨named, noThunk⟩ := const_of_kept hr
        rw [Relabelling.leaf, named, if_neg Bool.false_ne_true, roleBy_const, noThunk, named, role,
          if_neg Bool.false_ne_true]
      | var id name bytes label =>
        have unknown := not_knows_of_kept hr
        rw [Relabelling.leaf, unknown, if_neg Bool.false_ne_true, roleBy_var,
          sound.unknown _ hx name rfl unknown, role, if_neg Bool.false_ne_true]
      | mem | op => cases leaf

/-- A leaf that is kept is the same but for its identity. -/
theorem tree_leaf_of_kept (kept : roleBy R I o x = .kept) : (f.leaf R I o x).tree = x.tree := by
  cases x with
  | const id a bytes =>
    rw [Relabelling.leaf, (const_of_kept kept).1, if_neg Bool.false_ne_true]
    rfl
  | var id name bytes label =>
    rw [Relabelling.leaf, not_knows_of_kept kept, if_neg Bool.false_ne_true]
    rfl
  | mem | op => rfl

theorem tree_mask_leaf (sound : f.Sound R R' I o es) (hx : x ∈ Expr.nodesOf es)
    (leaf : x.isLeaf) : (mask R' I o (f.leaf R I o x)).tree = (mask R I o x).tree := by
  have role := roleBy_relabel sound hx
  unfold Expr.relabel at role
  rw [Expr.remake_of_isLeaf leaf] at role
  unfold mask
  rw [role]
  cases hr : roleBy R I o x with
  | register | address | thunk => rfl
  | kept => exact tree_leaf_of_kept hr

end Relabelling

section

variable {S : Semantics} {f : Relabelling} {R R' : Registers} {I : ImageQueries} {o : Options}
  {b b' : Bindings} {es : List Expr} {x : Expr}

/-- A leaf that is masked has a name on which the bindings agree. -/
theorem Bindings.Agree.var_mask (agree : b.Agree R I o es b') (hx : x ∈ Expr.nodesOf es)
    {name : String} (hn : (mask R I o x).name? = some name) : b.var name = b'.var name := by
  unfold mask at hn
  cases hr : roleBy R I o x with
  | register name' =>
    rw [hr] at hn
    cases hn
    exact agree.placeholder .register
  | address a =>
    rw [hr] at hn
    cases hn
    exact agree.placeholder .address
  | thunk name' =>
    obtain ⟨id, a, bytes, rfl, ht⟩ := eq_const_of_thunk hr
    rw [hr] at hn
    cases hn
    exact agree.thunk a _ ht
  | kept =>
    rw [hr] at hn
    cases x with
    | const | mem | op => cases hn
    | var id name' bytes label =>
      cases hn
      exact agree.plain _ hx _ rfl (not_knows_of_kept hr)

/-- With leaves masked the nodes of the two batches have the same values. -/
theorem masked_relabel (sound : f.Sound R R' I o es) (agree : b.Agree R I o es b')
    (hx : x ∈ Expr.nodesOf es) :
    S.masked R' I o b' (x.relabel f R I o) = S.masked R I o b x := by
  have inside : ∀ y ∈ x.nodes, y ∈ Expr.nodesOf es := by
    intro y hy
    exact Expr.mem_nodesOf_of_mem_nodes hx hy
  rw [Semantics.masked, Semantics.masked, Expr.relabel,
    Expr.mapLeaves_remake fun _ => Relabelling.isLeaf_leaf]
  refine (S.value_congr ?_ agree.cell fun name hn => ?_).symm
  · exact Expr.tree_mapLeaves_congr fun y hy leaf =>
      (Relabelling.tree_mask_leaf sound (inside y hy) leaf).symm
  · obtain ⟨y, hy, -, hn⟩ := hn.exists_leaf fun _ => isLeaf_mask
    exact agree.var_mask (inside y hy) hn

theorem word_relabel (sound : f.Sound R R' I o es) (agree : b.Agree R I o es b')
    (hx : x ∈ Expr.nodesOf es) : S.word R' I o b' (x.relabel f R I o) = S.word R I o b x := by
  unfold Semantics.word
  rw [masked_relabel sound agree hx]

theorem keyOf_relabel (sound : f.Sound R R' I o es) (hx : x ∈ Expr.nodesOf es) :
    R'.keyOf (x.relabel f R I o) = (R.keyOf x).map f.register := by
  rw [keyOf_eq (I := I) (o := o), keyOf_eq (I := I) (o := o),
    Relabelling.roleBy_relabel sound hx]
  cases roleBy R I o x <;> rfl

theorem addressOf_relabel (sound : f.Sound R R' I o es) (hx : x ∈ Expr.nodesOf es) :
    addressOf I o (x.relabel f R I o) = (addressOf I o x).map f.address := by
  rw [addressOf_eq (R := R'), addressOf_eq (R := R), Relabelling.roleBy_relabel sound hx]
  cases roleBy R I o x <;> rfl

end

/-! ## The two runs -/

section

variable {S : Semantics} {f : Relabelling} {R R' : Registers} {I : ImageQueries} {o : Options}
  {b b' : Bindings} {s s' : Supply} {es : List Expr} {out out' : Canonical}

/-- The report on the other batch: the same numbers, and the same names under other keys. -/
structure Report.SameUnder (f : Relabelling) (R : Registers) (I : ImageQueries) (o : Options)
    (es : List Expr) (report report' : Report) : Prop where
  registerPlaceholders : report'.registerPlaceholders = report.registerPlaceholders
  addressPlaceholders : report'.addressPlaceholders = report.addressPlaceholders
  collisions : report'.collisions = report.collisions
  registerName : ∀ name, RegisterIn R es name →
    report'.registerName (f.register name) = report.registerName name
  addressName : ∀ a, AddressIn I o es a →
    report'.addressName (f.address a) = report.addressName a

theorem reportBy_relabel (sound : f.Sound R R' I o es) (agree : b.Agree R I o es b') :
    Report.SameUnder f R I o es (reportBy (S.word R I o b) es R.keyOf (addressOf I o))
      (reportBy (S.word R' I o b') (es.map (Expr.relabel f R I o)) R'.keyOf (addressOf I o)) := by
  have leaves : ∀ x : Expr, x.isLeaf → (f.leaf R I o x).isLeaf := fun _ => Relabelling.isLeaf_leaf
  have ids : ∀ x : Expr, x.isLeaf → (f.leaf R I o x).id = f.node x.id := fun _ =>
    Relabelling.id_leaf
  have words : ∀ x ∈ Expr.nodesOf es,
      S.word R' I o b' (x.relabel f R I o) = S.word R I o b x := fun x => word_relabel sound agree
  have registers := fun x (hx : x ∈ Expr.nodesOf es) => keyOf_relabel sound hx
  have addresses := fun x (hx : x ∈ Expr.nodesOf es) => addressOf_relabel sound hx
  have injR : Set.InjOn f.register {name | ∃ x ∈ Expr.nodesOf es, R.keyOf x = some name} := by
    simpa only [registerIn_iff] using sound.registers
  have injA : Set.InjOn f.address {a | ∃ x ∈ Expr.nodesOf es, addressOf I o x = some a} := by
    simpa only [addressIn_iff] using sound.addresses
  refine ⟨holders_remake leaves ids sound.node registers,
    holders_remake leaves ids sound.node addresses, ?_, fun name hn => ?_, fun a ha => ?_⟩
  · exact congrArg₂ (· + ·) (crowding_remake leaves registers words injR)
      (crowding_remake leaves addresses words injA)
  · have keys : keysBy (S.word R' I o b') R'.keyOf (es.map (Expr.relabel f R I o)) =
        (keysBy (S.word R I o b) R.keyOf es).map f.register :=
      keysBy_remake leaves ids sound.node registers words
    rw [registerName_reportBy, registerName_reportBy, keys, lookup_numbering_map]
    · exact fun k hk k' hk' same => injR (mem_keysBy.mp hk) (mem_keysBy.mp hk') same
    · exact mem_keysBy.mpr (registerIn_iff.mp hn)
  · have keys : keysBy (S.word R' I o b') (addressOf I o) (es.map (Expr.relabel f R I o)) =
        (keysBy (S.word R I o b) (addressOf I o) es).map f.address :=
      keysBy_remake leaves ids sound.node addresses words
    rw [addressName_reportBy, addressName_reportBy, keys, lookup_numbering_map]
    · exact fun k hk k' hk' same => injA (mem_keysBy.mp hk) (mem_keysBy.mp hk') same
    · exact mem_keysBy.mpr (addressIn_iff.mp ha)

/-- Where the names are the same, the leaves come to the same. -/
theorem tree_leafOfRole_relabel {report report' : Report} (sound : f.Sound R R' I o es)
    (same : Report.SameUnder f R I o es report report') {x : Expr} (hx : x ∈ Expr.nodesOf es)
    (leaf : x.isLeaf) :
    (leafOfRole I o report' (f.leaf R I o x) (roleBy R' I o (f.leaf R I o x))).tree =
      (leafOfRole I o report x (roleBy R I o x)).tree := by
  have role := Relabelling.roleBy_relabel sound hx
  unfold Expr.relabel at role
  rw [Expr.remake_of_isLeaf leaf] at role
  rw [role]
  cases hr : roleBy R I o x with
  | register name =>
    have inside : RegisterIn R es name := registerIn_iff.mpr ⟨x, hx, keyOf_eq_some_iff.mpr hr⟩
    rw [Relabelling.role, leafOfRole, leafOfRole, same.registerName name inside]
  | address a =>
    have inside : AddressIn I o es a := addressIn_iff.mpr ⟨x, hx, addressOf_eq_some_iff.mpr hr⟩
    rw [Relabelling.role, leafOfRole, leafOfRole, same.addressName a inside]
    rfl
  | thunk name => rfl
  | kept =>
    unfold Relabelling.role leafOfRole
    rw [Expr.tree_mapIds, Expr.tree_mapIds]
    exact Relabelling.tree_leaf_of_kept hr

/-- Register and address renaming invariance: the runs on a batch and on the batch with other
registers, of whatever machine, and other anonymous addresses, of whatever widths, both fail, or
both succeed, with outputs of the same content and the same report under the other keys. -/
theorem canonicalize_relabel (hR : R.Answers) (hR' : R'.Answers) (hI : I.Answers)
    (sound : f.Sound R R' I o es) (agree : b.Agree R I o es b') (serves : s.Serves es)
    (serves' : s'.Serves (es.map (Expr.relabel f R I o))) (valid : ∀ e ∈ es, e.WellFormed)
    (valid' : ∀ e ∈ es.map (Expr.relabel f R I o), e.WellFormed) :
    ((∃ out, (canonicalize ⟨S.evaluator, R, I⟩ b o es).outcome s = .ok out) ↔
      ∃ out', (canonicalize ⟨S.evaluator, R', I⟩ b' o (es.map (Expr.relabel f R I o))).outcome s' =
        .ok out') ∧
    ∀ out out', (canonicalize ⟨S.evaluator, R, I⟩ b o es).outcome s = .ok out →
      (canonicalize ⟨S.evaluator, R', I⟩ b' o (es.map (Expr.relabel f R I o))).outcome s' =
        .ok out' →
      out'.trees.map Expr.tree = out.trees.map Expr.tree ∧
        Report.SameUnder f R I o es out.report out'.report := by
  constructor
  · rw [exists_canonical_iff hR hI serves, exists_canonical_iff hR' hI serves']
    have values : (∀ e ∈ es.map (Expr.relabel f R I o), ∃ v, S.masked R' I o b' e = .ok v) ↔
        ∀ e ∈ es, ∃ v, S.masked R I o b e = .ok v := by
      rw [List.forall_mem_map]
      refine forall₂_congr fun e he => ?_
      rw [masked_relabel sound agree (Expr.mem_nodesOf.mpr ⟨e, he, e.self_mem_nodes⟩)]
    rw [values]
    exact ⟨fun h => ⟨h.1, valid', h.2.2⟩, fun h => ⟨h.1, valid, h.2.2⟩⟩
  · intro out out' done done'
    have same : Report.SameUnder f R I o es out.report out'.report := by
      rw [report_eq serves done, report_eq serves' done']
      exact reportBy_relabel sound agree
    refine ⟨?_, same⟩
    have T := (substituted_of_ok serves done).content
    have T' := (substituted_of_ok serves' done').content
    rw [T, T', List.map_map]
    refine List.map_congr_left fun e he => ?_
    rw [Function.comp, Expr.relabel, Expr.mapLeaves_remake fun _ => Relabelling.isLeaf_leaf]
    exact Expr.tree_mapLeaves_congr fun x hx leaf =>
      tree_leafOfRole_relabel sound same (Expr.mem_nodesOf.mpr ⟨e, he, hx⟩) leaf

end

/-! ## The small batch with another machine's register -/

namespace Sample

/-- A register of the arm in place of one of the i386, an address without a string, and other
widths. -/
def relabelling : Relabelling where
  node id := id + 10
  register _ := "r0"
  address _ := 0x1004
  bytes id := if id = 0 then 2 else 8

/-- The machine that has the new register. -/
def arm : Registers := Architecture.arm.registerList.registers

/-- The new register has a value, the old one has none. -/
def otherBindings : Bindings := bindings.setVar "r0" 3

theorem name_batch {x : Expr} (hx : x ∈ Expr.nodesOf batch) {name : String}
    (hn : x.name? = some name) : name = "eax" := by
  rw [nodesOf_batch] at hx
  simp only [List.mem_cons, List.not_mem_nil, or_false] at hx
  rcases hx with rfl | rfl | rfl | rfl | rfl | rfl <;> cases hn <;> rfl

theorem knows_batch {x : Expr} (hx : x ∈ Expr.nodesOf batch) {name : String}
    (hn : x.name? = some name) : collaborators.registers.knows name = true := by
  rw [name_batch hx hn]
  decide

theorem address_batch {a : UInt64} (ha : AddressIn collaborators.image options batch a) :
    a = 0x1000 := by
  obtain ⟨anonymous, x, hx, hv⟩ := ha
  have thunk : options.anonymizes collaborators.image 0x1010 = false := by decide
  rw [nodesOf_batch] at hx
  simp only [List.mem_cons, List.not_mem_nil, or_false] at hx
  rcases hx with rfl | rfl | rfl | rfl | rfl | rfl <;> cases hv
  · rfl
  · rw [thunk] at anonymous
    cases anonymous

theorem sound_relabelling : relabelling.Sound collaborators.registers arm collaborators.image
    options batch where
  node x _ y _ same := Nat.add_right_cancel same
  registers := by
    rintro name ⟨-, x, hx, hn⟩ name' ⟨-, x', hx', hn'⟩ _
    exact (name_batch hx hn).trans (name_batch hx' hn').symm
  known _ _ := by
    have known : arm.knows "r0" = true := by decide
    exact known
  unknown x hx name hn unknown := by
    rw [knows_batch hx hn] at unknown
    cases unknown
  addresses := fun a ha a' ha' _ => (address_batch ha).trans (address_batch ha').symm
  anonymous _ _ := by
    have anonymous : options.anonymizes collaborators.image 0x1004 = true := by decide
    exact anonymous

theorem agree_otherBindings :
    bindings.Agree collaborators.registers collaborators.image options batch otherBindings where
  cell := rfl
  plain x hx name hn unknown := by
    rw [knows_batch hx hn] at unknown
    cases unknown
  thunk a name h := by
    rw [eq_puts h]
    rfl
  placeholder p := by cases p <;> rfl

theorem relabel_batch :
    batch.map (Expr.relabel relabelling collaborators.registers collaborators.image options) =
      [.op 12 .add [.var 10 "r0" 2 none, .const 11 0x1004 8],
        .op 14 .shl [.var 10 "r0" 2 none, .const 13 0x1010 4]] := rfl

theorem nodesOf_relabel_batch : Expr.nodesOf
    (batch.map (Expr.relabel relabelling collaborators.registers collaborators.image options)) =
    [.op 12 .add [.var 10 "r0" 2 none, .const 11 0x1004 8], .var 10 "r0" 2 none,
      .const 11 0x1004 8, .op 14 .shl [.var 10 "r0" 2 none, .const 13 0x1010 4],
      .var 10 "r0" 2 none, .const 13 0x1010 4] := by
  simp [relabel_batch, Expr.nodesOf_cons, Expr.nodes_eq, Expr.children]

theorem serves_relabel_batch : (Supply.startingAt 15).Serves
    (batch.map (Expr.relabel relabelling collaborators.registers collaborators.image options)) where
  coherent := by simp [Expr.Coherent, nodesOf_relabel_batch, Expr.id]
  below := by simp [Expr.Below, nodesOf_relabel_batch, Expr.id, Supply.next, Supply.startingAt]

end Sample

theorem canonicalize_relabel_sample : ∃ out out',
    (canonicalize Sample.collaborators Sample.bindings Sample.options Sample.batch).outcome
      (Supply.startingAt 5) = .ok out ∧
    (canonicalize ⟨Semantics.evaluator {}, Sample.arm, Sample.collaborators.image⟩
      Sample.otherBindings Sample.options (Sample.batch.map (Expr.relabel Sample.relabelling
        Sample.collaborators.registers Sample.collaborators.image Sample.options))).outcome
      (Supply.startingAt 15) = .ok out' ∧
    out'.trees.map Expr.tree = out.trees.map Expr.tree ∧
    Report.SameUnder Sample.relabelling Sample.collaborators.registers Sample.collaborators.image
      Sample.options Sample.batch out.report out'.report := by
  have runs : ((canonicalize Sample.collaborators Sample.bindings Sample.options
      Sample.batch).outcome (Supply.startingAt 5)).toOption.map
        (fun out => out.report.registerName "eax") = some (some "0indreg") := by cbv
  obtain ⟨out, done, -⟩ := exists_ok_of_map_eq runs
  obtain ⟨both, same⟩ := canonicalize_relabel (RegisterList.answers _) (RegisterList.answers _)
    (Image.answers _) Sample.sound_relabelling Sample.agree_otherBindings Sample.serves_batch
    Sample.serves_relabel_batch (Sample.wellFormed_of_all (by decide))
    (Sample.wellFormed_of_all (by decide))
  obtain ⟨out', done'⟩ := both.mp ⟨out, done⟩
  exact ⟨out, out', done, done', same out out' done done'⟩

end Lifted
