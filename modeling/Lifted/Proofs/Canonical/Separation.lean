import Lifted.Proofs.Canonical.Outcome
import Lifted.Proofs.Expr.Alike
import Mathlib

/-!
# One canonical form, one batch up to names

Batches that come to the same canonical form are one batch up to the names of registers, the values
of anonymous addresses and the places of thunks.

* `NamesApart`: no variable of the batch has a name that a run would give.
* `Origin`: the name that a leaf has in the output tells its role.
* `Partner`: the roles of two leaves that have become equal.
* `Counterpart`: how two leaves then correspond, by one map of registers and one of addresses.
* `canonicalize_separates`: outputs of one content come from batches that correspond so.
-/

namespace Lifted

/-! ## Names that make a bijection -/

/-- Where the same names are given on both sides, each once, they make a bijection. -/
theorem exists_bijOn {α β γ : Type} [Inhabited β] {f : α → Option γ} {g : β → Option γ}
    (total : ∀ a c, f a = some c → ∃ b, g b = some c)
    (onto : ∀ b c, g b = some c → ∃ a, f a = some c)
    (injF : ∀ a a' c, f a = some c → f a' = some c → a = a')
    (injG : ∀ b b' c, g b = some c → g b' = some c → b = b') :
    ∃ m : α → β, Set.BijOn m {a | ∃ c, f a = some c} {b | ∃ c, g b = some c} ∧
      ∀ a b c, f a = some c → g b = some c → m a = b := by
  classical
  let m (a : α) : β := if h : ∃ b, ∃ c, f a = some c ∧ g b = some c then h.choose else default
  have hm : ∀ a b c, f a = some c → g b = some c → m a = b := fun a b c ha hb => by
    have some : ∃ b, ∃ c, f a = some c ∧ g b = some c := ⟨b, c, ha, hb⟩
    obtain ⟨c', ha', hb'⟩ := some.choose_spec
    rw [ha] at ha'
    show (if h : _ then _ else _) = b
    rw [dif_pos some]
    exact injG _ _ c (Option.some.inj ha' ▸ hb') hb
  refine ⟨m, ⟨?_, ?_, ?_⟩, hm⟩
  · rintro a ⟨c, ha⟩
    obtain ⟨b, hb⟩ := total a c ha
    rw [hm a b c ha hb]
    exact ⟨c, hb⟩
  · rintro a ⟨c, ha⟩ a' ⟨c', ha'⟩ same
    obtain ⟨b, hb⟩ := total a c ha
    obtain ⟨b', hb'⟩ := total a' c' ha'
    rw [hm a b c ha hb, hm a' b' c' ha' hb'] at same
    subst same
    rw [hb] at hb'
    exact injF a a' c ha (Option.some.inj hb' ▸ ha')
  · rintro b ⟨c, hb⟩
    obtain ⟨a, ha⟩ := onto b c hb
    exact ⟨a, ⟨c, ha⟩, hm a b c ha hb⟩

/-! ## Names that tell roles -/

section

variable (R : Registers) (I : ImageQueries) (o : Options)

/-- No variable that is kept has the name of a thunk, and neither variables that are kept nor thunks
have canonical names. -/
structure NamesApart (es : List Expr) : Prop where
  thunk : ∀ x ∈ Expr.nodesOf es, ∀ name, x.name? = some name → R.knows name = false →
    ∀ a, o.thunk? I a ≠ some name
  canonical : ∀ x ∈ Expr.nodesOf es, ∀ name, x.name? = some name → R.knows name = false →
    ∀ (p : Population) k, name ≠ p.canonicalName k
  canonical_thunk : ∀ a name, o.thunk? I a = some name → ∀ (p : Population) k,
    name ≠ p.canonicalName k

/-- A leaf of this role may have this name in the output, or be no variable. -/
inductive Origin (report : Report) : Role → Option String → Prop
  | register {name : String} (k : Nat)
    (h : report.registerName name = some (Population.register.canonicalName k)) :
    Origin report (.register name) (some (Population.register.canonicalName k))
  | address {a : UInt64} (k : Nat)
    (h : report.addressName a = some (Population.address.canonicalName k)) :
    Origin report (.address a) (some (Population.address.canonicalName k))
  | thunk {name : String} (a : UInt64) (h : o.thunk? I a = some name) :
    Origin report (.thunk name) (some name)
  | plain {name : String} (thunk : ∀ a, o.thunk? I a ≠ some name)
    (canonical : ∀ (p : Population) k, name ≠ p.canonicalName k) :
    Origin report .kept (some name)
  | constant : Origin report .kept none

/-- The roles of two leaves, each in its batch, that have become equal. -/
inductive Partner (report report' : Report) : Role → Role → Prop
  | register {name name' new : String} (h : report.registerName name = some new)
    (h' : report'.registerName name' = some new) :
    Partner report report' (.register name) (.register name')
  | address {a a' : UInt64} {new : String} (h : report.addressName a = some new)
    (h' : report'.addressName a' = some new) : Partner report report' (.address a) (.address a')
  | thunk (name : String) : Partner report report' (.thunk name) (.thunk name)
  | kept : Partner report report' .kept .kept

variable {R I o}

theorem Origin.partner {report report' : Report} {role role' : Role} {name? : Option String}
    (apart : ∀ a name, o.thunk? I a = some name → ∀ (p : Population) k, name ≠ p.canonicalName k)
    (h : Origin I o report role name?) (h' : Origin I o report' role' name?) :
    Partner report report' role role' := by
  generalize hn : name? = name'? at h'
  cases h with
  | register k h =>
    cases h' with
    | register k' h' => exact .register h (Option.some.inj hn ▸ h')
    | address k' h' => exact absurd (Option.some.inj hn) (Population.register_ne_address k k')
    | thunk a' h' => exact absurd (Option.some.inj hn).symm (apart a' _ h' .register k)
    | plain _ canonical => exact absurd (Option.some.inj hn).symm (canonical .register k)
    | constant => cases hn
  | address k h =>
    cases h' with
    | register k' h' => exact absurd (Option.some.inj hn).symm (Population.register_ne_address k' k)
    | address k' h' => exact .address h (Option.some.inj hn ▸ h')
    | thunk a' h' => exact absurd (Option.some.inj hn).symm (apart a' _ h' .address k)
    | plain _ canonical => exact absurd (Option.some.inj hn).symm (canonical .address k)
    | constant => cases hn
  | thunk a h =>
    cases h' with
    | register k' h' => exact absurd (Option.some.inj hn) (apart a _ h .register k')
    | address k' h' => exact absurd (Option.some.inj hn) (apart a _ h .address k')
    | thunk a' h' =>
      cases hn
      exact .thunk _
    | plain thunk _ => exact absurd (Option.some.inj hn ▸ h) (thunk a)
    | constant => cases hn
  | plain thunk canonical =>
    cases h' with
    | register k' h' => exact absurd (Option.some.inj hn) (canonical .register k')
    | address k' h' => exact absurd (Option.some.inj hn) (canonical .address k')
    | thunk a' h' => exact absurd (Option.some.inj hn ▸ h') (thunk a')
    | plain _ _ => exact .kept
    | constant => cases hn
  | constant =>
    cases h' with
    | register | address | thunk | plain => cases hn
    | constant => exact .kept

/-- What a leaf becomes has a name that tells its role. -/
theorem Substituted.origin {es : List Expr} {out : Canonical} (S : Substituted R I o es out)
    (apart : NamesApart R I o es) {x : Expr} (hx : x ∈ Expr.nodesOf es) :
    Origin I o out.report (roleBy R I o x)
      (leafOfRole I o out.report x (roleBy R I o x)).name? := by
  cases role : roleBy R I o x with
  | register name =>
    have key : RegisterIn R es name :=
      registerIn_iff.mpr ⟨x, hx, keyOf_eq_some_iff.mpr role⟩
    obtain ⟨new, hn⟩ := (S.registers name).mpr key
    obtain ⟨k, rfl⟩ := S.canonical_register name new hn
    rw [leafOfRole, hn]
    exact .register k hn
  | address a =>
    have key : AddressIn I o es a :=
      addressIn_iff.mpr ⟨x, hx, addressOf_eq_some_iff.mpr role⟩
    obtain ⟨new, hn⟩ := (S.addresses a).mpr key
    obtain ⟨k, rfl⟩ := S.canonical_address a new hn
    rw [leafOfRole, hn]
    exact .address k hn
  | thunk name =>
    obtain ⟨id, a, bytes, rfl, ht⟩ := eq_const_of_thunk role
    exact .thunk a ht
  | kept =>
    unfold leafOfRole
    cases x with
    | const | mem | op => exact .constant
    | var id name bytes label =>
      have unknown := not_knows_of_kept role
      exact .plain (apart.thunk _ hx name rfl unknown) (apart.canonical _ hx name rfl unknown)

end

/-! ## Batches of one canonical form -/

section

variable (R : Registers) (I : ImageQueries) (o : Options)

/-- How leaves correspond under a map of registers and a map of addresses. Thunks correspond by
name, and whatever is kept corresponds to what is equal to it. -/
inductive Counterpart (register : String → String) (address : UInt64 → UInt64) :
    Expr → Expr → Prop
  | register {name : String} (known : R.knows name = true) (id id' : NodeId) (bytes bytes' : UInt8)
    (label label' : Option String) : Counterpart register address (.var id name bytes label)
      (.var id' (register name) bytes' label')
  | plain {name : String} (unknown : R.knows name = false) (id id' : NodeId) (bytes : UInt8)
    (label label' : Option String) : Counterpart register address (.var id name bytes label)
      (.var id' name bytes label')
  | address {a : UInt64} (anonymous : o.anonymizes I a = true) (id id' : NodeId)
    (bytes bytes' : UInt8) :
    Counterpart register address (.const id a bytes) (.const id' (address a) bytes')
  | thunk {a a' : UInt64} {name : String} (h : o.thunk? I a = some name)
    (h' : o.thunk? I a' = some name) (id id' : NodeId) (bytes bytes' : UInt8) :
    Counterpart register address (.const id a bytes) (.const id' a' bytes')
  | constant {a : UInt64} (named : o.anonymizes I a = false) (noThunk : o.thunk? I a = none)
    (id id' : NodeId) (bytes : UInt8) :
    Counterpart register address (.const id a bytes) (.const id' a bytes)

variable {R I o} {es es' : List Expr} {out out' : Canonical}

/-- Leaves in one place of two outputs of one content are partners. -/
theorem Substituted.alike (S : Substituted R I o es out) (S' : Substituted R I o es' out')
    (apart : NamesApart R I o es) (apart' : NamesApart R I o es')
    (same : out.trees.map Expr.tree = out'.trees.map Expr.tree) :
    List.Forall₂ (Expr.Alike fun x y =>
      Partner out.report out'.report (roleBy R I o x) (roleBy R I o y) ∧
        (roleBy R I o x = .kept → x.tree = y.tree)) es es' := by
  rw [S.content, S'.content, map_eq_map_iff] at same
  refine (forall₂_mem same).imp fun e e' h => ?_
  obtain ⟨he, he', same⟩ := h
  refine (Expr.Alike.of_tree_eq (fun x leaf => isLeaf_leafOfRole leaf _)
    (fun x leaf => isLeaf_leafOfRole leaf _) same).imp fun x hx y hy _ _ same => ?_
  have origin := S.origin apart (Expr.mem_nodesOf.mpr ⟨e, he, hx⟩)
  have origin' := S'.origin apart' (Expr.mem_nodesOf.mpr ⟨e', he', hy⟩)
  rw [Expr.name?_congr same] at origin
  have partner := origin.partner apart.canonical_thunk origin'
  refine ⟨partner, fun kept => ?_⟩
  -- Of two partners one is kept only if the other is, and then both show their own content.
  have kept' : roleBy R I o y = .kept := by
    rw [kept] at partner
    generalize roleBy R I o y = role at partner
    cases partner
    rfl
  rw [kept, kept', leafOfRole, leafOfRole, Expr.tree_mapIds, Expr.tree_mapIds] at same
  exact same

/-- What stands in the one batch has a partner in the other. -/
theorem Substituted.exists_partner (S : Substituted R I o es out) (S' : Substituted R I o es' out')
    (apart : NamesApart R I o es) (apart' : NamesApart R I o es')
    (same : out.trees.map Expr.tree = out'.trees.map Expr.tree) {x : Expr}
    (hx : x ∈ Expr.nodesOf es) (role : roleBy R I o x ≠ .kept) :
    ∃ role', Partner out.report out'.report (roleBy R I o x) role' := by
  have leaf : x.isLeaf = true := by
    cases leaf : x.isLeaf with
    | true => rfl
    | false => exact absurd (roleBy_of_not_isLeaf leaf) role
  obtain ⟨e, he, hx⟩ := Expr.mem_nodesOf.mp hx
  obtain ⟨e', -, alike⟩ := exists_mem_of_forall₂ (S.alike S' apart apart' same) he
  obtain ⟨y, -, -, partner, -⟩ := alike.exists_leaf hx leaf
  exact ⟨_, partner⟩

theorem Substituted.exists_register (S : Substituted R I o es out)
    (S' : Substituted R I o es' out') (apart : NamesApart R I o es) (apart' : NamesApart R I o es')
    (same : out.trees.map Expr.tree = out'.trees.map Expr.tree) {name new : String}
    (hn : out.report.registerName name = some new) :
    ∃ name', out'.report.registerName name' = some new := by
  obtain ⟨x, hx, key⟩ := registerIn_iff.mp ((S.registers name).mp ⟨new, hn⟩)
  have role : roleBy R I o x = .register name := keyOf_eq_some_iff.mp key
  obtain ⟨role', partner⟩ := S.exists_partner S' apart apart' same hx (by simp [role])
  rw [role] at partner
  cases partner with
  | @register _ name' _ h h' =>
    rw [hn] at h
    exact ⟨name', Option.some.inj h ▸ h'⟩

theorem Substituted.exists_address (S : Substituted R I o es out)
    (S' : Substituted R I o es' out') (apart : NamesApart R I o es) (apart' : NamesApart R I o es')
    (same : out.trees.map Expr.tree = out'.trees.map Expr.tree) {a : UInt64} {new : String}
    (ha : out.report.addressName a = some new) :
    ∃ a', out'.report.addressName a' = some new := by
  obtain ⟨x, hx, key⟩ := addressIn_iff.mp ((S.addresses a).mp ⟨new, ha⟩)
  have role : roleBy R I o x = .address a := addressOf_eq_some_iff.mp key
  obtain ⟨role', partner⟩ := S.exists_partner S' apart apart' same hx (by simp [role])
  rw [role] at partner
  cases partner with
  | @address _ a' _ h h' =>
    rw [ha] at h
    exact ⟨a', Option.some.inj h ▸ h'⟩

/-- Partners correspond under maps that follow the names. -/
theorem Partner.counterpart {report report' : Report} {register : String → String}
    {address : UInt64 → UInt64}
    (registers : ∀ name name' new, report.registerName name = some new →
      report'.registerName name' = some new → register name = name')
    (addresses : ∀ a a' new, report.addressName a = some new →
      report'.addressName a' = some new → address a = a') {x y : Expr} (leaf : x.isLeaf)
    (partner : Partner report report' (roleBy R I o x) (roleBy R I o y))
    (kept : roleBy R I o x = .kept → x.tree = y.tree) :
    Counterpart R I o register address x y := by
  cases role : roleBy R I o x with
  | register name =>
    obtain ⟨known, id, bytes, label, rfl⟩ := eq_var_of_register role
    rw [role] at partner
    generalize role' : roleBy R I o y = r' at partner
    cases partner with
    | @register _ name' new h h' =>
      obtain ⟨-, id', bytes', label', rfl⟩ := eq_var_of_register role'
      rw [← registers name name' new h h']
      exact .register known ..
  | address a =>
    obtain ⟨anonymous, id, bytes, rfl⟩ := eq_const_of_address role
    rw [role] at partner
    generalize role' : roleBy R I o y = r' at partner
    cases partner with
    | @address _ a' new h h' =>
      obtain ⟨-, id', bytes', rfl⟩ := eq_const_of_address role'
      rw [← addresses a a' new h h']
      exact .address anonymous ..
  | thunk name =>
    obtain ⟨id, a, bytes, rfl, ht⟩ := eq_const_of_thunk role
    rw [role] at partner
    generalize role' : roleBy R I o y = r' at partner
    cases partner with
    | thunk =>
      obtain ⟨id', a', bytes', rfl, ht'⟩ := eq_const_of_thunk role'
      exact .thunk ht ht' ..
  | kept =>
    have same := kept role
    cases x with
    | const id a bytes =>
      obtain ⟨named, noThunk⟩ := const_of_kept role
      cases y <;> simp only [Expr.tree, Tree.const.injEq, reduceCtorEq] at same
      obtain ⟨rfl, rfl⟩ := same
      exact .constant named noThunk ..
    | var id name bytes label =>
      have unknown := not_knows_of_kept role
      cases y <;> simp only [Expr.tree, Tree.var.injEq, reduceCtorEq] at same
      obtain ⟨rfl, rfl⟩ := same
      exact .plain unknown ..
    | mem | op => cases leaf

/-- Outputs of one content come from batches that are one batch up to a bijection of their
registers and a bijection of their anonymous addresses, thunks being known by their names. -/
theorem canonicalize_separates {E E' : Evaluator} {b b' : Bindings} {s s' : Supply}
    (serves : s.Serves es) (serves' : s'.Serves es') (apart : NamesApart R I o es)
    (apart' : NamesApart R I o es')
    (done : (canonicalize ⟨E, R, I⟩ b o es).outcome s = .ok out)
    (done' : (canonicalize ⟨E', R, I⟩ b' o es').outcome s' = .ok out')
    (same : out.trees.map Expr.tree = out'.trees.map Expr.tree) :
    ∃ (register : String → String) (address : UInt64 → UInt64),
      Set.BijOn register {name | RegisterIn R es name} {name | RegisterIn R es' name} ∧
      Set.BijOn address {a | AddressIn I o es a} {a | AddressIn I o es' a} ∧
      List.Forall₂ (Expr.Alike (Counterpart R I o register address)) es es' := by
  have S : Substituted R I o es out := substituted_of_ok serves done
  have S' : Substituted R I o es' out' := substituted_of_ok serves' done'
  obtain ⟨register, bijRegister, registers⟩ := exists_bijOn
    (fun _ _ hn => S.exists_register S' apart apart' same hn)
    (fun _ _ hn => S'.exists_register S apart' apart same.symm hn) S.register_inj S'.register_inj
  obtain ⟨address, bijAddress, addresses⟩ := exists_bijOn
    (fun _ _ ha => S.exists_address S' apart apart' same ha)
    (fun _ _ ha => S'.exists_address S apart' apart same.symm ha) S.address_inj S'.address_inj
  simp only [S.registers, S'.registers] at bijRegister
  simp only [S.addresses, S'.addresses] at bijAddress
  refine ⟨register, address, bijRegister, bijAddress, ?_⟩
  exact (S.alike S' apart apart' same).imp fun e e' alike => alike.imp fun x _ y _ leaf _ h =>
    h.1.counterpart registers addresses leaf h.2

end

/-! ## Another batch of the same form -/

namespace Sample

/-- The batch with another register, which is two nodes now, another address and another thunk. -/
def other : List Expr :=
  [.op 2 .add [.var 0 "ecx" 4 none, .const 1 0x1004 4],
    .op 5 .shl [.var 4 "ecx" 2 none, .const 3 0x1020 8]]

theorem nodesOf_other : Expr.nodesOf other =
    [.op 2 .add [.var 0 "ecx" 4 none, .const 1 0x1004 4], .var 0 "ecx" 4 none, .const 1 0x1004 4,
      .op 5 .shl [.var 4 "ecx" 2 none, .const 3 0x1020 8], .var 4 "ecx" 2 none,
      .const 3 0x1020 8] := by
  simp [other, Expr.nodesOf_cons, Expr.nodes_eq, Expr.children]

theorem serves_other : (Supply.startingAt 6).Serves other where
  coherent := by simp [Expr.Coherent, nodesOf_other, Expr.id]
  below := by simp [Expr.Below, nodesOf_other, Expr.id, Supply.next, Supply.startingAt]

theorem ne_canonicalName {a : UInt64} {name : String}
    (h : options.thunk? collaborators.image a = some name) (p : Population) (k : Nat) :
    name ≠ p.canonicalName k := by
  intro same
  have last := congrArg (fun name : String => name.toList.getLast?) ((eq_puts h).symm.trans same)
  cases p <;> simp [Population.canonicalName, Population.suffix, String.toList_append] at last

theorem namesApart {es : List Expr} (known : (Expr.nodesOf es).all (fun x =>
    x.name?.all collaborators.registers.knows) = true) :
    NamesApart collaborators.registers collaborators.image options es := by
  have known : ∀ x ∈ Expr.nodesOf es, ∀ name, x.name? = some name →
      collaborators.registers.knows name = true := fun x hx name hn => by
    have here := List.all_eq_true.mp known x hx
    rwa [hn] at here
  refine ⟨fun x hx name hn unknown => ?_, fun x hx name hn unknown => ?_,
    fun _ _ h => ne_canonicalName h⟩
  · rw [known x hx name hn] at unknown
    cases unknown
  · rw [known x hx name hn] at unknown
    cases unknown

theorem namesApart_batch : NamesApart collaborators.registers collaborators.image options batch :=
  namesApart (by decide)

theorem namesApart_other : NamesApart collaborators.registers collaborators.image options other :=
  namesApart (by decide)

end Sample

theorem canonicalize_separates_sample : ∃ out out',
    (canonicalize Sample.collaborators Sample.bindings Sample.options Sample.batch).outcome
      (Supply.startingAt 5) = .ok out ∧
    (canonicalize Sample.collaborators Sample.bindings Sample.options Sample.other).outcome
      (Supply.startingAt 6) = .ok out' ∧
    out.trees.map Expr.tree = out'.trees.map Expr.tree ∧
    ∃ (register : String → String) (address : UInt64 → UInt64),
      Set.BijOn register {name | RegisterIn Sample.collaborators.registers Sample.batch name}
        {name | RegisterIn Sample.collaborators.registers Sample.other name} ∧
      Set.BijOn address {a | AddressIn Sample.collaborators.image Sample.options Sample.batch a}
        {a | AddressIn Sample.collaborators.image Sample.options Sample.other a} ∧
      List.Forall₂ (Expr.Alike (Counterpart Sample.collaborators.registers
        Sample.collaborators.image Sample.options register address)) Sample.batch Sample.other := by
  let form : List Tree := [.op .add [.var "0indreg" 4, .var "0archindva" 4],
    .op .shl [.var "0indreg" 4, .var "puts" 4]]
  have runs : ((canonicalize Sample.collaborators Sample.bindings Sample.options
      Sample.batch).outcome (Supply.startingAt 5)).toOption.map
        (fun out => out.trees.map Expr.tree) = some form := by cbv
  have runs' : ((canonicalize Sample.collaborators Sample.bindings Sample.options
      Sample.other).outcome (Supply.startingAt 6)).toOption.map
        (fun out => out.trees.map Expr.tree) = some form := by cbv
  obtain ⟨out, done, hout⟩ := exists_ok_of_map_eq runs
  obtain ⟨out', done', hout'⟩ := exists_ok_of_map_eq runs'
  have same := hout.trans hout'.symm
  exact ⟨out, out', done, done', same, canonicalize_separates Sample.serves_batch
    Sample.serves_other Sample.namesApart_batch Sample.namesApart_other done done' same⟩

end Lifted
