import Lifted.Proofs.Canonical.Outcome
import Mathlib

/-!
# Whose names are taken

Canonical names are counted off without a look at the names that are there already. So a run takes
just the names below its numbers of registers and addresses, and a register or an address comes to
be equal to another leaf only where that leaf had such a name before.

* `openName`: the name with which a leaf stands in the output if it gets no canonical name.
* `Report.Gives`: a name that a run gives.
* `Reserved`: the names below the numbers of registers and addresses.
* `Passed.gives_iff`: these are the names given.
* `Substituted.name_origin`: where the names in the output come from.
* `canonicalize_takes_reserved`: what is equal to a register or an address in the output.
* `canonicalize_captures`: a variable whose name is taken.
-/

namespace Lifted

section

variable (R : Registers) (I : ImageQueries) (o : Options)

/-- The name of a variable that is kept, or of the thunk that a leaf is. -/
def openName (x : Expr) : Option String :=
  match roleBy R I o x with
  | .thunk name => some name
  | .kept => x.name?
  | .register _ | .address _ => none

/-- The number of registers, or of anonymous addresses, in the batch. -/
noncomputable def members (es : List Expr) : Population → ℕ
  | .register => {name | RegisterIn R es name}.ncard
  | .address => {a | AddressIn I o es a}.ncard

/-- A canonical name below the number of members of its population. -/
def Reserved (es : List Expr) (name : String) : Prop :=
  ∃ p k, k < members R I o es p ∧ name = Population.canonicalName p k

end

/-- The run gave this name to a register or to an address. -/
def Report.Gives (report : Report) (new : String) : Prop :=
  (∃ name, report.registerName name = some new) ∨ ∃ a, report.addressName a = some new

section

variable {c : Collaborators} {b : Bindings} {o : Options} {s s₁ s₂ : Supply} {es : List Expr}
  {out : Canonical} {t : Tagged} {ms ms' : List Mint} {h h' : Heap}
  {found : List (Population × Occurrence)} {registers : List String} {addresses : List UInt64}

/-- The names given are those that are reserved, whatever names the batch has. -/
theorem Passed.gives_iff
    (P : Passed c b o s es out t ms h s₁ found registers addresses ms' h' s₂) {new : String} :
    out.report.Gives new ↔ Reserved c.registers c.image o es new := by
  have count : members c.registers c.image o es .register = {name | name ∈ registers}.ncard := by
    simp only [members, registerIn_iff, P.mem_registers]
  have count' : members c.registers c.image o es .address = {a | a ∈ addresses}.ncard := by
    simp only [members, addressIn_iff, P.mem_addresses]
  have register : ∀ k, (∃ name, out.report.registerName name =
      some (Population.register.canonicalName k)) ↔
        k < members c.registers c.image o es .register := by
    intro k
    simp only [P.registerName_eq, count, exists_canonicalName_iff]
  have address : ∀ k, (∃ a, out.report.addressName a =
      some (Population.address.canonicalName k)) ↔
        k < members c.registers c.image o es .address := by
    intro k
    simp only [P.addressName_eq, count', exists_canonicalName_iff]
  have T := P.substituted
  constructor
  · rintro (⟨name, hn⟩ | ⟨a, ha⟩)
    · obtain ⟨k, rfl⟩ := T.canonical_register name new hn
      exact ⟨.register, k, (register k).mp ⟨name, hn⟩, rfl⟩
    · obtain ⟨k, rfl⟩ := T.canonical_address a new ha
      exact ⟨.address, k, (address k).mp ⟨a, ha⟩, rfl⟩
  · rintro ⟨p, k, hk, rfl⟩
    cases p with
    | register => exact .inl ((register k).mpr hk)
    | address => exact .inr ((address k).mpr hk)

end

namespace Substituted

/-! ## Names in the output -/

variable {R : Registers} {I : ImageQueries} {o : Options} {es : List Expr} {out : Canonical}
  {x y x' y' : Expr} {name : String}
  (became : y.mapIds (fun _ => 0) =
    x.mapLeaves fun z => leafOfRole I o out.report z (roleBy R I o z))
  (became' : y'.mapIds (fun _ => 0) =
    x'.mapLeaves fun z => leafOfRole I o out.report z (roleBy R I o z))

include became

theorem name_of_leaf (leaf : x.isLeaf) :
    y.name? = (leafOfRole I o out.report x (roleBy R I o x)).name? := by
  rw [Expr.mapLeaves_of_isLeaf _ leaf] at became
  refine Expr.name?_congr ?_
  rw [← became, Expr.tree_mapIds]

/-- A register has become a variable with the name that the run gave to it. -/
theorem exists_registerName (T : Substituted R I o es out) (hx : x ∈ Expr.nodesOf es) {r : String}
    (role : roleBy R I o x = .register r) :
    ∃ new, out.report.registerName r = some new ∧ y.name? = some new := by
  obtain ⟨new, given⟩ := (T.registers r).mpr
    (registerIn_iff.mpr ⟨x, hx, keyOf_eq_some_iff.mpr role⟩)
  obtain ⟨-, id, bytes, label, rfl⟩ := eq_var_of_register role
  refine ⟨new, given, ?_⟩
  rw [name_of_leaf became rfl, role, leafOfRole, given]
  rfl

/-- So has an address. -/
theorem exists_addressName (T : Substituted R I o es out) (hx : x ∈ Expr.nodesOf es) {a : UInt64}
    (role : roleBy R I o x = .address a) :
    ∃ new, out.report.addressName a = some new ∧ y.name? = some new := by
  obtain ⟨new, given⟩ := (T.addresses a).mpr
    (addressIn_iff.mpr ⟨x, hx, addressOf_eq_some_iff.mpr role⟩)
  obtain ⟨-, id, bytes, rfl⟩ := eq_const_of_address role
  refine ⟨new, given, ?_⟩
  rw [name_of_leaf became rfl, role, leafOfRole, given]
  rfl

/-- What is open keeps its name, or shows that of its thunk. -/
theorem name_of_open (free : openName R I o x = some name) : y.name? = some name := by
  unfold openName at free
  cases role : roleBy R I o x with
  | thunk thunk =>
    obtain ⟨id, a, bytes, rfl, -⟩ := eq_const_of_thunk role
    rw [role] at free
    rw [name_of_leaf became rfl, role]
    exact free
  | kept =>
    rw [role] at free
    have leaf : x.isLeaf := by
      cases x with
      | const | var => rfl
      | mem | op => cases free
    rw [name_of_leaf became leaf, role, leafOfRole, Expr.name?_congr (Expr.tree_mapIds _ x)]
    exact free
  | register | address =>
    rw [role] at free
    cases free

/-- A variable of the output that is not open has the name that the run gave to the register, or to
the address, in its place. -/
theorem name_origin (T : Substituted R I o es out) (hx : x ∈ Expr.nodesOf es)
    (hn : y.name? = some name) :
    (∃ r, roleBy R I o x = .register r ∧ out.report.registerName r = some name) ∨
      (∃ a, roleBy R I o x = .address a ∧ out.report.addressName a = some name) ∨
      openName R I o x = some name := by
  cases role : roleBy R I o x with
  | register r =>
    obtain ⟨new, given, hn'⟩ := exists_registerName became T hx role
    exact .inl ⟨r, rfl, given.trans (hn'.symm.trans hn)⟩
  | address a =>
    obtain ⟨new, given, hn'⟩ := exists_addressName became T hx role
    exact .inr (.inl ⟨a, rfl, given.trans (hn'.symm.trans hn)⟩)
  | thunk thunk =>
    obtain ⟨id, a, bytes, rfl, -⟩ := eq_const_of_thunk role
    rw [name_of_leaf became rfl, role] at hn
    refine .inr (.inr ?_)
    rw [openName, role]
    exact hn
  | kept =>
    have leaf : x.isLeaf := by
      rw [← Expr.isLeaf_mapLeaves (fun z h => isLeaf_leafOfRole h (roleBy R I o z)) x, ← became]
      cases y with
      | const | var => rfl
      | mem | op => cases hn
    rw [name_of_leaf became leaf, role, leafOfRole, Expr.name?_congr (Expr.tree_mapIds _ x)] at hn
    refine .inr (.inr ?_)
    rw [openName, role]
    exact hn

include became'

/-- A register or an address becomes equal to the same register or address, or to what is open and
has the name that the run gave. -/
theorem role_eq_or_open (T : Substituted R I o es out) (hx : x ∈ Expr.nodesOf es)
    (hx' : x' ∈ Expr.nodesOf es) (made : (populationBy R I o x).isSome) (same : y.tree = y'.tree) :
    roleBy R I o x' = roleBy R I o x ∨
      ∃ name, openName R I o x' = some name ∧ out.report.Gives name := by
  have name := Expr.name?_congr same
  rcases isSome_populationBy.mp made with ⟨r, role⟩ | ⟨a, role⟩
  · obtain ⟨new, given, hn⟩ := exists_registerName became T hx role
    rcases name_origin became' T hx' (name.symm.trans hn) with ⟨r', role', given'⟩ |
      ⟨a', -, given'⟩ | free
    · rw [role, role', T.register_inj r' r new given' given]
      exact .inl rfl
    · obtain ⟨k, hk⟩ := T.canonical_register r new given
      obtain ⟨k', hk'⟩ := T.canonical_address a' new given'
      exact absurd (hk.symm.trans hk') (Population.register_ne_address k k')
    · exact .inr ⟨new, free, .inl ⟨r, given⟩⟩
  · obtain ⟨new, given, hn⟩ := exists_addressName became T hx role
    rcases name_origin became' T hx' (name.symm.trans hn) with ⟨r', -, given'⟩ |
      ⟨a', role', given'⟩ | free
    · obtain ⟨k, hk⟩ := T.canonical_register r' new given'
      obtain ⟨k', hk'⟩ := T.canonical_address a new given
      exact absurd (hk.symm.trans hk') (Population.register_ne_address k k')
    · rw [role, role', T.address_inj a' a new given' given]
      exact .inl rfl
    · exact .inr ⟨new, free, .inr ⟨a, given⟩⟩

end Substituted

/-! ## The run -/

/-- A run gives just the reserved names, whatever names the batch has. A leaf that is open has its
name in the output as well; what a register or an address has become is equal to that leaf only if
its name is reserved, and to another leaf only if that is the same register or address. -/
theorem canonicalize_takes_reserved {c : Collaborators} {b : Bindings} {o : Options} {s : Supply}
    {es : List Expr} {out : Canonical} (serves : s.Serves es)
    (done : (canonicalize c b o es).outcome s = .ok out) :
    (∀ name, out.report.Gives name ↔ Reserved c.registers c.image o es name) ∧
      (∀ p ∈ (Expr.nodesOf es).zip (Expr.nodesOf out.trees), ∀ name,
        openName c.registers c.image o p.1 = some name → p.2.name? = some name) ∧
      ∀ p ∈ (Expr.nodesOf es).zip (Expr.nodesOf out.trees),
        ∀ q ∈ (Expr.nodesOf es).zip (Expr.nodesOf out.trees),
          (populationBy c.registers c.image o p.1).isSome → p.2.tree = q.2.tree →
            roleBy c.registers c.image o q.1 = roleBy c.registers c.image o p.1 ∨
              ∃ name, openName c.registers c.image o q.1 = some name ∧
                Reserved c.registers c.image o es name := by
  obtain ⟨-, -, t, ms, h, s₁, found, registers, addresses, ms', h', s₂, P⟩ :=
    exists_passed serves done
  have T := P.substituted
  obtain ⟨-, became⟩ := List.forall₂_iff_zip.mp T.nodes
  refine ⟨fun name => P.gives_iff, fun p hp name free => ?_, fun p hp q hq made same => ?_⟩
  · exact Substituted.name_of_open (became hp) free
  · rcases Substituted.role_eq_or_open (became hp) (became hq) T (List.of_mem_zip hp).1
      (List.of_mem_zip hq).1 made same with role | ⟨name, free, given⟩
    · exact .inl role
    · exact .inr ⟨name, free, P.gives_iff.mp given⟩

theorem canonicalize_takes_reserved_sample : ∃ out,
    (canonicalize Sample.collaborators Sample.bindings Sample.options Sample.batch).outcome
      (Supply.startingAt 5) = .ok out ∧
    (∀ name, out.report.Gives name ↔ Reserved Sample.collaborators.registers
      Sample.collaborators.image Sample.options Sample.batch name) ∧
    ∀ p ∈ (Expr.nodesOf Sample.batch).zip (Expr.nodesOf out.trees), ∀ name,
      openName Sample.collaborators.registers Sample.collaborators.image Sample.options p.1 =
        some name → p.2.name? = some name := by
  have runs : ((canonicalize Sample.collaborators Sample.bindings Sample.options
      Sample.batch).outcome (Supply.startingAt 5)).toOption.map
        (fun out => out.report.registerName "eax") = some (some "0indreg") := by cbv
  obtain ⟨out, done, -⟩ := exists_ok_of_map_eq runs
  obtain ⟨gives, free, -⟩ := canonicalize_takes_reserved Sample.serves_batch done
  exact ⟨out, done, gives, free⟩

/-! ## A variable whose name is taken -/

namespace Sample

/-- A register, and a variable with the name that the register gets. -/
def clash : List Expr := [.var 0 "eax" 4 none, .var 1 "0indreg" 4 none]

theorem nodesOf_clash :
    Expr.nodesOf clash = [.var 0 "eax" 4 none, .var 1 "0indreg" 4 none] := by
  simp [clash, Expr.nodesOf_cons, Expr.nodes_eq, Expr.children]

theorem serves_clash : (Supply.startingAt 2).Serves clash where
  coherent := by simp [Expr.Coherent, nodesOf_clash, Expr.id]
  below := by simp [Expr.Below, nodesOf_clash, Expr.id, Supply.next, Supply.startingAt]

end Sample

theorem canonicalize_captures : (Supply.startingAt 2).Serves Sample.clash ∧
    openName Sample.collaborators.registers Sample.collaborators.image {}
      (.var 1 "0indreg" 4 none) = some "0indreg" ∧
    ∃ out, (canonicalize Sample.collaborators (Sample.bindings.setVar "0indreg" 1) {}
        Sample.clash).outcome (Supply.startingAt 2) = .ok out ∧
      out.report.registerName "eax" = some "0indreg" ∧
      out.trees.map Expr.tree = [.var "0indreg" 4, .var "0indreg" 4] := by
  refine ⟨Sample.serves_clash, by decide, ?_⟩
  have runs : ((canonicalize Sample.collaborators (Sample.bindings.setVar "0indreg" 1) {}
      Sample.clash).outcome (Supply.startingAt 2)).toOption.map
        (fun out => (out.report.registerName "eax", out.trees.map Expr.tree)) =
      some (some "0indreg", [.var "0indreg" 4, .var "0indreg" 4]) := by cbv
  obtain ⟨out, done, result⟩ := exists_ok_of_map_eq runs
  exact ⟨out, done, congrArg Prod.fst result, congrArg Prod.snd result⟩

end Lifted
