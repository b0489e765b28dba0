import Lifted.Canonical.Placeholder
import Lifted.Proofs.Evaluation.Content
import Lifted.Proofs.Walk.Mint

/-!
# Roles of leaves

What becomes of a leaf is decided by its name or value, and by what the collaborators answer.

* `Registers.Answers`, `ImageQueries.Answers`: no question fails.
* `Registers.knows`, `ImageQueries.maps`, `ImageQueries.thunk?`, `ImageQueries.literal?`: the
  answers, where there is one.
* `Registers.keyOf`, `addressOf`, `thunkOf`: the register, the anonymous address or the thunk that
  a leaf is.
* `roleBy`: the role of a node by these; `eq_roleBy`, `roleOf_answers`: it is what `roleOf` finds.
* `tagPlan`, `mask`: what tagging is to put in place of a leaf, and the leaf with that in place.
-/

namespace Lifted

namespace Registers

/-- Every question has an answer. -/
def Answers (R : Registers) : Prop := ∀ name, ∃ i?, R.index name = .ok i?

/-- There is a register of this name. -/
def knows (R : Registers) (name : String) : Bool :=
  match R.index name with
  | .ok (some _) => true
  | _ => false

/-- The register that a node is. -/
def keyOf (R : Registers) (e : Expr) : Option String := e.name?.filter R.knows

end Registers

namespace ImageQueries

/-- Every question has an answer. -/
structure Answers (I : ImageQueries) : Prop where
  isMapped : ∀ a, ∃ mapped, I.isMapped a = .ok mapped
  isFunction : ∀ a, ∃ function, I.isFunction a = .ok function
  thunkName : ∀ a, ∃ name?, I.thunkName a = .ok name?
  stringLiteral : ∀ a, ∃ literal?, I.stringLiteral a = .ok literal?

/-- The address is mapped. -/
def maps (I : ImageQueries) (address : UInt64) : Bool :=
  match I.isMapped address with
  | .ok mapped => mapped
  | .error _ => false

/-- The name of the thunk that begins at the address. -/
def thunk? (I : ImageQueries) (address : UInt64) : Option String :=
  match I.isFunction address, I.thunkName address with
  | .ok true, .ok name? => name?
  | _, _ => none

/-- The string that the address lies in. -/
def literal? (I : ImageQueries) (address : UInt64) : Option String :=
  match I.stringLiteral address with
  | .ok literal? => literal?
  | .error _ => none

end ImageQueries

theorem RegisterList.answers (r : RegisterList) : r.registers.Answers := fun _ => ⟨_, rfl⟩

theorem Image.answers (i : Image) : i.queries.Answers :=
  ⟨fun _ => ⟨_, rfl⟩, fun _ => ⟨_, rfl⟩, fun _ => ⟨_, rfl⟩, fun _ => ⟨_, rfl⟩⟩

section

variable (R : Registers) (I : ImageQueries) (o : Options)

/-- Addresses are made anonymous, and this is one that has no name of its own. -/
def Options.anonymizes (address : UInt64) : Bool :=
  o.anonymizeAddresses && I.maps address && (I.thunk? address).isNone

/-- The name in place of the constant, if addresses are made anonymous. -/
def Options.thunk? (value : UInt64) : Option String :=
  if o.anonymizeAddresses && I.maps value then I.thunk? value else none

/-- The anonymous address that a node is. -/
def addressOf (e : Expr) : Option UInt64 := e.constant?.filter (o.anonymizes I)

/-- The name of the thunk that a node is. -/
def thunkOf (e : Expr) : Option String := e.constant?.bind (o.thunk? I)

/-- A register of this name stands in the trees. -/
def RegisterIn (es : List Expr) (name : String) : Prop :=
  R.knows name = true ∧ ∃ x ∈ Expr.nodesOf es, x.name? = some name

/-- This address stands in the trees and is made anonymous. -/
def AddressIn (es : List Expr) (address : UInt64) : Prop :=
  o.anonymizes I address = true ∧ ∃ x ∈ Expr.nodesOf es, x.constant? = some address

/-- A thunk stands in the trees and gets its name in place. -/
def ThunkIn (es : List Expr) : Prop := ∃ x ∈ Expr.nodesOf es, ∃ name, thunkOf I o x = some name

/-- The role of a node by its name or value. -/
def roleBy (e : Expr) : Role :=
  match R.keyOf e, thunkOf I o e, addressOf I o e with
  | some name, _, _ => .register name
  | none, some name, _ => .thunk name
  | none, none, some address => .address address
  | none, none, none => .kept

/-- The variable that stands in place of a node of this role while placeholders stand. -/
def Role.placeholder? : Role → Option Variable
  | .kept => none
  | .register _ => some ⟨Population.register.placeholder, o.placeholderWidth, none⟩
  | .address _ => some ⟨Population.address.placeholder, o.placeholderWidth, none⟩
  | .thunk name => some ⟨name, I.pointerWidth, none⟩

/-- What tagging is to do with a node. -/
def tagPlan : Plan := fun e => (roleOf R I o e).map (Role.placeholder? I o)

/-- The leaf as it stands among placeholders. -/
def mask (e : Expr) : Expr :=
  match (roleBy R I o e).placeholder? I o with
  | some v => v.node 0
  | none => e

variable {R I o} {e f : Expr}

theorem registerIn_iff {es : List Expr} {name : String} :
    RegisterIn R es name ↔ ∃ x ∈ Expr.nodesOf es, R.keyOf x = some name := by
  simp only [RegisterIn, Registers.keyOf, Option.filter_eq_some_iff]
  constructor
  · rintro ⟨known, x, hx, hn⟩
    exact ⟨x, hx, hn, known⟩
  · rintro ⟨x, hx, hn, known⟩
    exact ⟨known, x, hx, hn⟩

theorem addressIn_iff {es : List Expr} {a : UInt64} :
    AddressIn I o es a ↔ ∃ x ∈ Expr.nodesOf es, addressOf I o x = some a := by
  simp only [AddressIn, addressOf, Option.filter_eq_some_iff]
  constructor
  · rintro ⟨anonymous, x, hx, hv⟩
    exact ⟨x, hx, hv, anonymous⟩
  · rintro ⟨x, hx, hv, anonymous⟩
    exact ⟨anonymous, x, hx, hv⟩

/-! ## The role that is found -/

theorem addressRole_eq {value : UInt64} {role : Role} (on : o.anonymizeAddresses = true)
    (h : addressRole I value = .ok role) :
    role = roleBy R I o (.const 0 value 0) := by
  simp only [roleBy, Registers.keyOf, thunkOf, addressOf, Expr.name?, Expr.constant?, Option.filter,
    Option.bind, Options.thunk?, Options.anonymizes, on, Bool.true_and, ImageQueries.maps,
    ImageQueries.thunk?]
  cases hm : I.isMapped value with
  | error err => simp [addressRole, hm, bind, Except.bind] at h
  | ok mapped =>
    cases mapped with
    | false =>
      obtain rfl : Role.kept = role := by
        simpa [addressRole, hm, bind, Except.bind, pure, Except.pure] using h
      simp
    | true =>
      cases hf : I.isFunction value with
      | error err => simp [addressRole, hm, hf, bind, Except.bind] at h
      | ok function =>
        cases function with
        | false =>
          obtain rfl : Role.address value = role := by
            simpa [addressRole, hm, hf, bind, Except.bind, pure, Except.pure] using h
          simp
        | true =>
          cases ht : I.thunkName value with
          | error err => simp [addressRole, hm, hf, ht, bind, Except.bind] at h
          | ok name? =>
            cases name? with
            | none =>
              obtain rfl : Role.address value = role := by
                simpa [addressRole, hm, hf, ht, bind, Except.bind, pure, Except.pure] using h
              simp
            | some name =>
              obtain rfl : Role.thunk name = role := by
                simpa [addressRole, hm, hf, ht, bind, Except.bind, pure, Except.pure] using h
              simp

/-- Whatever `roleOf` finds follows from the name or value. -/
theorem eq_roleBy {role : Role} (h : roleOf R I o e = .ok role) : role = roleBy R I o e := by
  cases e with
  | const id value bytes =>
    rw [roleOf] at h
    by_cases on : o.anonymizeAddresses = true
    · rw [if_pos on] at h
      exact addressRole_eq on h
    · rw [if_neg on] at h
      cases h
      simp [roleBy, Registers.keyOf, thunkOf, addressOf, Expr.name?, Expr.constant?, Options.thunk?,
        Options.anonymizes, Option.filter, on]
  | var id name bytes label =>
    rw [roleOf] at h
    obtain ⟨i?, hi, h⟩ := ok_of_bind h
    cases i? <;> cases h <;>
      simp [roleBy, Registers.keyOf, thunkOf, addressOf, Expr.name?, Expr.constant?,
        Registers.knows, Option.filter, hi]
  | mem | op =>
    cases h
    rfl

/-- With answers to every question a role is found. -/
theorem roleOf_answers (hR : R.Answers) (hI : I.Answers) (e : Expr) :
    roleOf R I o e = .ok (roleBy R I o e) := by
  have found : ∃ role, roleOf R I o e = .ok role := by
    cases e with
    | const id value bytes =>
      rw [roleOf]
      split
      · obtain ⟨mapped, hm⟩ := hI.isMapped value
        obtain ⟨function, hf⟩ := hI.isFunction value
        obtain ⟨name?, ht⟩ := hI.thunkName value
        rw [addressRole, hm]
        cases mapped <;> cases function <;> cases name? <;>
          simp [hf, ht, bind, Except.bind, pure, Except.pure]
      · exact ⟨_, rfl⟩
    | var id name bytes label =>
      obtain ⟨i?, hi⟩ := hR name
      rw [roleOf, hi]
      cases i? <;> exact ⟨_, rfl⟩
    | mem | op => exact ⟨_, rfl⟩
  obtain ⟨role, h⟩ := found
  rw [h, eq_roleBy h]

/-! ## Roles by kind of node -/

theorem roleBy_of_not_isLeaf (inner : e.isLeaf = false) : roleBy R I o e = .kept := by
  cases e <;> first | rfl | cases inner

theorem roleBy_congr (same : e.tree = f.tree) : roleBy R I o e = roleBy R I o f := by
  rw [roleBy, roleBy, Registers.keyOf, Registers.keyOf, thunkOf, thunkOf, addressOf, addressOf,
    Expr.name?_congr same, Expr.constant?_congr same]

theorem keyOf_eq_some_iff {name : String} :
    R.keyOf e = some name ↔ roleBy R I o e = .register name := by
  unfold roleBy
  cases R.keyOf e <;> cases thunkOf I o e <;> cases addressOf I o e <;> simp

/-- A constant is a thunk, or an anonymous address, or neither. -/
theorem roleBy_const (id : NodeId) (value : UInt64) (bytes : UInt8) :
    roleBy R I o (.const id value bytes) =
      match o.thunk? I value with
      | some name => .thunk name
      | none => if o.anonymizes I value then .address value else .kept := by
  simp only [roleBy, Registers.keyOf, thunkOf, addressOf, Expr.name?, Expr.constant?, Option.filter,
    Option.bind]
  cases o.thunk? I value <;> cases o.anonymizes I value <;> rfl

theorem roleBy_var (id : NodeId) (name : String) (bytes : UInt8) (label : Option String) :
    roleBy R I o (.var id name bytes label) = if R.knows name then .register name else .kept := by
  simp only [roleBy, Registers.keyOf, thunkOf, addressOf, Expr.name?, Expr.constant?, Option.filter,
    Option.bind]
  cases R.knows name <;> rfl

/-- An anonymous address has no thunk. -/
theorem thunk?_of_anonymizes {a : UInt64} (h : o.anonymizes I a = true) : o.thunk? I a = none := by
  simp only [Options.anonymizes, Bool.and_eq_true, Option.isNone_iff_eq_none] at h
  unfold Options.thunk?
  rw [h.2, ite_self]

theorem addressOf_eq_some_iff {a : UInt64} :
    addressOf I o e = some a ↔ roleBy R I o e = .address a := by
  cases e with
  | const id value bytes =>
    rw [roleBy_const, addressOf, Expr.constant?, Option.filter_some]
    cases h : o.anonymizes I value with
    | true => simp [thunk?_of_anonymizes h]
    | false => cases o.thunk? I value <;> simp
  | var id name bytes label =>
    rw [roleBy_var]
    cases R.knows name <;> simp [addressOf, Expr.constant?]
  | mem | op =>
    rw [roleBy_of_not_isLeaf rfl]
    simp [addressOf, Expr.constant?]

theorem thunkOf_eq_some_iff {name : String} :
    thunkOf I o e = some name ↔ roleBy R I o e = .thunk name := by
  cases e with
  | const id value bytes =>
    rw [roleBy_const, thunkOf, Expr.constant?, Option.bind_some]
    cases ht : o.thunk? I value <;> cases ha : o.anonymizes I value <;> simp
  | var id name' bytes label =>
    rw [roleBy_var]
    cases R.knows name' <;> simp [thunkOf, Expr.constant?]
  | mem | op =>
    rw [roleBy_of_not_isLeaf rfl]
    simp [thunkOf, Expr.constant?]

/-! ## Nodes by role -/

theorem eq_var_of_register {name : String} (role : roleBy R I o e = .register name) :
    R.knows name = true ∧ ∃ id bytes label, e = .var id name bytes label := by
  cases e with
  | const id value bytes =>
    rw [roleBy_const] at role
    cases ht : o.thunk? I value <;> cases ha : o.anonymizes I value <;> simp [ht, ha] at role
  | var id name' bytes label =>
    rw [roleBy_var] at role
    cases hk : R.knows name' with
    | false => simp [hk] at role
    | true =>
      obtain rfl : name' = name := by simpa [hk] using role
      exact ⟨hk, id, bytes, label, rfl⟩
  | mem | op => cases role

theorem eq_const_of_address {a : UInt64} (role : roleBy R I o e = .address a) :
    o.anonymizes I a = true ∧ ∃ id bytes, e = .const id a bytes := by
  cases e with
  | const id value bytes =>
    rw [roleBy_const] at role
    cases ht : o.thunk? I value with
    | some name => simp [ht] at role
    | none =>
      cases ha : o.anonymizes I value with
      | false => simp [ht, ha] at role
      | true =>
        obtain rfl : value = a := by simpa [ht, ha] using role
        exact ⟨ha, id, bytes, rfl⟩
  | var id name bytes label =>
    rw [roleBy_var] at role
    cases hk : R.knows name <;> simp [hk] at role
  | mem | op => cases role

theorem eq_const_of_thunk {name : String} (role : roleBy R I o e = .thunk name) :
    ∃ id a bytes, e = .const id a bytes ∧ o.thunk? I a = some name := by
  cases e with
  | const id value bytes =>
    rw [roleBy_const] at role
    cases ht : o.thunk? I value with
    | some name' =>
      obtain rfl : name' = name := by simpa [ht] using role
      exact ⟨id, value, bytes, rfl, ht⟩
    | none => cases ha : o.anonymizes I value <;> simp [ht, ha] at role
  | var id name' bytes label =>
    rw [roleBy_var] at role
    cases hk : R.knows name' <;> simp [hk] at role
  | mem | op => cases role

theorem not_knows_of_kept {id : NodeId} {name : String} {bytes : UInt8} {label : Option String}
    (role : roleBy R I o (.var id name bytes label) = .kept) : R.knows name = false := by
  rw [roleBy_var] at role
  cases hk : R.knows name with
  | false => rfl
  | true => simp [hk] at role

theorem const_of_kept {id : NodeId} {a : UInt64} {bytes : UInt8}
    (role : roleBy R I o (.const id a bytes) = .kept) :
    o.anonymizes I a = false ∧ o.thunk? I a = none := by
  rw [roleBy_const] at role
  cases ht : o.thunk? I a with
  | some name => simp [ht] at role
  | none =>
    cases ha : o.anonymizes I a with
    | true => simp [ht, ha] at role
    | false => exact ⟨rfl, rfl⟩

/-! ## Keys by role -/

theorem keyOf_eq : R.keyOf e = match roleBy R I o e with
    | .register name => some name
    | _ => none := by
  refine Option.ext fun name => ?_
  rw [keyOf_eq_some_iff (I := I) (o := o)]
  cases roleBy R I o e <;> simp

theorem addressOf_eq : addressOf I o e = match roleBy R I o e with
    | .address a => some a
    | _ => none := by
  refine Option.ext fun a => ?_
  rw [addressOf_eq_some_iff (R := R)]
  cases roleBy R I o e <;> simp

/-- A node that stays as it is has no key. -/
theorem keyOf_of_kept (kept : (roleBy R I o e).placeholder? I o = none) : R.keyOf e = none := by
  rw [keyOf_eq (I := I) (o := o)]
  cases hr : roleBy R I o e with
  | kept | thunk | address => rfl
  | register name =>
    rw [hr] at kept
    cases kept

theorem addressOf_of_kept (kept : (roleBy R I o e).placeholder? I o = none) :
    addressOf I o e = none := by
  rw [addressOf_eq (R := R)]
  cases hr : roleBy R I o e with
  | kept | thunk | register => rfl
  | address a =>
    rw [hr] at kept
    cases kept

theorem tagPlan_eq {v? : Option Variable} (h : tagPlan R I o e = .ok v?) :
    v? = (roleBy R I o e).placeholder? I o := by
  obtain ⟨role, hr, rfl⟩ := ok_of_map h
  rw [eq_roleBy hr]

theorem tagPlan_answers (hR : R.Answers) (hI : I.Answers) (e : Expr) :
    tagPlan R I o e = .ok ((roleBy R I o e).placeholder? I o) := by
  unfold tagPlan
  rw [roleOf_answers hR hI]
  rfl

theorem tagPlan_inner (inner : e.isLeaf = false) : tagPlan R I o e = .ok none := by
  cases e <;> first | rfl | cases inner

/-- The thunks of an image that is written down. -/
theorem lookup_of_thunk? {i : Image} {a : UInt64} {name : String}
    (h : o.thunk? i.queries a = some name) : i.functions.lookup a = some (some name) := by
  unfold Options.thunk? at h
  split at h
  · cases hl : i.functions.lookup a with
    | none => simp [ImageQueries.thunk?, Image.queries, Image.isFunction, hl] at h
    | some name? =>
      simpa [ImageQueries.thunk?, Image.queries, Image.isFunction, Image.thunkName, hl] using h
  · cases h

theorem isLeaf_mask (leaf : e.isLeaf) : (mask R I o e).isLeaf := by
  unfold mask
  cases (roleBy R I o e).placeholder? I o with
  | none => exact leaf
  | some v => rfl

end
end Lifted
