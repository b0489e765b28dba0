import Lifted.Expr.Basic

/-!
# Equality by content

Two expressions are equal if they are the same tree once identities and labels are forgotten.

* `Tree`, `Expr.tree`: expressions without identities and labels.
* `Expr.equal`, the `==` of expressions: compares two expressions node by node, and takes one node
  to be equal to itself without a look below it.
* `Expr.feed`, the `hash` of expressions: the atoms a hash takes in, in order.
* `Expr.classes`: one expression for each class of equal ones.
-/

namespace Lifted

/-- The content of an expression. -/
inductive Tree where
  | const (value : UInt64) (bytes : UInt8)
  | var (name : String) (bytes : UInt8)
  | mem (address size : Tree)
  | op (kind : Operator) (operands : List Tree)
  deriving Inhabited

namespace Expr

mutual

/-- The content of `e`, with neither identities nor labels. -/
def tree : Expr → Tree
  | .const _ value bytes => .const value bytes
  | .var _ name bytes _ => .var name bytes
  | .mem _ address size => .mem address.tree size.tree
  | .op _ kind operands => .op kind (trees operands)

/-- The content of several expressions. -/
def trees : List Expr → List Tree
  | [] => []
  | e :: rest => e.tree :: trees rest

end

theorem trees_eq_map (es : List Expr) : trees es = es.map tree := by
  induction es with
  | nil => rfl
  | cons e es ih => simp [trees, ih]

mutual

/-- Equality by content. One node equals itself whatever stands below it. -/
def equal : Expr → Expr → Bool
  | .const id value bytes, f => id == f.id ||
    match f with
    | .const _ value' bytes' => value == value' && bytes == bytes'
    | _ => false
  | .var id name bytes _, f => id == f.id ||
    match f with
    | .var _ name' bytes' _ => name == name' && bytes == bytes'
    | _ => false
  | .mem id address size, f => id == f.id ||
    match f with
    | .mem _ address' size' => address.equal address' && size.equal size'
    | _ => false
  | .op id kind operands, f => id == f.id ||
    match f with
    | .op _ kind' operands' => kind == kind' && equals operands operands'
    | _ => false

/-- Equality of two lists of expressions, place by place. -/
def equals : List Expr → List Expr → Bool
  | [], [] => true
  | e :: es, f :: fs => e.equal f && equals es fs
  | _, _ => false

end

instance : BEq Expr := ⟨equal⟩

/-- One of `es` for each class of equal expressions, the first of its class. -/
def classes (es : List Expr) : List Expr := es.eraseDups

/-! ## Hashing -/

/-- What a hash takes in at one step. -/
inductive Atom where
  | shape (index : Nat)
  | word (value : UInt64)
  | byte (value : UInt8)
  | text (value : String)
  | kind (value : Operator)
  | length (value : Nat)
  deriving DecidableEq, Repr

/-- Mixes one atom into a hash. -/
def Atom.mixInto (state : UInt64) : Atom → UInt64
  | .shape index => mixHash state (hash index)
  | .word value => mixHash state (hash value)
  | .byte value => mixHash state (hash value.toNat)
  | .text value => mixHash state (hash value)
  | .kind value => mixHash state (hash value.name)
  | .length value => mixHash state (hash value)

mutual

/-- The atoms of an expression: its shape, then its content, children in order. -/
def feed : Expr → List Atom
  | .const _ value bytes => [.shape 0, .word value, .byte bytes]
  | .var _ name bytes _ => [.shape 1, .text name, .byte bytes]
  | .mem _ address size => .shape 2 :: (address.feed ++ size.feed)
  | .op _ kind operands => .shape 3 :: .kind kind :: .length operands.length :: feeds operands

/-- The atoms of several expressions. -/
def feeds : List Expr → List Atom
  | [] => []
  | e :: rest => e.feed ++ feeds rest

end

instance : Hashable Expr := ⟨fun e => e.feed.foldl Atom.mixInto 7⟩

end Expr
end Lifted
