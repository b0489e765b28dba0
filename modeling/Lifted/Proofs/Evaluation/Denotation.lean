import Lifted.Proofs.Evaluation.Content
import Lifted.Proofs.Evaluation.Memo
import Mathlib

/-!
# What a tree denotes

The value of a tree, said outright by recursion on its content: the children first, from left to
right, then the node. Nothing is shared here, nothing is remembered, and no node relies on a width
that another one keeps. The evaluation that works off an agenda and fills a memo yields just this
value, or just this failure.

* `Tree.width`, `Tree.widest`: the width in bytes of what a tree denotes.
* `Tree.value`, `Tree.values`: what a tree denotes under bindings.
* `Expr.width_eq_tree`, `Semantics.value_eq_tree`: an expression has the width and the value of its
  content.
* `Semantics.solve_eq_tree`: so does its evaluation with an agenda and a memo.
-/

namespace Lifted

namespace Tree

mutual

/-- The width in bytes of the value of a tree. -/
def width : Tree → UInt8
  | .const _ bytes => bytes
  | .var _ bytes => bytes
  | .mem _ (.const size _) => if size = 0 then 8 else (min size 8).toUInt8
  | .mem _ _ => 8
  | .op _ operands => widest operands

/-- The width of the widest of several trees. -/
def widest : List Tree → UInt8
  | [] => 0
  | t :: rest => max t.width (widest rest)

end

mutual

/-- What a tree denotes; fails with what fails first. -/
def value (S : Semantics) (b : Bindings) (t : Tree) : Except Error UInt64 :=
  match t with
  | .const value bytes => .ok (Width.truncate bytes value)
  | .var name bytes =>
    match b.var name with
    | some value => .ok (Width.truncate bytes value)
    | none =>
      if S.strict then .error (.evaluation (.unbound name))
      else .ok (Width.truncate bytes (S.digest name.toUTF8.toList))
  | .mem address size => do
    let address' ← value S b address
    let size' ← value S b size
    match b.cell address' with
    | some value => .ok (Width.truncate t.width value)
    | none =>
      let text := "mem:" ++ Hex.text address'.toNat ++ ":" ++ Hex.text size'.toNat
      .ok (Width.truncate t.width (S.digest text.toUTF8.toList))
  | .op kind operands => do
    let operands' ← values S b operands
    kind.apply operands' t.width

/-- What several trees denote, from left to right. -/
def values (S : Semantics) (b : Bindings) : List Tree → Except Error (List UInt64)
  | [] => .ok []
  | t :: rest => do
    let first ← value S b t
    let others ← values S b rest
    .ok (first :: others)

end

theorem values_eq_mapM (S : Semantics) (b : Bindings) (ts : List Tree) :
    values S b ts = ts.mapM (value S b) := by
  induction ts with
  | nil => rfl
  | cons t ts ih => rw [values, ih, List.mapM_cons]; rfl

theorem bytes_max_assoc (u v w : UInt8) : max (max u v) w = max u (max v w) := by
  show (if (if u ≤ v then v else u) ≤ w then w else if u ≤ v then v else u) =
    if u ≤ (if v ≤ w then w else v) then if v ≤ w then w else v else u
  grind

/-- The widest of all is found from either end of the list. -/
theorem foldl_max_eq_widest (ts : List Tree) (w : UInt8) :
    (ts.map width).foldl max w = max w (widest ts) := by
  induction ts generalizing w with
  | nil =>
    show w = if w ≤ 0 then 0 else w
    grind
  | cons t ts ih => rw [List.map_cons, List.foldl_cons, ih, bytes_max_assoc, widest]

end Tree

namespace Expr

/-- A node keeps the width of its content. -/
theorem width_eq_tree (e : Expr) : e.width = e.tree.width := by
  induction e with
  | const | var => simp [tree, Tree.width]
  | mem id address size =>
    rw [width_mem, tree]
    cases size <;> rfl
  | op id kind operands ih =>
    have widths : operands.map width = (operands.map tree).map Tree.width := by
      rw [List.map_map]
      exact List.map_congr_left ih
    have zero : max 0 (Tree.widest (operands.map tree)) = Tree.widest (operands.map tree) :=
      if_pos (UInt8.zero_le ..)
    rw [width_op, tree_op, Tree.width, widths, Tree.foldl_max_eq_widest, zero]

end Expr

namespace Semantics

variable (S : Semantics) (b : Bindings)

/-- The recursion over the nodes of an expression yields what its content denotes. -/
theorem value_eq_tree (e : Expr) : S.value b e = e.tree.value S b := by
  induction e with
  | const => rfl
  | var id name bytes label =>
    show (S.ofVar b name).map (Width.truncate bytes) = _
    rw [Expr.tree, Tree.value, ofVar]
    cases b.var name with
    | some value => rfl
    | none => cases S.strict <;> rfl
  | mem id address size ihAddress ihSize =>
    have width := (Expr.mem id address size).width_eq_tree
    rw [Expr.tree] at width ⊢
    rw [Tree.value, ← ihAddress, ← ihSize, ← width]
    show (do
      let address' ← S.value b address
      let size' ← S.value b size
      S.onNode b (.mem id address size) [address', size']) = _
    refine bind_congr fun address' => bind_congr fun size' => ?_
    rw [onNode, ofCell]
    cases b.cell address' <;> rfl
  | op id kind operands ih =>
    have width := (Expr.op id kind operands).width_eq_tree
    have each : operands.mapM (S.value b) = operands.mapM fun c => c.tree.value S b :=
      mapM_eq_of_map_eq rfl fun c hc d same => (ih c hc).trans (congrArg (Tree.value S b) same)
    rw [Expr.tree] at width ⊢
    rw [Tree.value, ← width, Tree.values_eq_mapM, Expr.trees_eq_map, List.mapM_map]
    exact (S.value_eq b _).trans (congrArg (· >>= S.onNode b (.op id kind operands)) each)

/-- The evaluation of an expression with an agenda and a memo, whatever nodes it shares and whether
it is well-formed or not, ends with what the content of the expression denotes, or fails with what
fails first there. -/
theorem solve_eq_tree {e : Expr} (sound : Expr.Coherent [e]) : S.solve b e = e.tree.value S b :=
  (S.solve_eq_value b (Heap.holds_of sound List.mem_cons_self)).trans (S.value_eq_tree b e)

end Semantics

namespace Sample

/-- A variable below three parents, and a memory read below two, one of them above the other. -/
def diamond : Expr :=
  let x := .var 0 "x" 2 (some "shown")
  let cell := .mem 1 x (.const 2 4 1)
  .op 4 .xor [cell, .op 3 .add [cell, x]]

/-- The diamond below an operator that has an operand too many. -/
def surplus : Expr := .op 5 .div [diamond, diamond, .const 6 0 1]

theorem coherent_diamond : Expr.Coherent [diamond] := by
  simp [Expr.Coherent, diamond, Expr.nodesOf_cons, Expr.nodes_eq, Expr.children, Expr.id]

theorem coherent_surplus : Expr.Coherent [surplus] := by
  simp [Expr.Coherent, surplus, diamond, Expr.nodesOf_cons, Expr.nodes_eq, Expr.children, Expr.id]

/-- A digest that is easy to follow: the number of bytes. -/
def byteCount (strict : Bool) : Semantics := ⟨strict, fun bytes => bytes.length.toUInt64⟩

end Sample

/-- The name of the variable has one byte and the text of the cell seven. Where the operands have
values their number is looked at, and where one has none it is not. -/
theorem Semantics.solve_eq_tree_sample :
    (Sample.byteCount false).solve .empty Sample.diamond = .ok (7 ^^^ (7 + 1)) ∧
      (Sample.byteCount false).solve .empty Sample.surplus =
        .error (.malformed (.valueCount .div 3)) ∧
      (Sample.byteCount true).solve .empty Sample.surplus =
        .error (.evaluation (.unbound "x")) := by
  refine ⟨?_, ?_, ?_⟩
  · rw [Semantics.solve_eq_tree _ _ Sample.coherent_diamond]
    cbv
  · rw [Semantics.solve_eq_tree _ _ Sample.coherent_surplus]
    cbv
  · rw [Semantics.solve_eq_tree _ _ Sample.coherent_surplus]
    cbv

end Lifted
