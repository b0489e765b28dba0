import Lifted.Proofs.Evaluation.Memo
import Lifted.Proofs.Expr.Equality
import Lifted.Proofs.Expr.Validation

/-!
# Nothing tells equal expressions apart

Equal expressions have one content, and whatever else looks at an expression sees no more of it:
the width that a node keeps, what a hash takes in, the rules of well-formed trees and the evaluation
with a memo. Three of these go by identities on their way, and none of them shows in the end.

* `Expr.sameContent`: the comparison without a short cut, down to the leaves.
* `Expr.feed_congr`: what a hash takes in follows from the content.
* `Expr.LooksLike`: two expressions that no observer tells apart.
* `Expr.beq_sound`: `==` is an equivalence, it compares content, and equal expressions look alike.
-/

namespace Lifted
namespace Expr

/-! ## The comparison without a short cut -/

mutual

/-- Compares node by node, one node with itself as well. -/
def sameContent : Expr → Expr → Bool
  | .const _ value bytes, .const _ value' bytes' => value == value' && bytes == bytes'
  | .var _ name bytes _, .var _ name' bytes' _ => name == name' && bytes == bytes'
  | .mem _ address size, .mem _ address' size' =>
    address.sameContent address' && size.sameContent size'
  | .op _ kind operands, .op _ kind' operands' => kind == kind' && sameContents operands operands'
  | _, _ => false

/-- Compares two lists place by place. -/
def sameContents : List Expr → List Expr → Bool
  | [], [] => true
  | e :: es, f :: fs => e.sameContent f && sameContents es fs
  | _, _ => false

end

theorem sameContents_iff {es fs : List Expr} : sameContents es fs = true ↔
    List.Forall₂ (fun e f => e.sameContent f = true) es fs := by
  induction es generalizing fs with
  | nil => cases fs <;> simp [sameContents]
  | cons e es ih => cases fs <;> simp [sameContents, ih]

theorem sameContent_iff {e f : Expr} : e.sameContent f = true ↔ e.tree = f.tree := by
  induction e generalizing f with
  | const | var => cases f <;> simp [sameContent, tree]
  | mem id address size ihAddress ihSize =>
    cases f <;> simp [sameContent, tree, ihAddress, ihSize]
  | op id kind operands ih =>
    cases f with
    | const | var | mem => simp [sameContent, tree]
    | op id' kind' operands' =>
      have each : List.Forall₂ (fun x y => x.sameContent y = true) operands operands' ↔
          operands.map tree = operands'.map tree := by
        rw [map_eq_map_iff]
        exact ⟨fun h => (forall₂_mem h).imp fun x y h => (ih x h.1).mp h.2.2,
          fun h => (forall₂_mem h).imp fun x y h => (ih x h.1).mpr h.2.2⟩
      rw [sameContent, Bool.and_eq_true, beq_iff_eq, sameContents_iff, each, tree_op, tree_op,
        Tree.op.injEq]

/-! ## Hashing -/

theorem feeds_eq_flatMap (es : List Expr) : feeds es = es.flatMap feed := by
  induction es with
  | nil => rfl
  | cons e es ih => rw [feeds, ih, List.flatMap_cons]

/-- The atoms that a hash takes in follow from the content. -/
theorem feed_congr {e f : Expr} (same : e.tree = f.tree) : e.feed = f.feed := by
  induction e generalizing f with
  | const | var => cases f <;> simp_all [tree, feed]
  | mem id address size ihAddress ihSize =>
    obtain ⟨id', address', size', rfl, sameAddress, sameSize⟩ := eq_mem_of_tree_eq same
    rw [feed, feed, ihAddress sameAddress, ihSize sameSize]
  | op id kind operands ih =>
    obtain ⟨id', operands', rfl, contents⟩ := eq_op_of_tree_eq same
    have atoms : operands.map feed = operands'.map feed :=
      map_eq_of_map_eq contents fun x hx y hxy => ih x hx hxy
    have count : operands.length = operands'.length := by
      simpa using congrArg List.length contents
    rw [feed, feed, feeds_eq_flatMap, feeds_eq_flatMap, List.flatMap_def, List.flatMap_def, atoms,
      count]

/-! ## Observers -/

/-- Nothing tells the expressions apart: they feed a hash alike, they are of one width, both keep
the rules of well-formed trees or neither does, and under every meaning and all bindings they have
one value or fail with one error. -/
structure LooksLike (e f : Expr) : Prop where
  feed : e.feed = f.feed
  width : e.width = f.width
  validate : e.validate = .ok () ↔ f.validate = .ok ()
  solve (S : Semantics) (b : Bindings) : S.solve b e = S.solve b f

theorem looksLike_of_tree_eq {h : Heap} {e f : Expr} (he : h.Holds e) (hf : h.Holds f)
    (same : e.tree = f.tree) : e.LooksLike f where
  feed := feed_congr same
  width := width_congr same
  validate := by rw [validate_ok_iff he, validate_ok_iff hf, wellFormed_congr same]
  solve S b := by
    rw [S.solve_eq_value b he, S.solve_eq_value b hf]
    exact S.value_congr same rfl fun _ _ => rfl

/-- In a heap one identity is one node, so the short cut of `==` overlooks no difference. -/
theorem beq_iff_of_holds {h : Heap} {e f : Expr} (he : h.Holds e) (hf : h.Holds f) :
    (e == f) = true ↔ e.tree = f.tree :=
  ⟨tree_eq_of_beq fun _ hx _ hy => (he.node hx).eq (hf.node hy), beq_of_tree_eq⟩

/-- Throughout expressions that share nodes soundly, well-formed or not, `==` is an equivalence. It
compares content, just as a comparison down to the leaves does, and expressions that are equal look
alike to every observer. -/
theorem beq_sound {es : List Expr} (sound : Coherent es) :
    Equivalence (fun e f : {e // e ∈ es} => (e.1 == f.1) = true) ∧
      ∀ e ∈ es, ∀ f ∈ es, ((e == f) = true ↔ e.tree = f.tree) ∧ (e == f) = e.sameContent f ∧
        ((e == f) = true → e.LooksLike f) := by
  have holds : ∀ e ∈ es, (Heap.of es).Holds e := fun e he => Heap.holds_of sound he
  have content : ∀ e ∈ es, ∀ f ∈ es, ((e == f) = true ↔ e.tree = f.tree) := fun e he f hf =>
    beq_iff_of_holds (holds e he) (holds f hf)
  constructor
  · simp only [fun e f : {e // e ∈ es} => content e.1 e.2 f.1 f.2]
    exact ⟨fun _ => rfl, Eq.symm, Eq.trans⟩
  · intro e he f hf
    refine ⟨content e he f hf, ?_, fun same => ?_⟩
    · rw [Bool.eq_iff_iff, content e he f hf, sameContent_iff]
    · exact looksLike_of_tree_eq (holds e he) (holds f hf) ((content e he f hf).mp same)

end Expr

namespace Sample

/-- An operator with an operand too many, and one variable for all three. -/
def tripled : Expr :=
  let x := .var 0 "x" 2 (some "shown")
  .op 1 .sub [x, x, x]

/-- The same with a variable for each operand, one of them under another label. -/
def spread : Expr :=
  .op 2 .sub [.var 3 "x" 2 none, .var 4 "x" 2 (some "other"), .var 5 "x" 2 none]

theorem coherent_spread : Expr.Coherent [tripled, spread] := by
  simp [Expr.Coherent, tripled, spread, Expr.nodesOf_cons, Expr.nodes_eq, Expr.children, Expr.id]

end Sample

theorem Expr.beq_sound_sample : (Sample.tripled == Sample.spread) = true ∧
    Sample.tripled.LooksLike Sample.spread := by
  obtain ⟨-, each⟩ := Expr.beq_sound Sample.coherent_spread
  obtain ⟨content, -, looks⟩ := each Sample.tripled (by simp) Sample.spread (by simp)
  exact ⟨content.mpr rfl, looks (content.mpr rfl)⟩

end Lifted
