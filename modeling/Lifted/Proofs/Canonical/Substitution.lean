import Lifted.Proofs.Canonical.Outcome
import Mathlib

/-!
# A run is a substitution

Three passes with identities, tables and memos come to one substitution that looks at a leaf's
content alone.

* `canonicalLeaf`: what stands for a leaf in the canonical form.
* `canonicalize_eq_substitution`: a run that succeeds substitutes every leaf of every tree so, and
  names just the registers and the anonymous addresses of the batch.
-/

namespace Lifted

/-- What stands in the canonical form for a leaf of this content, under the names of a report: its
canonical name for a register, the name of its own for a thunk, the canonical name for any other
anonymous address, which shows the string that it lies in, and the leaf itself for all else. -/
def canonicalLeaf (R : Registers) (I : ImageQueries) (o : Options) (report : Report) : Expr → Expr
  | .var _ name bytes label =>
    if R.knows name then .var 0 ((report.registerName name).getD "") o.placeholderWidth none
    else .var 0 name bytes label
  | .const _ value bytes =>
    match o.thunk? I value with
    | some name => .var 0 name I.pointerWidth none
    | none =>
      if o.anonymizes I value then
        .var 0 ((report.addressName value).getD "") o.placeholderWidth (I.literal? value)
      else .const 0 value bytes
  | e => e

/-- The substitution by role. -/
theorem canonicalLeaf_eq {R : Registers} {I : ImageQueries} {o : Options} (report : Report)
    {x : Expr} (leaf : x.isLeaf) :
    canonicalLeaf R I o report x = leafOfRole I o report x (roleBy R I o x) := by
  cases x with
  | const id value bytes =>
    rw [roleBy_const, canonicalLeaf]
    cases o.thunk? I value with
    | some name => rfl
    | none => cases o.anonymizes I value <;> rfl
  | var id name bytes label =>
    rw [roleBy_var, canonicalLeaf]
    cases R.knows name <;> rfl
  | mem | op => cases leaf

/-- Every output tree is the input tree with its leaves substituted by content, labels and all, up
to identities. The report names the registers and the anonymous addresses of the batch, and nothing
else. -/
theorem canonicalize_eq_substitution {c : Collaborators} {b : Bindings} {o : Options} {s : Supply}
    {es : List Expr} {out : Canonical} (serves : s.Serves es)
    (done : (canonicalize c b o es).outcome s = .ok out) :
    out.trees.map (Expr.mapIds fun _ => 0) =
        es.map (Expr.mapLeaves (canonicalLeaf c.registers c.image o out.report)) ∧
      (∀ name, (∃ new, out.report.registerName name = some new) ↔
        RegisterIn c.registers es name) ∧
      ∀ a, (∃ new, out.report.addressName a = some new) ↔ AddressIn c.image o es a := by
  have S := substituted_of_ok serves done
  refine ⟨?_, S.registers, S.addresses⟩
  rw [S.trees]
  exact List.map_congr_left fun e _ => Expr.mapLeaves_congr fun x _ leaf =>
    (canonicalLeaf_eq _ leaf).symm

theorem canonicalize_eq_substitution_sample : ∃ out,
    (canonicalize Sample.collaborators Sample.bindings Sample.options Sample.batch).outcome
      (Supply.startingAt 5) = .ok out ∧
    out.trees.map (Expr.mapIds fun _ => 0) = Sample.batch.map
      (Expr.mapLeaves (canonicalLeaf Sample.collaborators.registers Sample.collaborators.image
        Sample.options out.report)) ∧
    (∀ name, (∃ new, out.report.registerName name = some new) ↔
      RegisterIn Sample.collaborators.registers Sample.batch name) ∧
    ∀ a, (∃ new, out.report.addressName a = some new) ↔
      AddressIn Sample.collaborators.image Sample.options Sample.batch a := by
  have runs : ((canonicalize Sample.collaborators Sample.bindings Sample.options
      Sample.batch).outcome (Supply.startingAt 5)).toOption.map
        (fun out => out.report.registerName "eax") = some (some "0indreg") := by cbv
  obtain ⟨out, done, -⟩ := exists_ok_of_map_eq runs
  exact ⟨out, done, canonicalize_eq_substitution Sample.serves_batch done⟩

end Lifted
