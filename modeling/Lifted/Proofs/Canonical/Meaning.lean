import Lifted.Proofs.Canonical.Outcome
import Mathlib

/-!
# Meaning is kept

Where addresses stay as they are, a run renames variables and does nothing else. So the canonical
form means under renamed bindings what the batch means under the bindings it came with.

* `roleBy_of_visible`: without anonymous addresses a leaf is a register or it is kept.
* `Renames`: bindings that give a canonical name the value of its register.
* `Renames.leaf`: a leaf and what stands for it have one width and one value.
* `canonicalize_keeps_value`: so have all trees.
-/

namespace Lifted

/-- The bindings `b'` are those of `b` under the names of a report: they give each canonical name
the value of its register, and agree with `b` on the cells and on the other variables of the
batch. The registers of the batch are bound. -/
structure Renames (R : Registers) (es : List Expr) (report : Report) (b b' : Bindings) : Prop where
  cells : b'.cell = b.cell
  kept : ∀ x ∈ Expr.nodesOf es, ∀ name, x.name? = some name → R.knows name = false →
    b'.var name = b.var name
  renamed : ∀ name new, report.registerName name = some new → b'.var new = b.var name
  bound : ∀ name, RegisterIn R es name → ∃ value, b.var name = some value

variable {c : Collaborators} {b₀ b b' : Bindings} {o : Options} {s : Supply} {es : List Expr}
  {out : Canonical}

/-- Where addresses are not made anonymous, only registers are. -/
theorem roleBy_of_visible {R : Registers} {I : ImageQueries}
    (visible : o.anonymizeAddresses = false) (x : Expr) :
    roleBy R I o x = .kept ∨ ∃ name, roleBy R I o x = .register name := by
  cases x with
  | const id value bytes =>
    rw [roleBy_const, Options.thunk?, Options.anonymizes, visible]
    exact .inl rfl
  | var id name bytes label =>
    rw [roleBy_var]
    cases R.knows name with
    | true => exact .inr ⟨name, rfl⟩
    | false => exact .inl rfl
  | mem | op => exact .inl rfl

namespace Renames

/-- What stands for a leaf is as wide, is a constant if the leaf is, and has its value. -/
theorem leaf {R : Registers} {I : ImageQueries} (T : Substituted R I o es out)
    (h : Renames R es out.report b b') (visible : o.anonymizeAddresses = false)
    (widths : ∀ x ∈ Expr.nodesOf es, ∀ name, R.keyOf x = some name → x.width = o.placeholderWidth)
    (S : Semantics) {x : Expr} (hx : x ∈ Expr.nodesOf es) (leaf : x.isLeaf) :
    (leafOfRole I o out.report x (roleBy R I o x)).width = x.width ∧
      (leafOfRole I o out.report x (roleBy R I o x)).constant? = x.constant? ∧
      S.value b' (leafOfRole I o out.report x (roleBy R I o x)) = S.value b x := by
  rcases roleBy_of_visible (R := R) (I := I) visible x with role | ⟨name, role⟩
  · rw [role]
    cases x with
    | const id value bytes => exact ⟨by simp [leafOfRole, Expr.mapIds], rfl, rfl⟩
    | var id name bytes label =>
      refine ⟨by simp [leafOfRole, Expr.mapIds], rfl, ?_⟩
      have same := h.kept _ hx name rfl (not_knows_of_kept role)
      show S.onNode b' (.var 0 name bytes label) [] = S.onNode b (.var id name bytes label) []
      rw [Semantics.onNode, Semantics.onNode, Semantics.ofVar, Semantics.ofVar, same]
    | mem | op => cases leaf
  · have key : R.keyOf x = some name := keyOf_eq_some_iff.mpr role
    obtain ⟨-, id, bytes, label, rfl⟩ := eq_var_of_register role
    have here : RegisterIn R es name := registerIn_iff.mpr ⟨_, hx, key⟩
    obtain ⟨new, named⟩ := (T.registers name).mpr here
    obtain ⟨value, bound⟩ := h.bound name here
    have width : bytes = o.placeholderWidth := by simpa using widths _ hx name key
    rw [role, leafOfRole, named, Option.getD_some]
    refine ⟨by simp [width], rfl, ?_⟩
    show S.onNode b' (.var 0 new o.placeholderWidth none) [] =
      S.onNode b (.var id name bytes label) []
    rw [Semantics.onNode, Semantics.onNode, Semantics.ofVar, Semantics.ofVar,
      h.renamed name new named, bound, width]

end Renames

/-- A run that leaves addresses as they are keeps the meaning of every tree, if registers are as
wide as what stands for them: under the renamed bindings the output has the value of the input, or
fails with the same error. That holds of any meaning, strict or not, whatever the run itself was
evaluated by; that a canonical name is not a name of the batch is not needed, as the bindings then
give both the same value. -/
theorem canonicalize_keeps_value (serves : s.Serves es) (visible : o.anonymizeAddresses = false)
    (widths : ∀ x ∈ Expr.nodesOf es, ∀ name, c.registers.keyOf x = some name →
      x.width = o.placeholderWidth)
    (done : (canonicalize c b₀ o es).outcome s = .ok out)
    (h : Renames c.registers es out.report b b') (S : Semantics) :
    List.Forall₂ (fun e e' => S.solve b' e' = S.solve b e) es out.trees := by
  have T := substituted_of_ok serves done
  have contents := map_eq_map_iff.mp T.content
  refine (forall₂_mem contents.flip).imp ?_
  rintro e e' ⟨he, he', content⟩
  have held := serves.holds e he
  have held' := Heap.holds_of T.coherent he'
  calc S.solve b' e'
      = S.value b' e' := S.solve_eq_value b' held'
    _ = S.value b' (e.mapLeaves fun x =>
          leafOfRole c.image o out.report x (roleBy c.registers c.image o x)) :=
        S.value_congr content rfl fun _ _ => rfl
    _ = S.value b e := S.value_mapLeaves (fun _ leaf => isLeaf_leafOfRole leaf _) h.cells
        fun x hx leaf => h.leaf T visible widths S (Expr.mem_nodesOf.mpr ⟨e, he, hx⟩) leaf
    _ = S.solve b e := (S.solve_eq_value b held).symm

/-! ## The small batch, with its addresses visible -/

namespace Sample

/-- A value for the register of the batch. -/
def bound : Bindings := Bindings.empty.setVar "eax" 3

/-- The same value for what the register becomes. -/
def rebound : Bindings := Bindings.empty.setVar "0indreg" 3

theorem widths_batch : ∀ x ∈ Expr.nodesOf batch, ∀ name,
    collaborators.registers.keyOf x = some name → x.width = ({} : Options).placeholderWidth := by
  rw [nodesOf_batch]
  simp [Registers.keyOf, Expr.name?]

/-- There is one variable. -/
theorem eq_eax {x : Expr} (hx : x ∈ Expr.nodesOf batch) {name : String}
    (hn : x.name? = some name) : name = "eax" := by
  rw [nodesOf_batch] at hx
  simp only [List.mem_cons, List.not_mem_nil, or_false] at hx
  rcases hx with rfl | rfl | rfl | rfl | rfl | rfl <;> simp_all [Expr.name?]

theorem eq_eax_of_registerIn {name : String}
    (h : RegisterIn collaborators.registers batch name) : name = "eax" := by
  obtain ⟨-, x, hx, hn⟩ := h
  exact eq_eax hx hn

theorem renames_batch {out : Canonical}
    (done : (canonicalize collaborators bindings {} batch).outcome (Supply.startingAt 5) = .ok out)
    (named : out.report.registerName "eax" = some "0indreg") :
    Renames collaborators.registers batch out.report bound rebound where
  cells := rfl
  kept x hx name hn unknown := by
    have known : collaborators.registers.knows "eax" = true := by decide
    rw [eq_eax hx hn, known] at unknown
    cases unknown
  renamed name new hn := by
    obtain rfl := eq_eax_of_registerIn
      (((substituted_of_ok serves_batch done).registers name).mp ⟨new, hn⟩)
    obtain rfl : "0indreg" = new := Option.some.inj (named.symm.trans hn)
    simp [bound, rebound, Bindings.setVar]
  bound name hn := by
    obtain rfl := eq_eax_of_registerIn hn
    exact ⟨3, by simp [bound, Bindings.setVar]⟩

end Sample

theorem canonicalize_keeps_value_sample : ∃ out,
    (canonicalize Sample.collaborators Sample.bindings {} Sample.batch).outcome
      (Supply.startingAt 5) = .ok out ∧
    Renames Sample.collaborators.registers Sample.batch out.report Sample.bound Sample.rebound ∧
    ∀ S : Semantics, List.Forall₂
      (fun e e' => S.solve Sample.rebound e' = S.solve Sample.bound e) Sample.batch out.trees := by
  have runs : ((canonicalize Sample.collaborators Sample.bindings {}
      Sample.batch).outcome (Supply.startingAt 5)).toOption.map
        (fun out => out.report.registerName "eax") = some (some "0indreg") := by cbv
  obtain ⟨out, done, named⟩ := exists_ok_of_map_eq runs
  have renames := Sample.renames_batch done named
  exact ⟨out, done, renames, fun S =>
    canonicalize_keeps_value Sample.serves_batch rfl Sample.widths_batch done renames S⟩

end Lifted
