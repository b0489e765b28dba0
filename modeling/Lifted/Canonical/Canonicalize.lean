import Lifted.Canonical.Renaming
import Lifted.Expr.WellFormed

/-!
# Canonical forms

A batch of trees is brought into a form that does not depend on which registers the trees use, nor,
if asked for, on which addresses. The forms of different batches can be compared.

* `Collaborators`: what a run asks.
* `Report`: the names that a run gave, and how many registers and addresses it could not tell
  apart.
* `canonicalize`: the canonical form of a batch and its report.
* `canonicalizeBatches`: the canonical forms of several batches, each on its own.
-/

namespace Lifted

/-- What a run asks for values, registers and addresses. -/
structure Collaborators where
  evaluator : Evaluator
  registers : Registers
  image : ImageQueries

/-- What a run did. -/
structure Report where
  /-- The number of placeholders for registers. -/
  registerPlaceholders : Nat
  /-- The number of placeholders for addresses. -/
  addressPlaceholders : Nat
  /-- Each register with its canonical name, in the order of the registers' names. -/
  registerNames : List (String × String)
  /-- Each address with its canonical name, in ascending order. -/
  addressNames : List (UInt64 × String)
  /-- How many registers and addresses share a fingerprint with one that was counted before them.
  Where there are none, the numbering does not depend on the order of a walk. -/
  collisions : Nat
  deriving DecidableEq, Repr, Inhabited

namespace Report

/-- The canonical name of a register. -/
def registerName (r : Report) (register : String) : Option String := r.registerNames.lookup register

/-- The canonical name of an address. -/
def addressName (r : Report) (address : UInt64) : Option String := r.addressNames.lookup address

/-- The report of a run over `t` with these names. -/
def of (t : Tagged) (ranking : Ranking) (names : Names) : Report where
  registerPlaceholders := t.registers.size
  addressPlaceholders := t.addresses.size
  registerNames := names.registers.mergeSort fun a b => decide (a.1 ≤ b.1)
  addressNames := names.addresses.mergeSort fun a b => decide (a.1 ≤ b.1)
  collisions := ranking.collisions

end Report

/-- The canonical form of a batch: one tree for each of its trees, in their order. -/
structure Canonical where
  trees : List Expr
  report : Report

variable (c : Collaborators) (bindings : Bindings) (options : Options)

/-- Canonicalizes a batch. The options are looked at first, then the trees in order, and only then
is a collaborator asked. -/
def canonicalize (trees : List Expr) : Run Canonical := do
  liftM options.validate
  trees.forM fun tree => liftM tree.validate
  let tagged ← tag c.registers c.image options trees
  let ranking ← rank c.evaluator bindings tagged
  let names ← assignNames tagged ranking
  let trees ← rename c.image options.placeholderWidth tagged names
  let report := Report.of tagged ranking names
  Run.note (.finished trees.length report.registerNames.length report.addressNames.length
    report.collisions)
  return ⟨trees, report⟩

/-- Canonicalizes batches one after the other, each on its own. -/
def canonicalizeBatches (batches : List (List Expr)) :
    StateT Supply (StateM Journal) (List (Except Error (List Expr))) :=
  batches.mapM fun trees => (Canonical.trees <$> canonicalize c bindings options trees).run

end Lifted
