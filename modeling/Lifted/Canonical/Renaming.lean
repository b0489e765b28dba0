import Lifted.Canonical.Numbering

/-!
# Renaming

The placeholders of a batch are replaced by canonical variables. Every placeholder has one variable,
however often it stands in the batch; an address that lies in a string shows the string in place of
its name.

* `canonicalVariable`: the variable for a placeholder.
* `rename`: puts the variables into a batch.
-/

namespace Lifted

/-- The placeholders replaced so far, with their variables. -/
abbrev Renamed := Std.HashMap NodeId Expr

section

variable (image : ImageQueries) (width : UInt8) (t : Tagged) (names : Names)

/-- The name of a key, which belongs to the placeholder `id`. -/
def nameOf {κ : Type} [BEq κ] (id : NodeId) (key : κ) (names : List (κ × String)) :
    Except Error String :=
  match names.lookup key with
  | some name => .ok name
  | none => .error (.unknownPlaceholder id)

/-- The new variable for a node, if it is a placeholder. -/
def canonicalVariable (node : Expr) : Run (Option Expr) := do
  match t.registers[node.id]?, t.addresses[node.id]? with
  | some referent, _ =>
    let name ← liftM (nameOf node.id referent.key names.registers)
    some <$> Expr.newVariable name width
  | none, some referent =>
    let name ← liftM (nameOf node.id referent.key names.addresses)
    let new ← Expr.newVariable name width
    match ← liftM (image.stringLiteral referent.key) with
    | some label => some <$> new.withLabel label
    | none => return some new
  | none, none => return none

/-- Replaces a placeholder, by the same variable if it is met again. -/
def renameNode : Visitor (StateT Renamed Run) := fun _ node => do
  match (← get)[node.id]? with
  | some before => return some before
  | none =>
    let new? ← liftM (canonicalVariable image width t names node)
    if let some new := new? then modify (·.insert node.id new)
    return new?

/-- Puts canonical variables into the trees of a batch, one tree after the other. -/
def rename : Run (List Expr) :=
  (t.trees.mapM (walk (renameNode image width t names))).run' ∅

end

end Lifted
