import Lifted.Canonical.Journal
import Lifted.Canonical.Options
import Lifted.Image
import Lifted.Registers
import Lifted.Walk
import Std.Data.HashMap

/-!
# Placeholders

The leaves that a run makes anonymous are replaced by placeholders, which all look the same. What a
leaf becomes follows from its content alone; that a leaf below several parents becomes one
placeholder follows from its identity.

* `Role`, `roleOf`: what is to become of a leaf.
* `Referent`: what a placeholder stands for.
* `Tagged`: the trees of a batch with their placeholders, and what these stand for.
* `tag`: puts placeholders into a batch.
-/

namespace Lifted

/-- What is to become of a node. -/
inductive Role where
  | kept
  /-- It is the register of this name. -/
  | register (name : String)
  /-- It is this address. -/
  | address (value : UInt64)
  /-- It is the address of a function that has a name of its own. -/
  | thunk (name : String)
  deriving DecidableEq, Repr, Inhabited

/-- The role of a constant, if addresses are made anonymous. -/
def addressRole (image : ImageQueries) (value : UInt64) : Except Error Role := do
  if !(← image.isMapped value) then return .kept
  if ← image.isFunction value then
    if let some name ← image.thunkName value then return .thunk name
  return .address value

/-- The role of a node. A variable is a register if its name is one; a constant is an address if it
is mapped and addresses are made anonymous; all else is kept. -/
def roleOf (registers : Registers) (image : ImageQueries) (options : Options) (e : Expr) :
    Except Error Role :=
  match e with
  | .var _ name _ _ => do
    if (← registers.index name).isSome then return .register name else return .kept
  | .const _ value _ =>
    if options.anonymizeAddresses then addressRole image value else .ok .kept
  | .mem .. | .op .. => .ok .kept

/-- What a placeholder stands for. -/
structure Referent (κ : Type) where
  /-- The leaf that it replaced. -/
  leaf : Expr
  /-- The register's name, or the address. -/
  key : κ

/-- What each placeholder of a population stands for. -/
abbrev Referents (κ : Type) := Std.HashMap NodeId (Referent κ)

/-- The placeholders made so far. -/
structure Tagging where
  /-- What each leaf was replaced by, under the identity of the leaf. -/
  replaced : Std.HashMap NodeId Expr
  registers : Referents String
  addresses : Referents UInt64

namespace Tagging

/-- Nothing is replaced yet. -/
def empty : Tagging := ⟨∅, ∅, ∅⟩

instance : Inhabited Tagging := ⟨empty⟩

/-- Records what a placeholder for a register stands for. -/
def addRegister (t : Tagging) (placeholder : NodeId) (referent : Referent String) : Tagging :=
  { t with registers := t.registers.insert placeholder referent }

/-- Records what a placeholder for an address stands for. -/
def addAddress (t : Tagging) (placeholder : NodeId) (referent : Referent UInt64) : Tagging :=
  { t with addresses := t.addresses.insert placeholder referent }

/-- Records what a leaf was replaced by. -/
def addReplaced (t : Tagging) (leaf : NodeId) (replacement : Expr) : Tagging :=
  { t with replaced := t.replaced.insert leaf replacement }

end Tagging

/-- A batch of trees with its placeholders. -/
structure Tagged where
  trees : List Expr
  registers : Referents String
  addresses : Referents UInt64

section

variable (registers : Registers) (image : ImageQueries) (options : Options)

/-- The new leaf for a node with this role, if the role asks for one. -/
def replacementFor (node : Expr) : Role → StateT Tagging Run (Option Expr)
  | .kept => pure none
  | .thunk name => some <$> Expr.newVariable name image.pointerWidth
  | .register name => do
    let new ← Expr.newVariable Population.register.placeholder options.placeholderWidth
    modify (·.addRegister new.id ⟨node, name⟩)
    return some new
  | .address value => do
    let new ← Expr.newVariable Population.address.placeholder options.placeholderWidth
    modify (·.addAddress new.id ⟨node, value⟩)
    return some new

/-- Replaces a leaf, by what it was replaced by before if it is met again. -/
def tagNode : Visitor (StateT Tagging Run) := fun _ node => do
  match (← get).replaced[node.id]? with
  | some before => return some before
  | none =>
    let role ← liftM (roleOf registers image options node)
    let replacement ← replacementFor image options node role
    if let some new := replacement then modify (·.addReplaced node.id new)
    return replacement

/-- Puts placeholders into the trees of a batch, one tree after the other. -/
def tag (trees : List Expr) : Run Tagged := do
  let (trees, tagging) ← (trees.mapM (walk (tagNode registers image options))).run .empty
  Run.note (.tagged tagging.registers.size tagging.addresses.size)
  return ⟨trees, tagging.registers, tagging.addresses⟩

end

end Lifted
