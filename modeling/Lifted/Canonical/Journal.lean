import Lifted.Canonical.Population
import Lifted.Error
import Lifted.Expr.Text

/-!
# The journal of a run

A run writes down what it does. Its records are data; the words are found when they are read.

* `Record`: one line of the journal, with its `Record.level` and `Record.text`.
* `Run`: computations that make nodes, write a journal and may fail. A failure keeps both the
  journal and the identities that were taken.
-/

namespace Lifted

/-- How much a record matters. -/
inductive Level where
  | trace | debug | warn
  deriving DecidableEq, Repr, Inhabited

/-- The name of a level. -/
def Level.name : Level → String
  | trace => "TRACE"
  | debug => "DEBUG"
  | warn => "WARN"

/-- Something that a run did. -/
inductive Record where
  /-- All leaves to be made anonymous have their placeholders. -/
  | tagged (registers addresses : Nat)
  /-- A placeholder stands at a place with this fingerprint. -/
  | placed (placeholder : NodeId) (fingerprint : Fingerprint)
  /-- The fingerprints took the values of so many nodes. -/
  | solved (nodes : Nat)
  /-- These leaves have placeholders with one fingerprint. -/
  | tied (fingerprint : Fingerprint) (leaves : List Expr)
  /-- So many registers and addresses have names. -/
  | named (registers addresses : Nat)
  | finished (trees registers addresses collisions : Nat)

namespace Record

/-- The level of a record. -/
def level : Record → Level
  | tagged .. | placed .. | solved .. => .trace
  | tied .. => .warn
  | named .. | finished .. => .debug

/-- The words of a record. The identity of a placeholder is spelled by `placeholder` and that of
any other node by `node`. -/
def text (placeholder node : NodeId → String) : Record → String
  | tagged registers addresses =>
    s!"tagged {registers} register and {addresses} address placeholders"
  | placed id fingerprint =>
    s!"{fingerprint.population.noun} placeholder {placeholder id} at {fingerprint.text}"
  | solved nodes => s!"solved {nodes} distinct nodes"
  | tied fingerprint leaves =>
    let written := ", ".intercalate (leaves.map (Expr.taggedText node))
    s!"fingerprint collision at {fingerprint.text} between [{written}]"
  | named registers addresses => s!"assigned {registers} register and {addresses} address names"
  | finished trees registers addresses collisions =>
    s!"canonicalized {trees} trees: {registers} registers, {addresses} addresses, " ++
      s!"{collisions} collisions"

end Record

/-- What a run has done so far, the first thing first. -/
abbrev Journal := Array Record

/-- Computations that make nodes, write a journal and may fail. -/
abbrev Run := ExceptT Error (StateT Supply (StateM Journal))

namespace Run

/-- Adds a record to the journal. -/
def note (r : Record) : Run Unit := modifyThe Journal (·.push r)

/-- Adds records to the journal, the first one first. -/
def notes (rs : List Record) : Run Unit := modifyThe Journal (· ++ rs)

/-- The outcome of a run that starts with an empty journal, with the identities left over and what
it wrote. -/
def start {α : Type} (x : Run α) (supply : Supply) : (Except Error α × Supply) × Journal :=
  (ExceptT.run x).run supply |>.run #[]

end Run
end Lifted
