import Lifted.Canonical.Placeholder
import Lifted.Evaluation.Evaluator
import Lifted.Evaluation.Memo
import Lifted.Expr.Position

/-!
# Ranking

Placeholders are ranked by the values of the nodes above them. All placeholders have the same name
and so the same value, which is why a fingerprint says where a register stands and not which
register it is, and why swapping the operands of a commutative operator changes no fingerprint.

* `Occurrence`: a placeholder at one of its positions.
* `Occurrence.le`: fingerprints in the order of their values, one that goes on after another one
  last; of equal fingerprints the placeholder that was made first.
* `Tie`: registers, or addresses, that share a fingerprint.
* `rank`: all occurrences of a batch in order, with their ties.
-/

namespace Lifted

/-- A placeholder at one of its positions. -/
structure Occurrence where
  /-- The values on the way from the root down to the placeholder. -/
  values : List UInt64
  placeholder : NodeId
  deriving DecidableEq, Repr, Inhabited

namespace Occurrence

/-- The order of the ranking. -/
def le (a b : Occurrence) : Bool :=
  decide (a.values < b.values) || (a.values == b.values && a.placeholder ≤ b.placeholder)

/-- The two places look the same. -/
def tied (a b : Occurrence) : Bool := a.values == b.values

end Occurrence

/-- Different registers, or addresses, with placeholders that share a fingerprint. -/
structure Tie where
  fingerprint : Fingerprint
  /-- One leaf for each of them, in the order of their texts. -/
  leaves : List Expr

/-- The occurrences of a batch, each population in order, and the ties. -/
structure Ranking where
  registers : List Occurrence
  addresses : List Occurrence
  ties : List Tie

/-- How many registers and addresses share a fingerprint with one counted before them. -/
def Ranking.collisions (r : Ranking) : Nat :=
  r.ties.foldr (fun tie count => tie.leaves.length - 1 + count) 0

/-- One of `referents` for each key, the first, in the order of the keys' texts. -/
def distinctReferents {κ : Type} [BEq κ] (text : κ → String) (referents : List (Referent κ)) :
    List (Referent κ) :=
  (referents.eraseDupsBy fun a b => a.key == b.key).mergeSort fun a b =>
    decide (text a.key ≤ text b.key)

/-- The tie of occurrences with one fingerprint, if they stand for more than one thing. -/
def tieOf {κ : Type} [BEq κ] (population : Population) (text : κ → String)
    (referents : Referents κ) (occurrences : List Occurrence) : Option Tie :=
  let distinct := distinctReferents text (occurrences.filterMap (referents[·.placeholder]?))
  match occurrences with
  | first :: _ =>
    if 1 < distinct.length then some ⟨⟨population, first.values⟩, distinct.map (·.leaf)⟩ else none
  | [] => none

/-- The ties among occurrences in order, those of the smaller fingerprints first. -/
def tiesOf {κ : Type} [BEq κ] (population : Population) (text : κ → String)
    (referents : Referents κ) (ranked : List Occurrence) : List Tie :=
  (ranked.splitBy Occurrence.tied).filterMap (tieOf population text referents)

namespace Tagged

/-- The population that a node of the batch is a placeholder of. -/
def populationOf (t : Tagged) (e : Expr) : Option Population :=
  if t.registers.contains e.id then some .register
  else if t.addresses.contains e.id then some .address
  else none

/-- The positions at which placeholders stand, with their populations, in the order of a walk. -/
def placements (t : Tagged) : List (Population × Position) :=
  (t.trees.flatMap Expr.positions).filterMap fun p => (t.populationOf p.node).map (·, p)

end Tagged

section

variable {m : Type → Type} [Monad m]

/-- Evaluates all trees of a batch, and then the nodes above each placeholder. -/
def occurrences (valueOf : NodeValue m) (t : Tagged) :
    MemoT m (List (Population × Occurrence)) := do
  t.trees.forM fun tree => discard (solve valueOf tree)
  t.placements.mapM fun (population, p) => do
    let values ← p.path.mapM (solve valueOf)
    return (population, ⟨values, p.node.id⟩)

end

/-- The occurrences of one population, in order. -/
def ranked (population : Population) (occurrences : List (Population × Occurrence)) :
    List Occurrence :=
  (occurrences.filterMap fun o => if o.1 = population then some o.2 else none).mergeSort
    Occurrence.le

/-- Orders the occurrences of a batch and finds their ties. -/
def Ranking.ofOccurrences (t : Tagged) (occurrences : List (Population × Occurrence)) : Ranking :=
  let registers := ranked .register occurrences
  let addresses := ranked .address occurrences
  ⟨registers, addresses,
    tiesOf .register (fun name => name) t.registers registers ++
      tiesOf .address (fun address => toString address.toNat) t.addresses addresses⟩

/-- Ranks the placeholders of a batch. -/
def rank (evaluator : Evaluator) (bindings : Bindings) (t : Tagged) : Run Ranking := do
  let (found, memo) := ((occurrences (m := Id) (evaluator.onNode bindings) t).run.run ∅).run
  let found ← liftM found
  Run.notes (found.map fun (population, o) => .placed o.placeholder ⟨population, o.values⟩)
  Run.note (.solved memo.size)
  let ranking := Ranking.ofOccurrences t found
  Run.notes (ranking.ties.map fun tie => .tied tie.fingerprint tie.leaves)
  return ranking

end Lifted
