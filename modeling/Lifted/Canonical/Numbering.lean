import Lifted.Canonical.Ranking

/-!
# Numbering

Registers and addresses are numbered from zero, each population apart, in the order in which the
ranking first meets them. The number and the population make the canonical name.

* `numbering`: distinct keys with their canonical names.
* `Names`: the names of a batch.
* `assignNames`: the names that a ranking leads to.
-/

namespace Lifted

/-- The distinct keys in order of first appearance, with their canonical names. -/
def numbering {κ : Type} [BEq κ] (population : Population) (keys : List κ) : List (κ × String) :=
  keys.eraseDups.zipIdx.map fun (key, k) => (key, population.canonicalName k)

/-- The keys that occurrences stand for, in their order. -/
def keysOf {κ : Type} (referents : Referents κ) (occurrences : List Occurrence) :
    Except Error (List κ) :=
  occurrences.mapM fun o =>
    match referents[o.placeholder]? with
    | some referent => .ok referent.key
    | none => .error (.unknownPlaceholder o.placeholder)

/-- Canonical names, in the order of their numbers. -/
structure Names where
  registers : List (String × String)
  addresses : List (UInt64 × String)
  deriving DecidableEq, Repr, Inhabited

/-- The names that a ranking leads to. -/
def Names.ofRanking (t : Tagged) (r : Ranking) : Except Error Names := do
  let registers ← keysOf t.registers r.registers
  let addresses ← keysOf t.addresses r.addresses
  return ⟨numbering .register registers, numbering .address addresses⟩

/-- Names the registers and addresses of a batch. -/
def assignNames (t : Tagged) (r : Ranking) : Run Names := do
  let names ← liftM (Names.ofRanking t r)
  Run.note (.named names.registers.length names.addresses.length)
  return names

end Lifted
