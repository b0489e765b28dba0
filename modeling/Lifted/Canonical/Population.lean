import Lifted.Text.Hex

/-!
# The two populations

Registers and addresses are made anonymous side by side and numbered apart.

* `Population`: the two, and the words that each is written with.
* `Fingerprint`: the values on the way from a root down to a placeholder.
* `Fingerprint.text`: the values in hexadecimal, all of one length, so that the texts are ordered as
  the values are.
-/

namespace Lifted

/-- What a placeholder stands for: a register or an address. -/
inductive Population where
  | register | address
  deriving DecidableEq, Repr, Inhabited

namespace Population

/-- The word for a member, in the journal. -/
def noun : Population → String
  | register => "register"
  | address => "address"

/-- The word that opens a fingerprint. -/
def tag : Population → String
  | register => "sym"
  | address => "va"

/-- The name of every placeholder. Canonical forms can be compared as long as it stays the same. -/
def placeholder : Population → String
  | register => "archindreg"
  | address => "piva_global"

/-- What follows the number in a canonical name. -/
def suffix : Population → String
  | register => "indreg"
  | address => "archindva"

/-- The canonical name with the number `k`. -/
def canonicalName (p : Population) (k : Nat) : String := toString k ++ p.suffix

end Population

/-- The values of the nodes from a root down to a placeholder. -/
structure Fingerprint where
  population : Population
  values : List UInt64
  deriving DecidableEq, Repr, Inhabited

/-- The population's tag and sixteen digits for each value, with colons between. -/
def Fingerprint.text (f : Fingerprint) : String :=
  f.population.tag ++ String.join (f.values.map fun value => ":" ++ Hex.padded 16 value.toNat)

end Lifted
