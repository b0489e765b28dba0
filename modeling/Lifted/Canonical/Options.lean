import Lifted.Error

/-!
# Options of a run

* `Options`: whether addresses are made anonymous, and how wide the new variables are.
* `Options.validate`: the widths that are allowed.
-/

namespace Lifted

/-- The options of a run. -/
structure Options where
  /-- Constants that are mapped addresses get canonical names too. -/
  anonymizeAddresses : Bool := false
  /-- The width in bytes of placeholders and canonical variables. -/
  placeholderWidth : UInt8 := 4
  deriving DecidableEq, Repr, Inhabited

namespace Options

/-- The widths that a machine word can have. -/
def widths : List UInt8 := [1, 2, 4, 8]

/-- Fails unless the placeholder width is one of `widths`. -/
def validate (o : Options) : Except Error Unit :=
  if o.placeholderWidth ∈ widths then .ok () else .error (.placeholderWidth o.placeholderWidth)

end Options
end Lifted
