/-!
# Hexadecimal text

Words are printed in lower-case hexadecimal.

* `Hex.text`: the fewest digits, one for zero.
* `Hex.padded`: zeros in front up to a least number of digits; no digit is ever cut off.
* `Hex.literal`: `Hex.text` behind `0x`.
-/

namespace Lifted
namespace Hex

/-- The lower-case digits of `n`, the most significant first. -/
def digits (n : Nat) : List Char := Nat.toDigits 16 n

/-- `n` in the fewest digits. -/
def text (n : Nat) : String := String.ofList (digits n)

/-- `n` in at least `count` digits, with zeros in front. -/
def padded (count n : Nat) : String := String.ofList ((digits n).leftpad count '0')

/-- `word` in the fewest digits, marked as hexadecimal. -/
def literal (word : UInt64) : String := "0x" ++ text word.toNat

end Hex
end Lifted
