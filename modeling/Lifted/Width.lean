/-!
# Widths in bytes

A node yields a value of some width in bytes, and values live in 64-bit words. Eight bytes fill
the word, so a larger width means eight.

* `Width.bits`: the number of bits, at most 64.
* `Width.mask`: the word with these low bits set.
* `Width.truncate`: a word cut to a width.
-/

namespace Lifted
namespace Width

/-- The number of bits in `width` bytes, at most 64. -/
def bits (width : UInt8) : UInt64 := 8 * (min width 8).toUInt64

/-- The word with the low `bits width` bits set. -/
def mask (width : UInt8) : UInt64 :=
  if 8 ≤ width then 0xffffffffffffffff else (1 <<< bits width) - 1

/-- The low `width` bytes of a word. -/
def truncate (width : UInt8) (word : UInt64) : UInt64 := word &&& mask width

end Width
end Lifted
