import Lifted.Operator.Arithmetic
import Lifted.Proofs.Expr.Commute
import Mathlib.Data.Int.ModEq
import Mathlib.Data.Nat.Bitwise
import Mathlib.Tactic.NormNum
import Mathlib.Tactic.Positivity
import Mathlib.Tactic.Ring

/-!
# Operators are exact

An operator computes on machine words what the operation does with numbers, reduced to the width.
No step on the way leaves the range of its words: no shift is by 64 or more, and no difference is
taken below zero, the wrapping ones apart.

* `Width.size`: the number of bits of a width, as a number; `Width.toNat_truncate`.
* `Operator.exact`: the operations on numbers, without any bound.
* `Operator.modEq_compute`: the words agree with these numbers modulo the width.
* `Operator.Yields`: the value for the operands of `n` bits, by its number and by its bits.
* `Operator.Computes`: the errors and the values, for every list of operands and every width.
* `Operator.checkedApply`: the same steps, none of which may leave its range.
* `Operator.apply_exact`: operators compute exactly, and without leaving a range.
-/

namespace Lifted

/-! ## Widths -/

namespace Width

/-- The number of bits in `width` bytes, at most 64. -/
def size (width : UInt8) : ℕ := 8 * min width.toNat 8

theorem size_le (width : UInt8) : size width ≤ 64 := by
  unfold size
  omega

theorem size_pos {width : UInt8} (h : width ≠ 0) : 0 < size width := by
  have : width.toNat ≠ 0 := fun zero => h (UInt8.toNat_inj.mp zero)
  unfold size
  omega

theorem toNat_bits (width : UInt8) : (bits width).toNat = size width := by
  have small : (min width 8).toNat ≤ 8 := by
    rw [UInt8.toNat_min]
    exact Nat.min_le_right _ _
  rw [bits, UInt64.toNat_mul, UInt8.toNat_toUInt64, UInt8.toNat_min, size]
  rw [UInt8.toNat_min] at small
  exact Nat.mod_eq_of_lt (by simp at small ⊢; omega)

/-- Short of 64 bits, the first number that is too large is still a word. -/
theorem toNat_one_shiftLeft {width : UInt8} (lt : (bits width).toNat < 64) :
    ((1 : UInt64) <<< bits width).toNat = 2 ^ size width := by
  have small := Nat.mod_eq_of_lt lt
  rw [toNat_bits] at lt small
  rw [UInt64.toNat_shiftLeft, toNat_bits, small, Nat.shiftLeft_eq]
  exact (congrArg (· % 2 ^ 64) (Nat.one_mul _)).trans
    (Nat.mod_eq_of_lt (Nat.pow_lt_pow_right (by decide) lt))

/-- The mask is one less than the first number that is too large. -/
theorem toNat_mask (width : UInt8) : (mask width).toNat = 2 ^ size width - 1 := by
  unfold mask
  split
  case isTrue full =>
    have full : 8 ≤ width.toNat := UInt8.le_iff_toNat_le.mp full
    have : size width = 64 := by
      unfold size
      omega
    rw [this]
    rfl
  case isFalse small =>
    have small : width.toNat < 8 := by simpa [UInt8.le_iff_toNat_le] using small
    have lt : (bits width).toNat < 64 := by
      rw [toNat_bits, size]
      omega
    have shifted := toNat_one_shiftLeft lt
    rw [UInt64.toNat_sub_of_le, shifted]
    · rfl
    · rw [UInt64.le_iff_toNat_le, shifted]
      exact Nat.one_le_two_pow

theorem toNat_truncate (width : UInt8) (word : UInt64) :
    (truncate width word).toNat = word.toNat % 2 ^ size width := by
  rw [truncate, UInt64.toNat_and, toNat_mask, Nat.and_two_pow_sub_one_eq_mod]

end Width

/-! ## Signed words -/

/-- A shift by less than 64 that repeats the sign bit rounds down. -/
theorem toInt_shiftRight {amount : UInt64} (x : Int64) (h : amount.toNat < 64) :
    (x >>> amount.toInt64).toInt = x.toInt / 2 ^ amount.toNat := by
  have positive : amount.toBitVec.msb = false := by
    rw [BitVec.msb_eq_false_iff_two_mul_lt, UInt64.toNat_toBitVec]
    omega
  have small : amount.toBitVec.smod 64 = amount.toBitVec := by
    rw [BitVec.smod_eq, positive]
    show amount.toBitVec % 64 = _
    apply BitVec.eq_of_toNat_eq
    rw [BitVec.toNat_umod, UInt64.toNat_toBitVec]
    exact Nat.mod_eq_of_lt h
  rw [← Int64.toInt_toBitVec, Int64.toBitVec_shiftRight, UInt64.toBitVec_toInt64, small,
    BitVec.sshiftRight', BitVec.toInt_sshiftRight, UInt64.toNat_toBitVec, Int64.toInt_toBitVec,
    Int.shiftRight_eq_div_pow]
  norm_cast

namespace Operator

/-- What a number of `n` bits stands for in two's complement. -/
def signed (n x : ℕ) : ℤ := if 2 * x < 2 ^ n then x else x - 2 ^ n

theorem toInt_signExtend {bits word : UInt64} (pos : 0 < bits.toNat) (le : bits.toNat ≤ 64)
    (h : word.toNat < 2 ^ bits.toNat) :
    (signExtend bits word).toInt = signed bits.toNat word.toNat := by
  have amount : (64 - bits).toNat = 64 - bits.toNat := by
    rw [UInt64.toNat_sub_of_le _ _ (UInt64.le_iff_toNat_le.mpr le)]
    rfl
  have whole : (2 : ℕ) ^ 64 = 2 ^ bits.toNat * 2 ^ (64 - bits.toNat) := by
    rw [← pow_add]
    congr 1
    omega
  have below : (64 - bits.toNat) % 64 = 64 - bits.toNat := Nat.mod_eq_of_lt (by omega)
  have shifted : (word <<< (64 - bits)).toNat = word.toNat * 2 ^ (64 - bits.toNat) := by
    rw [UInt64.toNat_shiftLeft, amount, below, Nat.shiftLeft_eq, whole]
    exact Nat.mod_eq_of_lt (Nat.mul_lt_mul_of_pos_right h (by positivity))
  -- The sign bit of the shifted word is that of the word.
  have half : 2 * (word.toNat * 2 ^ (64 - bits.toNat)) < 2 ^ 64 ↔
      2 * word.toNat < 2 ^ bits.toNat := by
    rw [whole, ← mul_assoc, Nat.mul_lt_mul_right (by positivity)]
  have value : (word <<< (64 - bits)).toInt64.toInt =
      signed bits.toNat word.toNat * 2 ^ (64 - bits.toNat) := by
    rw [← Int64.toInt_toBitVec, UInt64.toBitVec_toInt64, BitVec.toInt_eq_toNat_cond,
      UInt64.toNat_toBitVec, shifted, signed]
    simp only [half]
    split
    · push_cast
      ring
    · rw [whole]
      push_cast
      ring
  rw [signExtend, toInt_shiftRight _ (by omega), value, amount]
  exact Int.mul_ediv_cancel _ (by positivity)

/-! ## Numbers -/

/-- The operation on numbers, of which `left` and `right` have `n` bits. Nothing is reduced: the
result may be negative, or too large. -/
def exact (op : Operator) (n left right : ℕ) : ℤ :=
  match op with
  | add => left + right
  | sub => left - right
  | mul => left * right
  | div => (left / right : ℕ)
  | mod => (left % right : ℕ)
  | and => (left &&& right : ℕ)
  | or => (left ||| right : ℕ)
  | xor => (left ^^^ right : ℕ)
  | shl => left * 2 ^ right
  | shr => (left / 2 ^ right : ℕ)
  | sar => signed n left / 2 ^ right
  | neg => -left
  | not => 2 ^ n - 1 - left

section

variable {bits left right value : UInt64}

/-- A word that is right modulo `2 ^ 64` is right modulo a smaller power. -/
theorem modEq_of_wrapped {n : ℕ} (le : n ≤ 64) {x : ℤ} (h : (value.toNat : ℤ) ≡ x [ZMOD 2 ^ 64]) :
    (value.toNat : ℤ) ≡ x [ZMOD 2 ^ n] :=
  h.of_dvd (pow_dvd_pow 2 le)

/-- Beyond the width a signed number has nothing but its sign. -/
theorem signed_ediv {n x k : ℕ} (h : x < 2 ^ n) (le : n ≤ k + 1) :
    signed n x / 2 ^ k = if 2 * x < 2 ^ n then 0 else -1 := by
  have power : (2 : ℤ) ^ n ≤ 2 ^ k * 2 := by
    rw [← pow_succ]
    exact pow_le_pow_right₀ (by decide) le
  have small : (x : ℤ) < 2 ^ n := by exact_mod_cast h
  unfold signed
  split
  case isTrue low =>
    have low : 2 * (x : ℤ) < 2 ^ n := by exact_mod_cast low
    exact Int.ediv_eq_zero_of_lt (by positivity) (by omega)
  case isFalse high =>
    have high : (2 : ℤ) ^ n ≤ 2 * x := by exact_mod_cast Nat.le_of_not_lt high
    rw [Int.ediv_eq_iff_of_pos (by positivity)]
    omega

/-- A shift of a signed number stops at the sign. -/
theorem signed_ediv_min {n x k : ℕ} (pos : 0 < n) (h : x < 2 ^ n) :
    signed n x / 2 ^ min k (n - 1) = signed n x / 2 ^ k := by
  rcases Nat.le_total k (n - 1) with le | ge
  · rw [Nat.min_eq_left le]
  · rw [Nat.min_eq_right ge, signed_ediv h (by omega), signed_ediv h (by omega)]

/-- The bits of a signed word are its number. -/
theorem modEq_toUInt64 (x : Int64) : (x.toUInt64.toNat : ℤ) ≡ x.toInt [ZMOD 2 ^ 64] := by
  rw [← UInt64.toNat_toBitVec, Int64.toBitVec_toUInt64, ← Int64.toInt_toBitVec,
    BitVec.toInt_eq_toNat_bmod]
  exact Int.bmod_emod.symm

theorem toNat_lt_of_not_le (h : ¬bits ≤ right) : right.toNat < bits.toNat :=
  Nat.lt_of_not_le (mt UInt64.le_iff_toNat_le.mpr h)

theorem toNat_sub_one (pos : 0 < bits.toNat) : (bits - 1).toNat = bits.toNat - 1 :=
  UInt64.toNat_sub_of_le _ _ (UInt64.le_iff_toNat_le.mpr pos)

/-- A difference that would be below zero has wrapped around. -/
theorem modEq_sub (x y : UInt64) : ((x - y).toNat : ℤ) ≡ x.toNat - y.toNat [ZMOD 2 ^ 64] := by
  have wrapped : ((2 ^ 64 - y.toNat + x.toNat : ℕ) : ℤ) = x.toNat - y.toNat + 2 ^ 64 := by
    push_cast [Nat.le_of_lt y.toNat_lt]
    ring
  rw [UInt64.toNat_sub, Int.natCast_mod, wrapped]
  push_cast
  exact (Int.mod_modEq _ _).trans (Int.add_modEq_right ..)

/-- Bits beyond the width are set in the complement of a word, and so they are cut off. -/
theorem modEq_not {n : ℕ} (le : n ≤ 64) (x : UInt64) :
    ((~~~x).toNat : ℤ) ≡ 2 ^ n - 1 - x.toNat [ZMOD 2 ^ n] := by
  have := x.toNat_lt
  have complement : ((~~~x).toNat : ℤ) = 2 ^ 64 - 1 - x.toNat := by
    rw [UInt64.toNat_not, UInt64.size]
    push_cast [show x.toNat ≤ 18446744073709551616 - 1 by omega]
    norm_num
  rw [complement, Int.modEq_iff_dvd]
  have : (2 : ℤ) ^ n ∣ 2 ^ n - 2 ^ 64 := dvd_sub dvd_rfl (pow_dvd_pow 2 le)
  convert this using 1
  ring

/-- A shift to the left, the shifts that lose every bit included. -/
theorem modEq_shl (le : bits.toNat ≤ 64) :
    ((if bits ≤ right then 0 else left <<< right).toNat : ℤ) ≡
      left.toNat * 2 ^ right.toNat [ZMOD 2 ^ bits.toNat] := by
  split
  case isTrue beyond =>
    have beyond : bits.toNat ≤ right.toNat := UInt64.le_iff_toNat_le.mp beyond
    exact (Int.modEq_zero_iff_dvd.mpr ((pow_dvd_pow 2 beyond).mul_left _)).symm
  case isFalse within =>
    have amount : right.toNat % 64 = right.toNat :=
      Nat.mod_eq_of_lt ((toNat_lt_of_not_le within).trans_le le)
    refine modEq_of_wrapped le ?_
    rw [UInt64.toNat_shiftLeft, amount, Nat.shiftLeft_eq]
    push_cast
    exact Int.mod_modEq _ _

/-- A shift to the right, the shifts that lose every bit included. -/
theorem toNat_shr (le : bits.toNat ≤ 64) (hl : left.toNat < 2 ^ bits.toNat) :
    (if bits ≤ right then 0 else left >>> right).toNat = left.toNat / 2 ^ right.toNat := by
  split
  case isTrue beyond =>
    have beyond : bits.toNat ≤ right.toNat := UInt64.le_iff_toNat_le.mp beyond
    rw [Nat.div_eq_of_lt (hl.trans_le (Nat.pow_le_pow_right (by decide) beyond))]
    rfl
  case isFalse within =>
    have amount : right.toNat % 64 = right.toNat :=
      Nat.mod_eq_of_lt ((toNat_lt_of_not_le within).trans_le le)
    rw [UInt64.toNat_shiftRight, amount, Nat.shiftRight_eq_div_pow]

/-- The sign is repeated by a shift of fewer bits than there are. -/
theorem toInt_sar (pos : 0 < bits.toNat) (le : bits.toNat ≤ 64)
    (hl : left.toNat < 2 ^ bits.toNat) :
    (signExtend bits left >>> (min right (bits - 1)).toInt64).toInt =
      signed bits.toNat left.toNat / 2 ^ right.toNat := by
  have amount : (min right (bits - 1)).toNat = min right.toNat (bits.toNat - 1) := by
    rw [UInt64.toNat_min, toNat_sub_one pos]
  rw [toInt_shiftRight _ (by omega), toInt_signExtend pos le hl, amount, signed_ediv_min pos hl]

/-- The words that an operator works with are the numbers that it is to work with, up to the
width. -/
theorem modEq_compute {op : Operator} (pos : 0 < bits.toNat) (le : bits.toNat ≤ 64)
    (hl : left.toNat < 2 ^ bits.toNat) (h : op.compute bits left right = .ok value) :
    (value.toNat : ℤ) ≡ op.exact bits.toNat left.toNat right.toNat [ZMOD 2 ^ bits.toNat] := by
  cases op with
  | add =>
    obtain rfl := Except.ok.inj h
    refine modEq_of_wrapped le ?_
    rw [UInt64.toNat_add, exact]
    push_cast
    exact Int.mod_modEq _ _
  | sub =>
    obtain rfl := Except.ok.inj h
    exact modEq_of_wrapped le (modEq_sub left right)
  | mul =>
    obtain rfl := Except.ok.inj h
    refine modEq_of_wrapped le ?_
    rw [UInt64.toNat_mul, exact]
    push_cast
    exact Int.mod_modEq _ _
  | div =>
    rw [compute] at h
    split at h <;> cases h
    rw [UInt64.toNat_div, exact]
  | mod =>
    rw [compute] at h
    split at h <;> cases h
    rw [UInt64.toNat_mod, exact]
  | and =>
    obtain rfl := Except.ok.inj h
    rw [UInt64.toNat_and, exact]
  | or =>
    obtain rfl := Except.ok.inj h
    rw [UInt64.toNat_or, exact]
  | xor =>
    obtain rfl := Except.ok.inj h
    rw [UInt64.toNat_xor, exact]
  | shl =>
    obtain rfl := Except.ok.inj h
    exact modEq_shl le
  | shr =>
    obtain rfl := Except.ok.inj h
    rw [toNat_shr le hl, exact]
  | sar =>
    obtain rfl := Except.ok.inj h
    refine modEq_of_wrapped le ((modEq_toUInt64 _).trans ?_)
    rw [toInt_sar pos le hl, exact]
  | neg =>
    obtain rfl := Except.ok.inj h
    refine modEq_of_wrapped le ((modEq_sub 0 left).trans ?_)
    rw [exact, UInt64.toNat_zero, Nat.cast_zero, zero_sub]
  | not =>
    obtain rfl := Except.ok.inj h
    exact modEq_not le left

end

/-! ## Results -/

/-- What an operator makes of two bits in one place, if places do not depend on each other. -/
def bitwise : Operator → Option (Bool → Bool → Bool)
  | and => some Bool.and
  | or => some Bool.or
  | xor => some Bool.xor
  | not => some fun x _ => !x
  | _ => none

/-- `value` is what `op` yields for operands of `n` bits. -/
structure Yields (op : Operator) (n left right value : ℕ) : Prop where
  /-- The number is the one that the operation has without any bound, reduced to `n` bits. -/
  number : (value : ℤ) = op.exact n left right % 2 ^ n
  below : value < 2 ^ n
  /-- Shifts by `n` or more lose every bit. -/
  lost : n ≤ right → op = shl ∨ op = shr → value = 0
  /-- The shift that repeats the sign leaves all bits as the sign. -/
  sign : n ≤ right → op = sar → value = if left.testBit (n - 1) then 2 ^ n - 1 else 0
  bits : ∀ f, op.bitwise = some f → ∀ i < n, value.testBit i = f (left.testBit i) (right.testBit i)

section

variable {op : Operator} {n left right value : ℕ}

/-- The sign is the top bit. -/
theorem testBit_top (pos : 0 < n) (h : left < 2 ^ n) :
    left.testBit (n - 1) = true ↔ ¬2 * left < 2 ^ n := by
  obtain ⟨m, rfl⟩ : ∃ m, n = m + 1 := ⟨n - 1, by omega⟩
  rw [pow_succ] at h
  rw [Nat.add_sub_cancel, pow_succ]
  constructor
  · intro top
    have := Nat.ge_two_pow_of_testBit top
    omega
  · intro high
    exact Nat.testBit_of_two_pow_le_and_two_pow_add_one_gt (by omega) (by rw [pow_succ]; omega)

theorem exact_bits {f : Bool → Bool → Bool} (h : op.bitwise = some f) (hl : left < 2 ^ n)
    (number : (value : ℤ) = op.exact n left right % 2 ^ n) {i : ℕ} (hi : i < n) :
    value.testBit i = f (left.testBit i) (right.testBit i) := by
  -- The number that is reduced is no less than zero, so that bits below `n` stay.
  have reduced : ∀ x : ℕ, op.exact n left right = x → value.testBit i = x.testBit i := by
    intro x eq
    have : value = x % 2 ^ n := by
      rw [eq] at number
      exact_mod_cast number
    rw [this, Nat.testBit_mod_two_pow, decide_eq_true hi, Bool.true_and]
  cases op <;> cases h
  case and => rw [reduced _ rfl, Nat.testBit_and]
  case or => rw [reduced _ rfl, Nat.testBit_or]
  case xor => rw [reduced _ rfl, Nat.testBit_xor]
  case not =>
    have complement : not.exact n left right = (2 ^ n - (left + 1) : ℕ) := by
      rw [exact]
      push_cast [Nat.succ_le_of_lt hl]
      ring
    rw [reduced _ complement, Nat.testBit_two_pow_sub_succ hl, decide_eq_true hi, Bool.true_and]

/-- All that is known of a value follows from its number. -/
theorem yields_of_number (pos : 0 < n) (hl : left < 2 ^ n)
    (number : (value : ℤ) = op.exact n left right % 2 ^ n) : op.Yields n left right value where
  number := number
  below := by
    have : (value : ℤ) < 2 ^ n := number ▸ Int.emod_lt_of_pos _ (by positivity)
    exact_mod_cast this
  lost beyond shift := by
    have zero : op.exact n left right % 2 ^ n = 0 := by
      rcases shift with rfl | rfl
      · exact Int.emod_eq_zero_of_dvd ((pow_dvd_pow 2 beyond).mul_left _)
      · rw [exact, Nat.div_eq_of_lt (hl.trans_le (Nat.pow_le_pow_right (by decide) beyond))]
        rfl
    rw [zero] at number
    exact_mod_cast number
  sign beyond shift := by
    subst shift
    rw [exact, signed_ediv hl (by omega)] at number
    simp only [testBit_top pos hl, ite_not]
    split at number
    case isTrue low =>
      rw [if_pos low]
      exact_mod_cast number
    case isFalse high =>
      have all : (-1 : ℤ) % 2 ^ n = (2 ^ n - 1 : ℕ) := by
        have large : (1 : ℤ) < 2 ^ n := one_lt_pow₀ (by decide) (by omega)
        rw [← Int.add_emod_right, Int.emod_eq_of_lt (by omega) (by omega)]
        push_cast [Nat.one_le_two_pow (n := n)]
        ring
      rw [if_neg high]
      exact_mod_cast number.trans all
  bits _ h _ hi := exact_bits h hl number hi

end

/-- Operand number `i`, reduced to the width. An operand that is missing counts as zero. -/
def operand (operands : List UInt64) (width : UInt8) (i : ℕ) : ℕ :=
  (operands.getD i 0).toNat % 2 ^ Width.size width

/-- A quotient or remainder by zero. -/
def ByZero (op : Operator) (right : ℕ) : Prop := (op = div ∨ op = mod) ∧ right = 0

/-- What an operator makes of `operands` at `width` bytes. -/
structure Computes (op : Operator) (operands : List UInt64) (width : UInt8) : Prop where
  malformed : (∃ cause, op.apply operands width = .error (.malformed cause)) ↔
    operands.length ≠ op.arity ∨ width = 0
  evaluation : (∃ cause, op.apply operands width = .error (.evaluation cause)) ↔
    operands.length = op.arity ∧ width ≠ 0 ∧ op.ByZero (operand operands width 1)
  yields : operands.length = op.arity → width ≠ 0 → ¬op.ByZero (operand operands width 1) →
    ∃ value, op.apply operands width = .ok value ∧
      op.Yields (Width.size width) (operand operands width 0) (operand operands width 1)
        value.toNat
  commutes : op.isCommutative = true → ∀ x y, operands = [x, y] →
    op.apply [y, x] width = op.apply operands width

section

variable {op : Operator} {operands : List UInt64} {width : UInt8}

theorem toNat_operand (i : ℕ) :
    (Width.truncate width (operands.getD i 0)).toNat = operand operands width i :=
  Width.toNat_truncate ..

/-- Operands fail an operator just where it would divide by zero. -/
theorem compute_cases (op : Operator) (bits left right : UInt64) :
    (op.ByZero right.toNat ∧ ∃ cause, op.compute bits left right = .error cause) ∨
      (¬op.ByZero right.toNat ∧ ∃ value, op.compute bits left right = .ok value) := by
  have zero : right = 0 ↔ right.toNat = 0 := UInt64.toNat_inj.symm
  cases op with
  | div | mod =>
    by_cases h : right = 0
    · exact .inl ⟨⟨by simp, zero.mp h⟩, _, if_pos h⟩
    · exact .inr ⟨fun byZero => h (zero.mpr byZero.2), _, if_neg h⟩
  | _ => exact .inr ⟨fun byZero => by simp [ByZero] at byZero, _, rfl⟩

/-- Application with the right number of operands and a width, cut to that width before and
after. -/
theorem apply_cases (count : operands.length = op.arity) (wide : width ≠ 0) :
    (op.ByZero (operand operands width 1) ∧
      ∃ cause, op.apply operands width = .error (.evaluation cause)) ∨
    (¬op.ByZero (operand operands width 1) ∧ ∃ value, op.apply operands width = .ok value ∧
      op.Yields (Width.size width) (operand operands width 0) (operand operands width 1)
        value.toNat) := by
  have reduced : ∀ i, operand operands width i < 2 ^ Width.size width := fun i =>
    Nat.mod_lt _ (by positivity)
  have pos := Width.size_pos wide
  simp only [apply, count, wide, ne_eq, not_true_eq_false, if_false]
  rw [← toNat_operand 1]
  rcases compute_cases op (Width.bits width) (Width.truncate width (operands.getD 0 0))
      (Width.truncate width (operands.getD 1 0)) with ⟨byZero, cause, eq⟩ | ⟨fine, value, eq⟩
  · rw [eq]
    exact .inl ⟨byZero, cause, rfl⟩
  · have close := modEq_compute (by rwa [Width.toNat_bits])
      (by rw [Width.toNat_bits]; exact Width.size_le width)
      (by rw [toNat_operand, Width.toNat_bits]; exact reduced 0) eq
    rw [eq]
    refine .inr ⟨fine, _, rfl, yields_of_number pos ?_ ?_⟩
    · exact reduced 0
    · rw [Width.toNat_bits, toNat_operand] at close
      rw [Width.toNat_truncate]
      exact_mod_cast close

theorem apply_malformed (illegal : operands.length ≠ op.arity ∨ width = 0) :
    ∃ cause, op.apply operands width = .error (.malformed cause) := by
  by_cases count : operands.length = op.arity
  · have zero := illegal.resolve_left (not_not.mpr count)
    exact ⟨.zeroWidth op, (if_neg (not_not.mpr count)).trans (if_pos zero)⟩
  · exact ⟨.valueCount op operands.length, if_pos count⟩

theorem computes (op : Operator) (operands : List UInt64) (width : UInt8) :
    op.Computes operands width := by
  have comm : op.isCommutative = true → ∀ x y, operands = [x, y] →
      op.apply [y, x] width = op.apply operands width := by
    rintro swaps x y rfl
    exact apply_comm swaps y x width
  by_cases illegal : operands.length ≠ op.arity ∨ width = 0
  case pos =>
    obtain ⟨cause, eq⟩ := apply_malformed illegal
    exact {
      malformed := ⟨fun _ => illegal, fun _ => ⟨cause, eq⟩⟩
      evaluation := by
        rw [eq]
        refine ⟨fun h => by simp at h, fun ⟨count, wide, _⟩ => ?_⟩
        exact (illegal.elim (· count) wide).elim
      yields := fun count wide => (illegal.elim (· count) wide).elim
      commutes := comm }
  case neg =>
    obtain ⟨count, wide⟩ := not_or.mp illegal
    have count := not_not.mp count
    rcases apply_cases count wide with ⟨byZero, cause, eq⟩ | ⟨fine, value, eq, yields⟩
    · exact {
        malformed := ⟨fun h => by simp [eq] at h, fun h => (illegal h).elim⟩
        evaluation := ⟨fun _ => ⟨count, wide, byZero⟩, fun _ => ⟨cause, eq⟩⟩
        yields := fun _ _ fine => (fine byZero).elim
        commutes := comm }
    · exact {
        malformed := ⟨fun h => by simp [eq] at h, fun h => (illegal h).elim⟩
        evaluation := ⟨fun h => by simp [eq] at h, fun h => (fine h.2.2).elim⟩
        yields := fun _ _ _ => ⟨value, eq, yields⟩
        commutes := comm }

end

/-! ## Ranges -/

/-- A difference of words that may not be below zero. -/
def checkedSub (x y : UInt64) : Option UInt64 := if y ≤ x then some (x - y) else none

/-- A shift to the left that may not be by 64 or more. -/
def checkedShl (x amount : UInt64) : Option UInt64 :=
  if amount < 64 then some (x <<< amount) else none

/-- A shift to the right that may not be by 64 or more. -/
def checkedShr (x amount : UInt64) : Option UInt64 :=
  if amount < 64 then some (x >>> amount) else none

/-- A shift to the right that repeats the sign and may not be by 64 or more. -/
def checkedSar (x : Int64) (amount : UInt64) : Option Int64 :=
  if amount < 64 then some (x >>> amount.toInt64) else none

/-- `Width.mask` in steps that may not leave their range. -/
def checkedMask (width : UInt8) : Option UInt64 :=
  if 8 ≤ width then some 0xffffffffffffffff
  else do
    let power ← checkedShl 1 (Width.bits width)
    checkedSub power 1

/-- `signExtend` in steps that may not leave their range. -/
def checkedSignExtend (bits word : UInt64) : Option Int64 := do
  let amount ← checkedSub 64 bits
  let high ← checkedShl word amount
  checkedSar high.toInt64 amount

/-- `compute` in steps that may not leave their range. Sums, products, differences and negations of
words wrap around and have no range to leave. -/
def checkedCompute (op : Operator) (bits left right : UInt64) :
    Option (Except EvaluationError UInt64) :=
  match op with
  | shl => .ok <$> if bits ≤ right then some 0 else checkedShl left right
  | shr => .ok <$> if bits ≤ right then some 0 else checkedShr left right
  | sar => do
    let signed ← checkedSignExtend bits left
    let last ← checkedSub bits 1
    let shifted ← checkedSar signed (min right last)
    return .ok shifted.toUInt64
  | _ => some (op.compute bits left right)

/-- `apply` in steps that may not leave their range: nothing is yielded as soon as one does. -/
def checkedApply (op : Operator) (operands : List UInt64) (width : UInt8) :
    Option (Except Error UInt64) :=
  if operands.length ≠ op.arity then some (.error (.malformed (.valueCount op operands.length)))
  else if width = 0 then some (.error (.malformed (.zeroWidth op)))
  else do
    let mask ← checkedMask width
    let result ← op.checkedCompute (Width.bits width) (operands.getD 0 0 &&& mask)
      (operands.getD 1 0 &&& mask)
    match result with
    | .ok value => return .ok (value &&& mask)
    | .error cause => return .error (.evaluation cause)

section

variable {bits left right : UInt64} {width : UInt8}

theorem checkedSub_eq {x y : UInt64} (h : y.toNat ≤ x.toNat) : checkedSub x y = some (x - y) :=
  if_pos (UInt64.le_iff_toNat_le.mpr h)

theorem checkedShl_eq {x amount : UInt64} (h : amount.toNat < 64) :
    checkedShl x amount = some (x <<< amount) :=
  if_pos (UInt64.lt_iff_toNat_lt.mpr h)

theorem checkedShr_eq {x amount : UInt64} (h : amount.toNat < 64) :
    checkedShr x amount = some (x >>> amount) :=
  if_pos (UInt64.lt_iff_toNat_lt.mpr h)

theorem checkedSar_eq {x : Int64} {amount : UInt64} (h : amount.toNat < 64) :
    checkedSar x amount = some (x >>> amount.toInt64) :=
  if_pos (UInt64.lt_iff_toNat_lt.mpr h)

theorem checkedMask_eq (width : UInt8) : checkedMask width = some (Width.mask width) := by
  unfold checkedMask Width.mask
  split
  case isTrue => rfl
  case isFalse small =>
    have small : width.toNat < 8 := by simpa [UInt8.le_iff_toNat_le] using small
    have lt : (Width.bits width).toNat < 64 := by
      rw [Width.toNat_bits, Width.size]
      omega
    have shifted := Width.toNat_one_shiftLeft lt
    rw [checkedShl_eq lt, Option.bind_eq_bind, Option.bind_some]
    refine checkedSub_eq ?_
    rw [shifted]
    exact Nat.one_le_two_pow

theorem checkedSignExtend_eq (pos : 0 < bits.toNat) (le : bits.toNat ≤ 64) (word : UInt64) :
    checkedSignExtend bits word = some (signExtend bits word) := by
  have amount : (64 - bits).toNat = 64 - bits.toNat :=
    UInt64.toNat_sub_of_le _ _ (UInt64.le_iff_toNat_le.mpr le)
  have lt : (64 - bits).toNat < 64 := by omega
  rw [checkedSignExtend, checkedSub_eq le, Option.bind_eq_bind, Option.bind_some, checkedShl_eq lt]
  exact checkedSar_eq lt

theorem checkedCompute_eq (op : Operator) (pos : 0 < bits.toNat) (le : bits.toNat ≤ 64)
    (left right : UInt64) :
    op.checkedCompute bits left right = some (op.compute bits left right) := by
  have within : ¬bits ≤ right → right.toNat < 64 := fun h => (toNat_lt_of_not_le h).trans_le le
  cases op with
  | shl =>
    rw [checkedCompute, compute]
    split
    case isTrue => rfl
    case isFalse h => rw [checkedShl_eq (within h)]; rfl
  | shr =>
    rw [checkedCompute, compute]
    split
    case isTrue => rfl
    case isFalse h => rw [checkedShr_eq (within h)]; rfl
  | sar =>
    have lt : (min right (bits - 1)).toNat < 64 := by
      rw [UInt64.toNat_min, toNat_sub_one pos]
      omega
    have difference : checkedSub bits 1 = some (bits - 1) := checkedSub_eq pos
    rw [checkedCompute, checkedSignExtend_eq pos le, difference, Option.bind_eq_bind,
      Option.bind_some, Option.bind_eq_bind, Option.bind_some, checkedSar_eq lt]
    rfl
  | _ => rfl

end

/-- No step of an application leaves its range. -/
theorem checkedApply_eq (op : Operator) (operands : List UInt64) (width : UInt8) :
    op.checkedApply operands width = some (op.apply operands width) := by
  unfold checkedApply apply
  split
  case isTrue => rfl
  case isFalse =>
    split
    case isTrue => rfl
    case isFalse wide =>
      rw [checkedMask_eq, Option.bind_eq_bind, Option.bind_some,
        checkedCompute_eq op (by rw [Width.toNat_bits]; exact Width.size_pos wide)
          (by rw [Width.toNat_bits]; exact Width.size_le width)]
      rw [Option.bind_eq_bind, Option.bind_some]
      simp only [Width.truncate]
      cases op.compute (Width.bits width) (operands.getD 0 0 &&& Width.mask width)
        (operands.getD 1 0 &&& Width.mask width) <;> rfl

/-- An operator computes with numbers of the width's bits, exactly, and no shift or difference on
the way leaves the range of its words. -/
theorem apply_exact (op : Operator) (operands : List UInt64) (width : UInt8) :
    op.Computes operands width ∧
      op.checkedApply operands width = some (op.apply operands width) :=
  ⟨computes op operands width, checkedApply_eq op operands width⟩

/-- Four bytes, a negative number and a shift by more than its bits. -/
example : (sar.apply [0x80000000, 200] 4).toOption = some 0xffffffff := by decide

end Operator

end Lifted
