import Lifted.Text.Hex
import Mathlib.Tactic.IntervalCases

/-!
# Hexadecimal text reads back

* `Hex.value`: the number that a list of digits stands for.
* `Hex.value_digits`: a number is what its digits stand for, so `Hex.literal_injective`: literals
  tell words apart.
* `Hex.isAlphanum_of_mem_digits`: digits are letters and decimal digits.
-/

namespace Lifted
namespace Hex

/-- The number that a lower-case digit stands for. -/
def digitValue (c : Char) : Nat :=
  if c.isDigit then c.toNat - '0'.toNat else c.toNat - 'a'.toNat + 10

/-- The number that digits stand for, the most significant first. -/
def value (cs : List Char) : Nat := cs.foldl (fun n c => 16 * n + digitValue c) 0

theorem digits_eq (n : Nat) :
    digits n = if n < 16 then [n.digitChar] else digits (n / 16) ++ [(n % 16).digitChar] :=
  Nat.toDigits_eq_if (by decide)

/-- Induction over a number by its digits, the last one taken off. -/
theorem digit_induction {motive : Nat → Prop} (one : ∀ n, n < 16 → motive n)
    (more : ∀ n, 16 ≤ n → motive (n / 16) → motive n) (n : Nat) : motive n := by
  induction n using Nat.strongRecOn with
  | ind n ih =>
    by_cases small : n < 16
    · exact one n small
    · exact more n (by omega) (ih (n / 16) (by omega))

theorem digitValue_digitChar {n : Nat} (h : n < 16) : digitValue n.digitChar = n := by
  interval_cases n <;> decide

theorem isAlphanum_digitChar {n : Nat} (h : n < 16) : n.digitChar.isAlphanum = true := by
  interval_cases n <;> decide

theorem value_digits (n : Nat) : value (digits n) = n := by
  induction n using digit_induction with
  | one n small => rw [digits_eq, if_pos small]; simp [value, digitValue_digitChar small]
  | more n large ih =>
    unfold value at ih ⊢
    rw [digits_eq, if_neg (by omega), List.foldl_append, ih, List.foldl_cons, List.foldl_nil,
      digitValue_digitChar (Nat.mod_lt _ (by decide))]
    omega

theorem digits_injective {m n : Nat} (same : digits m = digits n) : m = n := by
  rw [← value_digits m, same, value_digits]

theorem isAlphanum_of_mem_digits {n : Nat} {c : Char} (hc : c ∈ digits n) :
    c.isAlphanum = true := by
  induction n using digit_induction with
  | one n small =>
    rw [digits_eq, if_pos small, List.mem_singleton] at hc
    rw [hc, isAlphanum_digitChar small]
  | more n large ih =>
    rw [digits_eq, if_neg (by omega), List.mem_append, List.mem_singleton] at hc
    rcases hc with hc | rfl
    · exact ih hc
    · exact isAlphanum_digitChar (Nat.mod_lt _ (by decide))

theorem toList_literal (word : UInt64) :
    (literal word).toList = '0' :: 'x' :: digits word.toNat := by
  simp [literal, text]

theorem literal_injective {v w : UInt64} (same : literal v = literal w) : v = w := by
  have chars := congrArg String.toList same
  rw [toList_literal, toList_literal] at chars
  exact UInt64.toNat_inj.mp (digits_injective (List.cons.inj (List.cons.inj chars).2).2)

end Hex
end Lifted
