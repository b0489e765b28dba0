import Lifted.Proofs.Text.Hex
import Mathlib.Logic.Function.Basic

/-!
# Texts in the order of numbers

Texts are compared byte by byte. Numbers that are padded to one length are in the order of their
texts, and so are lists of what is written in one length, also lists of different lengths.

* `append_lt_append_iff`: of lists that begin with parts of one length these parts decide first.
* `flatMap_lt_flatMap_iff`: lists in a code with words of one length are in the order of the lists
  themselves, if the words are in the order of what they stand for.
* `utf8`: the bytes of a text.
* `Hex.utf8_padded_lt_iff`: padded numbers are in the order of the numbers.
-/

namespace Lifted

/-! ## Lexicographic order -/

section

variable {α β : Type} [LT α] [LT β]

theorem append_lt_append_iff {u v x y : List α} (len : u.length = v.length) :
    u ++ x < v ++ y ↔ u < v ∨ u = v ∧ x < y := by
  induction u generalizing v with
  | nil =>
    obtain rfl := List.eq_nil_of_length_eq_zero len.symm
    simp
  | cons a u ih =>
    cases v with
    | nil => cases len
    | cons b v =>
      rw [List.cons_append, List.cons_append, List.cons_lt_cons_iff, ih (Nat.succ.inj len),
        List.cons_lt_cons_iff, List.cons.injEq, and_or_left, ← or_assoc, ← and_assoc]

/-- What keeps the order tells apart. -/
theorem eq_iff_of_lt_iff [Std.Trichotomous (α := α) (· < ·)] [Std.Irrefl (α := β) (· < ·)]
    {f : α → β} {a b : α} (lt : f a < f b ↔ a < b) (gt : f b < f a ↔ b < a) :
    f a = f b ↔ a = b := by
  constructor
  · intro same
    refine Std.Trichotomous.trichotomous (r := (· < ·)) a b (fun h => ?_) fun h => ?_
    · exact Std.Irrefl.irrefl (r := (· < ·)) (f b) (same ▸ lt.mpr h)
    · exact Std.Irrefl.irrefl (r := (· < ·)) (f b) (same ▸ gt.mpr h)
  · rintro rfl
    rfl

/-- A code with words of one length keeps the order of lists. A list that goes on is larger, since
no word is empty. -/
theorem flatMap_lt_flatMap_iff {code : α → List β} {n : Nat} (length : ∀ a, (code a).length = n + 1)
    (lt : ∀ a b, code a < code b ↔ a < b) (inj : Function.Injective code) (xs ys : List α) :
    xs.flatMap code < ys.flatMap code ↔ xs < ys := by
  induction xs generalizing ys with
  | nil =>
    cases ys with
    | nil => simp
    | cons y ys =>
      obtain ⟨b, word, hb⟩ := List.exists_cons_of_length_eq_add_one (length y)
      simp [hb]
  | cons x xs ih =>
    cases ys with
    | nil => simp
    | cons y ys =>
      rw [List.flatMap_cons, List.flatMap_cons,
        append_lt_append_iff ((length x).trans (length y).symm), lt, inj.eq_iff, ih,
        List.cons_lt_cons_iff]

end

/-! ## Bytes -/

/-- The bytes of a text. -/
def utf8 (s : String) : List UInt8 := s.toUTF8.data.toList

theorem utf8_inj {s t : String} : utf8 s = utf8 t ↔ s = t := by
  rw [utf8, utf8, Array.toList_inj, ← ByteArray.ext_iff]
  exact String.toByteArray_inj

theorem utf8_append (s t : String) : utf8 (s ++ t) = utf8 s ++ utf8 t := by
  simp [utf8]

theorem utf8_join (ss : List String) : utf8 (String.join ss) = ss.flatMap utf8 := by
  induction ss with
  | nil => rfl
  | cons s ss ih => rw [String.join_cons, utf8_append, ih, List.flatMap_cons]

theorem utf8_ofList (cs : List Char) :
    utf8 (String.ofList cs) = cs.flatMap String.utf8EncodeChar := by
  simp [utf8, List.utf8Encode]

/-! ## Padded numbers -/

namespace Hex

theorem length_utf8_digitChar {n : Nat} (h : n < 16) :
    (String.utf8EncodeChar n.digitChar).length = 1 := by
  interval_cases n <;> decide

/-- Letters come after decimal digits, so digits are in the order of what they stand for. -/
theorem utf8_digitChar_lt_iff {m n : Nat} (hm : m < 16) (hn : n < 16) :
    String.utf8EncodeChar m.digitChar < String.utf8EncodeChar n.digitChar ↔ m < n := by
  have each : ∀ m n : Fin 16, String.utf8EncodeChar m.val.digitChar <
      String.utf8EncodeChar n.val.digitChar ↔ m.val < n.val := by decide
  exact each ⟨m, hm⟩ ⟨n, hn⟩

theorem utf8_padded_one {n : Nat} (h : n < 16) :
    utf8 (padded 1 n) = String.utf8EncodeChar n.digitChar := by
  rw [padded, utf8_ofList, digits_eq, if_pos h]
  simp [List.leftpad]

/-- The last digit of a padded number. What stands before it is padded as well, if a place is left
for it. -/
theorem utf8_padded_add_two (k n : Nat) :
    utf8 (padded (k + 2) n) =
      utf8 (padded (k + 1) (n / 16)) ++ String.utf8EncodeChar (n % 16).digitChar := by
  have pad : (digits n).leftpad (k + 2) '0' =
      (digits (n / 16)).leftpad (k + 1) '0' ++ [(n % 16).digitChar] := by
    by_cases small : n < 16
    -- Nothing stands before a single digit: the digit of zero is one of the padding.
    · rw [digits_eq, if_pos small, Nat.div_eq_of_lt small, Nat.mod_eq_of_lt small]
      simp [List.leftpad, digits, List.replicate_succ']
    · rw [digits_eq, if_neg small]
      simp [List.leftpad]
  rw [padded, padded, utf8_ofList, utf8_ofList, pad, List.flatMap_append, List.flatMap_singleton]

theorem div_lt_pow {k n : Nat} (h : n < 16 ^ (k + 1)) : n / 16 < 16 ^ k :=
  Nat.div_lt_of_lt_mul (by omega)

/-- All numbers that need no more places than there are take as many. -/
theorem length_utf8_padded {k n : Nat} (h : n < 16 ^ (k + 1)) :
    (utf8 (padded (k + 1) n)).length = k + 1 := by
  induction k generalizing n with
  | zero => rw [utf8_padded_one h, length_utf8_digitChar h]
  | succ k ih =>
    rw [utf8_padded_add_two, List.length_append, ih (div_lt_pow h),
      length_utf8_digitChar (Nat.mod_lt n (by decide))]

/-- Padded numbers are in the order of the numbers: the digits before the last one decide first. -/
theorem utf8_padded_lt_iff {k m n : Nat} (hm : m < 16 ^ (k + 1)) (hn : n < 16 ^ (k + 1)) :
    utf8 (padded (k + 1) m) < utf8 (padded (k + 1) n) ↔ m < n := by
  induction k generalizing m n with
  | zero => rw [utf8_padded_one hm, utf8_padded_one hn, utf8_digitChar_lt_iff hm hn]
  | succ k ih =>
    have hm' := div_lt_pow hm
    have hn' := div_lt_pow hn
    -- The fronts are padded numbers as well, so they are equal only for equal numbers.
    have front : utf8 (padded (k + 1) (m / 16)) = utf8 (padded (k + 1) (n / 16)) ↔
        m / 16 = n / 16 :=
      eq_iff_of_lt_iff (f := fun n => utf8 (padded (k + 1) n)) (ih hm' hn') (ih hn' hm')
    rw [utf8_padded_add_two, utf8_padded_add_two,
      append_lt_append_iff ((length_utf8_padded hm').trans (length_utf8_padded hn').symm),
      ih hm' hn', front,
      utf8_digitChar_lt_iff (Nat.mod_lt m (by decide)) (Nat.mod_lt n (by decide))]
    omega

end Hex
end Lifted
