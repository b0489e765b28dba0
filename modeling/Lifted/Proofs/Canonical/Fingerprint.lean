import Lifted.Canonical.Ranking
import Lifted.Proofs.Text.Order

/-!
# Fingerprints in the order of their texts

A ranking compares values. It could as well compare their texts, which the journal shows: every
value is written with as many bytes, so that the texts are in the order of the values.

* `Fingerprint.utf8_text`: a text is its tag and a segment for each value.
* `Fingerprint.utf8_text_lt_iff`, `Fingerprint.text_inj`: texts with one tag are in the order of the
  values and tell them apart.
* `Occurrence.le_eq_textLe`, `Occurrence.tied_eq`: a ranking goes by the texts, and a tie is one
  text.
* `Fingerprint.text_embeds`: all of this.
-/

namespace Lifted

namespace Fingerprint

/-- What a value adds to a text. -/
def segment (value : UInt64) : List UInt8 := utf8 (":" ++ Hex.padded 16 value.toNat)

theorem utf8_text (p : Population) (values : List UInt64) :
    utf8 (text ⟨p, values⟩) = utf8 p.tag ++ values.flatMap segment := by
  rw [text, utf8_append, utf8_join, List.flatMap_map]
  rfl

/-- The texts that the journal shows. The second goes on where the first ends. -/
example : text ⟨.register, [0xd3a1f2c4]⟩ = "sym:00000000d3a1f2c4" ∧
    text ⟨.register, [0xd3a1f2c4, 0x10]⟩ = "sym:00000000d3a1f2c4:0000000000000010" := by
  decide

/-- Sixteen digits are enough for every value. -/
theorem toNat_lt_pow (value : UInt64) : value.toNat < 16 ^ (15 + 1) := value.toNat_lt

theorem length_segment (value : UInt64) : (segment value).length = 16 + 1 := by
  rw [segment, utf8_append, List.length_append, Hex.length_utf8_padded (toNat_lt_pow value)]
  rfl

theorem segment_lt_iff (v w : UInt64) : segment v < segment w ↔ v < w := by
  rw [segment, segment, utf8_append, utf8_append, append_lt_append_iff rfl,
    Hex.utf8_padded_lt_iff (toNat_lt_pow v) (toNat_lt_pow w), UInt64.lt_iff_toNat_lt]
  simp

theorem segment_injective : Function.Injective segment := fun v w =>
  (eq_iff_of_lt_iff (segment_lt_iff v w) (segment_lt_iff w v)).mp

theorem utf8_text_lt_iff (p : Population) (vs ws : List UInt64) :
    utf8 (text ⟨p, vs⟩) < utf8 (text ⟨p, ws⟩) ↔ vs < ws := by
  rw [utf8_text, utf8_text, append_lt_append_iff rfl,
    flatMap_lt_flatMap_iff length_segment segment_lt_iff segment_injective]
  simp

theorem text_inj (p : Population) (vs ws : List UInt64) :
    text ⟨p, vs⟩ = text ⟨p, ws⟩ ↔ vs = ws := by
  rw [← utf8_inj]
  exact eq_iff_of_lt_iff (f := fun vs => utf8 (text ⟨p, vs⟩)) (utf8_text_lt_iff p vs ws)
    (utf8_text_lt_iff p ws vs)

end Fingerprint

namespace Occurrence

/-- The text of the fingerprint at an occurrence. -/
def text (p : Population) (o : Occurrence) : String := Fingerprint.text ⟨p, o.values⟩

/-- The order of the texts, and where these are equal that of the placeholders. -/
def textLe (p : Population) (a b : Occurrence) : Bool :=
  decide (utf8 (a.text p) < utf8 (b.text p)) ||
    (a.text p == b.text p && a.placeholder ≤ b.placeholder)

theorem tied_eq (p : Population) (a b : Occurrence) : a.tied b = (a.text p == b.text p) := by
  rw [tied, Bool.eq_iff_iff, beq_iff_eq, beq_iff_eq, text, text, Fingerprint.text_inj]

theorem le_eq_textLe (p : Population) (a b : Occurrence) : a.le b = a.textLe p b := by
  rw [le, textLe, ← tied_eq p a b, text, text,
    decide_eq_decide.mpr (Fingerprint.utf8_text_lt_iff p a.values b.values), tied]

end Occurrence

/-- The texts of fingerprints with one tag are an order embedding of the lists of values: compared
byte by byte they are in the order of the lists, in which values are compared as numbers and a list
comes before those that go on from it, and texts are equal only if the lists are. So it is all one
whether a ranking goes by the values or by the texts, and the texts show which places are tied. -/
theorem Fingerprint.text_embeds (p : Population) :
    (∀ vs ws : List UInt64,
      (utf8 (text ⟨p, vs⟩) < utf8 (text ⟨p, ws⟩) ↔ vs < ws) ∧
        (text ⟨p, vs⟩ = text ⟨p, ws⟩ ↔ vs = ws)) ∧
      ∀ a b : Occurrence, a.le b = a.textLe p b ∧ a.tied b = (a.text p == b.text p) :=
  ⟨fun vs ws => ⟨utf8_text_lt_iff p vs ws, text_inj p vs ws⟩,
    fun a b => ⟨a.le_eq_textLe p b, a.tied_eq p b⟩⟩

end Lifted
