import LetTyping.Text.Alphabetic
import LetTyping.Text.Blank
import LetTyping.Text.Numeric

/-!
# The characters of words

Which characters are alphabetic and which are numeric changes from one version of Unicode to the
next, as characters are added.  What does not change is that among the first 128 characters these
are the letters and the digits, and that no blank character is one of them.  Nothing else about the
characters of words matters for reading a text, so the scanner takes any choice with these
properties.

## Main definitions

* `Alphabet` — the alphabetic and the numeric characters.
* `unicode` — those of Unicode 15.0.
-/

namespace LetTyping

/-- A choice of the alphabetic and the numeric characters. -/
class Alphabet where
  /-- Whether a character is alphabetic. -/
  isAlphabetic : Char → Bool
  /-- Whether a character is numeric. -/
  isNumeric : Char → Bool
  isAlphabetic_of_ascii : ∀ c : Char, c.toNat < 128 → isAlphabetic c = c.isAlpha
  isNumeric_of_ascii : ∀ c : Char, c.toNat < 128 → isNumeric c = c.isDigit
  not_isAlphabetic_of_isBlank : ∀ c, isBlank c = true → isAlphabetic c = false
  not_isNumeric_of_isBlank : ∀ c, isBlank c = true → isNumeric c = false

export Alphabet (isAlphabetic isNumeric)

theorem Ranges.exists_of_hasCode {rs : Ranges} {n : Nat} (h : rs.hasCode n = true) :
    ∃ r ∈ rs, r.1 ≤ n ∧ n ≤ r.2 := by
  induction rs with
  | nil => cases h
  | cons r rs ih =>
    unfold hasCode at h
    by_cases hlo : n < r.1
    · simp [hlo] at h
    · by_cases hhi : n ≤ r.2
      · exact ⟨r, by simp, by omega, hhi⟩
      · rw [if_neg hlo, if_neg hhi] at h
        obtain ⟨r', hr', hn⟩ := ih h
        exact ⟨r', List.mem_cons_of_mem r hr', hn⟩

/-- Blank characters lie in none of the ranges, if each of the few code points that are blank lies
in none of them. -/
theorem Ranges.has_of_isBlank {rs : Ranges}
    (hnone : ∀ r ∈ blanks, ∀ k < r.2 - r.1 + 1, rs.hasCode (r.1 + k) = false) (c : Char)
    (h : isBlank c = true) : rs.has c = false := by
  obtain ⟨r, hr, hlo, hhi⟩ := exists_of_hasCode h
  have hcode := hnone r hr (c.toNat - r.1) (by omega)
  rwa [Nat.add_sub_cancel' hlo] at hcode

theorem isAlpha_eq (c : Char) : c.isAlpha =
    (decide (65 ≤ c.toNat ∧ c.toNat ≤ 90) || decide (97 ≤ c.toNat ∧ c.toNat ≤ 122)) := by
  change (decide (65 ≤ c.toNat ∧ c.toNat ≤ 90) ||
    (decide (97 ≤ c.toNat) && decide (c.toNat ≤ 122))) = _
  rw [Bool.decide_and (97 ≤ c.toNat)]

theorem isDigit_eq (c : Char) : c.isDigit = decide (48 ≤ c.toNat ∧ c.toNat ≤ 57) := by
  change (decide (48 ≤ c.toNat) && decide (c.toNat ≤ 57)) = _
  rw [Bool.decide_and]

/-- The alphabetic and the numeric characters of Unicode 15.0. -/
instance unicode : Alphabet where
  isAlphabetic := alphabetic.has
  isNumeric := numeric.has
  isAlphabetic_of_ascii c hc := by
    have hcode : ∀ n < 128, alphabetic.hasCode n =
        (decide (65 ≤ n ∧ n ≤ 90) || decide (97 ≤ n ∧ n ≤ 122)) := by decide +kernel
    rw [isAlpha_eq, ← hcode c.toNat hc, Ranges.has]
  isNumeric_of_ascii c hc := by
    have hcode : ∀ n < 128, numeric.hasCode n = decide (48 ≤ n ∧ n ≤ 57) := by decide +kernel
    rw [isDigit_eq, ← hcode c.toNat hc, Ranges.has]
  not_isAlphabetic_of_isBlank := Ranges.has_of_isBlank (by decide +kernel)
  not_isNumeric_of_isBlank := Ranges.has_of_isBlank (by decide +kernel)

end LetTyping
