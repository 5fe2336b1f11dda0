/-
# Decimal numerals

Numbers are read the way fixed-width integer types read them: an optional sign, at least one
digit and nothing else, and a value that fits.  They are written without leading zeros, or
padded with them to a width, and what is written is read back.
-/
import Mathlib.Data.Nat.Digits.Defs

namespace RemoteClient
namespace Numerals

/-! ## Reading -/

/-- The number a row of decimal digits writes. -/
def parseDigits (s : List Char) : Option ℕ :=
  if s ≠ [] ∧ s.all Char.isDigit then some (Nat.ofDigitChars 10 s 0) else none

/-- An unsigned number below `bound`. -/
def parseUnsigned (bound : ℕ) (s : List Char) : Option ℕ :=
  (parseDigits (if s.head? = some '+' then s.tail else s)).filter fun n => n < bound

/-- A signed number from `-bound` to below `bound`. -/
def parseSigned (bound : ℕ) (s : List Char) : Option ℤ :=
  if s.head? = some '-' then
    ((parseDigits s.tail).filter fun n => n ≤ bound).map fun n => -(n : ℤ)
  else (parseUnsigned bound s).map fun n => (n : ℤ)

/-! ## Writing -/

/-- A number in at least `width` digits. -/
def padded (width n : ℕ) : List Char :=
  List.replicate (width - (Nat.toDigits 10 n).length) '0' ++ Nat.toDigits 10 n

/-- A number in at least `width` characters, the sign among them. -/
def paddedInt (width : ℕ) (n : ℤ) : List Char :=
  if n < 0 then '-' :: padded (width - 1) n.natAbs else padded width n.natAbs

/-! ## What is written is read back -/

/-- The characters of a numeral are digits. -/
lemma mem_toDigits {b : ℕ} (hb : 1 < b) {n : ℕ} {c : Char} (hc : c ∈ Nat.toDigits b n) :
    ∃ d < b, c = d.digitChar := by
  induction n using Nat.strongRecOn with
  | _ n ih =>
    rw [Nat.toDigits_eq_if hb] at hc
    split at hc
    · next hlt => exact ⟨n, hlt, List.mem_singleton.mp hc⟩
    · next hge =>
      rcases List.mem_append.mp hc with hc | hc
      · exact ih (n / b) (Nat.div_lt_self (by omega) hb) hc
      · exact ⟨n % b, Nat.mod_lt _ (by omega), List.mem_singleton.mp hc⟩

lemma all_isDigit_toDigits (n : ℕ) : (Nat.toDigits 10 n).all Char.isDigit = true := by
  rw [List.all_eq_true]
  exact fun c hc => Nat.isDigit_of_mem_toDigits (by decide) le_rfl hc

lemma parseDigits_toDigits (n : ℕ) : parseDigits (Nat.toDigits 10 n) = some n := by
  rw [parseDigits, if_pos ⟨Nat.toDigits_ne_nil, all_isDigit_toDigits n⟩,
    Nat.ofDigitChars_ten_toDigits]

/-- A numeral has no sign. -/
lemma head?_toDigits {c : Char} (hc : c.isDigit = false) (n : ℕ) :
    (Nat.toDigits 10 n).head? ≠ some c := by
  intro h
  have hdigit := Nat.isDigit_of_mem_toDigits (by decide) le_rfl (List.mem_of_head? h)
  rw [hc] at hdigit
  exact absurd hdigit (by decide)

lemma parseUnsigned_toDigits {bound n : ℕ} (h : n < bound) :
    parseUnsigned bound (Nat.toDigits 10 n) = some n := by
  rw [parseUnsigned, if_neg (head?_toDigits (by decide) n), parseDigits_toDigits,
    Option.filter_some, if_pos (decide_eq_true h)]

lemma parseDigits_padded (width n : ℕ) : parseDigits (padded width n) = some n := by
  have hdigits : (padded width n).all Char.isDigit = true := by
    rw [padded, List.all_append, all_isDigit_toDigits, Bool.and_true, List.all_eq_true]
    intro c hc
    rw [List.eq_of_mem_replicate hc]
    decide
  have hne : padded width n ≠ [] := List.append_ne_nil_of_right_ne_nil _ Nat.toDigits_ne_nil
  rw [parseDigits, if_pos ⟨hne, hdigits⟩, padded, Nat.ofDigitChars_append,
    Nat.ofDigitChars_replicate_zero, Nat.mul_zero, Nat.ofDigitChars_ten_toDigits]

lemma padded_inj {width m n : ℕ} (h : padded width m = padded width n) : m = n := by
  have hparse := parseDigits_padded width m
  rw [h, parseDigits_padded] at hparse
  exact (Option.some.inj hparse).symm

/-- A number that fits is padded to the width. -/
lemma length_padded {width n : ℕ} (hwidth : 0 < width) (h : n < 10 ^ width) :
    (padded width n).length = width := by
  have hle := (Nat.length_toDigits_le_iff (by decide) hwidth).mpr h
  rw [padded, List.length_append, List.length_replicate]
  omega

lemma head?_padded {c : Char} (hc : c.isDigit = false) (width n : ℕ) :
    (padded width n).head? ≠ some c := by
  intro h
  rcases List.mem_append.mp (List.mem_of_head? h) with hzero | hdigit
  · rw [List.eq_of_mem_replicate hzero] at hc
    exact absurd hc (by decide)
  · have := Nat.isDigit_of_mem_toDigits (by decide) le_rfl hdigit
    rw [hc] at this
    exact absurd this (by decide)

lemma paddedInt_inj {width : ℕ} {m n : ℤ} (h : paddedInt width m = paddedInt width n) : m = n := by
  have hsign : ∀ (w a v b : ℕ), '-' :: padded w a ≠ padded v b := by
    intro w a v b heq
    have hhead : (padded v b).head? = some '-' := by
      rw [← heq]
      rfl
    exact head?_padded (by decide) v b hhead
  unfold paddedInt at h
  split at h
  · split at h
    · have := padded_inj (List.cons.inj h).2
      omega
    · exact absurd h (hsign _ _ _ _)
  · split at h
    · exact absurd h.symm (hsign _ _ _ _)
    · have := padded_inj h
      omega

end Numerals
end RemoteClient
