/-
# Base64

Base64 as RFC 4648 has it in section 4, with padding.  Three bytes are four letters of six bits
each; one or two bytes at the end are two or three letters, and equals signs up to four.
`decode` is strict: the bits that a padded group has too many have to be zero, and nothing may
stand behind it.  So every row of bytes has exactly one text (`decode_eq_some_iff`).
-/
import Mathlib.Data.BitVec
import RemoteClient.Lib.Text

namespace RemoteClient
namespace Base64

/-! ## Letters -/

/-- The value of a letter. -/
def value (c : Char) : Option ℕ :=
  if 'A'.toNat ≤ c.toNat ∧ c.toNat ≤ 'Z'.toNat then some (c.toNat - 'A'.toNat)
  else if 'a'.toNat ≤ c.toNat ∧ c.toNat ≤ 'z'.toNat then some (c.toNat - 'a'.toNat + 26)
  else if '0'.toNat ≤ c.toNat ∧ c.toNat ≤ '9'.toNat then some (c.toNat - '0'.toNat + 52)
  else if c = '+' then some 62
  else if c = '/' then some 63
  else none

/-- The letter of a value below 64. -/
def letter (i : ℕ) : Char :=
  if i < 26 then Char.ofNat ('A'.toNat + i)
  else if i < 52 then Char.ofNat ('a'.toNat + (i - 26))
  else if i < 62 then Char.ofNat ('0'.toNat + (i - 52))
  else if i = 62 then '+'
  else '/'

lemma value_letter : ∀ i < 64, value (letter i) = some i := by decide

lemma letter_ne_pad : ∀ i < 64, letter i ≠ '=' := by decide

/-- A letter is the one of its value. -/
lemma letter_of_value {c : Char} {i : ℕ} (h : value c = some i) : i < 64 ∧ letter i = c := by
  have hascii : c.toNat < 128 := by
    by_contra hlarge
    have hnone : value c = none := by
      have hlast : 'Z'.toNat = 90 ∧ 'z'.toNat = 122 ∧ '9'.toNat = 57 := ⟨rfl, rfl, rfl⟩
      rw [value, if_neg (by omega), if_neg (by omega), if_neg (by omega), if_neg, if_neg]
      · rintro rfl
        exact hlarge (by decide)
      · rintro rfl
        exact hlarge (by decide)
    exact absurd (hnone.symm.trans h) (by simp)
  exact Text.forall_char_lt (fun c => ∀ i ∈ value c, i < 64 ∧ letter i = c) (by decide) hascii i h

lemma value_eq_some_iff {c : Char} {i : ℕ} : value c = some i ↔ i < 64 ∧ letter i = c := by
  constructor
  · exact letter_of_value
  · rintro ⟨hi, rfl⟩
    exact value_letter i hi

/-! ## Groups -/

/-- The letters of three bytes. -/
def full (x y z : BitVec 8) : List Char :=
  [letter (x.toNat / 4), letter (x.toNat % 4 * 16 + y.toNat / 16),
    letter (y.toNat % 16 * 4 + z.toNat / 64), letter (z.toNat % 64)]

/-- The letters of two bytes at the end. -/
def two (x y : BitVec 8) : List Char :=
  [letter (x.toNat / 4), letter (x.toNat % 4 * 16 + y.toNat / 16), letter (y.toNat % 16 * 4), '=']

/-- The letters of a byte at the end. -/
def one (x : BitVec 8) : List Char :=
  [letter (x.toNat / 4), letter (x.toNat % 4 * 16), '=', '=']

def decodeFull (a b c d : Char) : Option (List (BitVec 8)) := do
  let i ← value a
  let j ← value b
  let k ← value c
  let l ← value d
  some [BitVec.ofNat 8 (i * 4 + j / 16), BitVec.ofNat 8 (j % 16 * 16 + k / 4),
    BitVec.ofNat 8 (k % 4 * 64 + l)]

def decodeTwo (a b c : Char) : Option (List (BitVec 8)) := do
  let i ← value a
  let j ← value b
  let k ← value c
  if k % 4 = 0 then some [BitVec.ofNat 8 (i * 4 + j / 16), BitVec.ofNat 8 (j % 16 * 16 + k / 4)]
  else none

def decodeOne (a b : Char) : Option (List (BitVec 8)) := do
  let i ← value a
  let j ← value b
  if j % 16 = 0 then some [BitVec.ofNat 8 (i * 4 + j / 16)] else none

variable {a b c d : Char} {bytes : List (BitVec 8)}

/-- Four letters are three bytes. -/
lemma decodeFull_eq_some_iff :
    decodeFull a b c d = some bytes ↔ ∃ x y z, bytes = [x, y, z] ∧ full x y z = [a, b, c, d] := by
  simp only [decodeFull, Option.bind_eq_bind, Option.bind_eq_some_iff, value_eq_some_iff,
    Option.some.injEq]
  constructor
  · rintro ⟨i, ⟨hi, rfl⟩, j, ⟨hj, rfl⟩, k, ⟨hk, rfl⟩, l, ⟨hl, rfl⟩, rfl⟩
    refine ⟨_, _, _, rfl, ?_⟩
    have hfirst : (i * 4 + j / 16) % 2 ^ 8 / 4 = i := by omega
    have hsecond : (i * 4 + j / 16) % 2 ^ 8 % 4 * 16 + (j % 16 * 16 + k / 4) % 2 ^ 8 / 16 = j := by
      omega
    have hthird : (j % 16 * 16 + k / 4) % 2 ^ 8 % 16 * 4 + (k % 4 * 64 + l) % 2 ^ 8 / 64 = k := by
      omega
    have hlast : (k % 4 * 64 + l) % 2 ^ 8 % 64 = l := by omega
    simp only [full, BitVec.toNat_ofNat, hfirst, hsecond, hthird, hlast]
  · rintro ⟨x, y, z, rfl, hletters⟩
    simp only [full, List.cons.injEq, and_true] at hletters
    obtain ⟨rfl, rfl, rfl, rfl⟩ := hletters
    have hx := x.isLt
    have hy := y.isLt
    have hz := z.isLt
    refine ⟨_, ⟨by omega, rfl⟩, _, ⟨by omega, rfl⟩, _, ⟨by omega, rfl⟩, _, ⟨by omega, rfl⟩, ?_⟩
    simp only [List.cons.injEq, and_true]
    refine ⟨BitVec.eq_of_toNat_eq ?_, BitVec.eq_of_toNat_eq ?_, BitVec.eq_of_toNat_eq ?_⟩
    · rw [BitVec.toNat_ofNat]
      omega
    · rw [BitVec.toNat_ofNat]
      omega
    · rw [BitVec.toNat_ofNat]
      omega

lemma decodeTwo_eq_some_iff :
    decodeTwo a b c = some bytes ↔ ∃ x y, bytes = [x, y] ∧ two x y = [a, b, c, '='] := by
  simp only [decodeTwo, Option.bind_eq_bind, Option.bind_eq_some_iff, value_eq_some_iff,
    Option.ite_none_right_eq_some, Option.some.injEq]
  constructor
  · rintro ⟨i, ⟨hi, rfl⟩, j, ⟨hj, rfl⟩, k, ⟨hk, rfl⟩, hzero, rfl⟩
    refine ⟨_, _, rfl, ?_⟩
    have hfirst : (i * 4 + j / 16) % 2 ^ 8 / 4 = i := by omega
    have hsecond : (i * 4 + j / 16) % 2 ^ 8 % 4 * 16 + (j % 16 * 16 + k / 4) % 2 ^ 8 / 16 = j := by
      omega
    have hlast : (j % 16 * 16 + k / 4) % 2 ^ 8 % 16 * 4 = k := by omega
    simp only [two, BitVec.toNat_ofNat, hfirst, hsecond, hlast]
  · rintro ⟨x, y, rfl, hletters⟩
    simp only [two, List.cons.injEq, and_true] at hletters
    obtain ⟨rfl, rfl, rfl⟩ := hletters
    have hx := x.isLt
    have hy := y.isLt
    refine ⟨_, ⟨by omega, rfl⟩, _, ⟨by omega, rfl⟩, _, ⟨by omega, rfl⟩, by omega, ?_⟩
    simp only [List.cons.injEq, and_true]
    refine ⟨BitVec.eq_of_toNat_eq ?_, BitVec.eq_of_toNat_eq ?_⟩
    · rw [BitVec.toNat_ofNat]
      omega
    · rw [BitVec.toNat_ofNat]
      omega

lemma decodeOne_eq_some_iff :
    decodeOne a b = some bytes ↔ ∃ x, bytes = [x] ∧ one x = [a, b, '=', '='] := by
  simp only [decodeOne, Option.bind_eq_bind, Option.bind_eq_some_iff, value_eq_some_iff,
    Option.ite_none_right_eq_some, Option.some.injEq]
  constructor
  · rintro ⟨i, ⟨hi, rfl⟩, j, ⟨hj, rfl⟩, hzero, rfl⟩
    refine ⟨_, rfl, ?_⟩
    have hfirst : (i * 4 + j / 16) % 2 ^ 8 / 4 = i := by omega
    have hlast : (i * 4 + j / 16) % 2 ^ 8 % 4 * 16 = j := by omega
    simp only [one, BitVec.toNat_ofNat, hfirst, hlast]
  · rintro ⟨x, rfl, hletters⟩
    simp only [one, List.cons.injEq, and_true] at hletters
    obtain ⟨rfl, rfl⟩ := hletters
    have hx := x.isLt
    refine ⟨_, ⟨by omega, rfl⟩, _, ⟨by omega, rfl⟩, by omega, ?_⟩
    simp only [List.cons.injEq, and_true]
    refine BitVec.eq_of_toNat_eq ?_
    rw [BitVec.toNat_ofNat]
    omega

/-! ## Texts -/

/-- The text of some bytes. -/
def encode : List (BitVec 8) → List Char
  | [] => []
  | [x] => one x
  | [x, y] => two x y
  | x :: y :: z :: rest => full x y z ++ encode rest

/-- The bytes of a text, if it is one.  Only its last group may end with equals signs. -/
def decode : List Char → Option (List (BitVec 8))
  | [] => some []
  | a :: b :: c :: d :: rest =>
    if rest ≠ [] ∨ d ≠ '=' then do
      let group ← decodeFull a b c d
      let bytes ← decode rest
      some (group ++ bytes)
    else if c ≠ '=' then decodeTwo a b c
    else decodeOne a b
  | _ => none

example : decode "Zm9vYmE=".toList = some [0x66, 0x6F, 0x6F, 0x62, 0x61] := by decide

example : decode "Zm9vYmF=".toList = none := by decide

example : decode "Zg==Zg==".toList = none := by decide

/-- What is written is read back. -/
lemma decode_encode (bytes : List (BitVec 8)) : decode (encode bytes) = some bytes := by
  induction bytes using encode.induct with
  | case1 => rfl
  | case2 x =>
    rw [encode, one, decode, if_neg (by simp), if_neg (by simp)]
    exact decodeOne_eq_some_iff.mpr ⟨x, rfl, rfl⟩
  | case3 x y =>
    have hy := y.isLt
    rw [encode, two, decode, if_neg (by simp), if_pos (letter_ne_pad _ (by omega))]
    exact decodeTwo_eq_some_iff.mpr ⟨x, y, rfl, rfl⟩
  | case4 x y z rest ih =>
    have hgroup := decodeFull_eq_some_iff.mpr ⟨x, y, z, rfl, rfl⟩
    rw [encode, full, List.cons_append, List.cons_append, List.cons_append, List.cons_append,
      List.nil_append, decode, if_pos (.inr (letter_ne_pad _ (Nat.mod_lt _ (by decide)))), hgroup,
      ih]
    rfl

/-- **A row of bytes has one text**: nothing else is read as these bytes. -/
lemma decode_eq_some_iff {text : List Char} : decode text = some bytes ↔ encode bytes = text := by
  constructor
  · intro h
    induction text using decode.induct generalizing bytes with
    | case1 =>
      obtain rfl := Option.some.inj h
      rfl
    | case2 a b c d rest hfull ih =>
      rw [decode, if_pos hfull] at h
      obtain ⟨group, hgroup, h⟩ := Option.bind_eq_some_iff.mp h
      obtain ⟨bytes', hrest, h⟩ := Option.bind_eq_some_iff.mp h
      obtain rfl := Option.some.inj h
      obtain ⟨x, y, z, rfl, hletters⟩ := decodeFull_eq_some_iff.mp hgroup
      change full x y z ++ encode bytes' = _
      rw [hletters, ih hrest]
      rfl
    | case3 a b c d rest hlast htwo =>
      rw [decode, if_neg hlast, if_pos htwo] at h
      obtain ⟨x, y, rfl, hletters⟩ := decodeTwo_eq_some_iff.mp h
      obtain ⟨rfl, rfl⟩ : rest = [] ∧ d = '=' := by simpa using hlast
      exact hletters
    | case4 a b c d rest hlast hone =>
      rw [decode, if_neg hlast, if_neg hone] at h
      obtain ⟨x, rfl, hletters⟩ := decodeOne_eq_some_iff.mp h
      obtain ⟨rfl, rfl⟩ : rest = [] ∧ d = '=' := by simpa using hlast
      obtain rfl : c = '=' := by simpa using hone
      exact hletters
    | case5 text hnil hfour => exact absurd h (by simp [decode])
  · rintro rfl
    exact decode_encode bytes

/-! ## Lengths and padding -/

lemma length_encode (bytes : List (BitVec 8)) :
    (encode bytes).length = 4 * ((bytes.length + 2) / 3) := by
  induction bytes using encode.induct with
  | case1 => rfl
  | case2 x => simp [encode, one]
  | case3 x y => simp [encode, two]
  | case4 x y z rest ih =>
    rw [encode, List.length_append, ih, List.length_cons, List.length_cons, List.length_cons]
    change 4 + _ = _
    omega

/-- The equals signs that some number of bytes needs. -/
def padding (n : ℕ) : ℕ := (3 - n % 3) % 3

lemma isSome_value_letter {i : ℕ} (hi : i < 64) : (value (letter i)).isSome = true := by
  rw [value_letter i hi]
  rfl

/-- A text is letters, and the equals signs it needs. -/
lemma encode_shape (bytes : List (BitVec 8)) : ∃ letters,
    encode bytes = letters ++ List.replicate (padding bytes.length) '=' ∧
      ∀ c ∈ letters, (value c).isSome = true := by
  induction bytes using encode.induct with
  | case1 => exact ⟨[], rfl, fun c hc => absurd hc (by simp)⟩
  | case2 x =>
    have hx := x.isLt
    refine ⟨[letter (x.toNat / 4), letter (x.toNat % 4 * 16)], rfl, fun c hc => ?_⟩
    simp only [List.mem_cons, List.not_mem_nil, or_false] at hc
    rcases hc with rfl | rfl <;> exact isSome_value_letter (by omega)
  | case3 x y =>
    have hx := x.isLt
    have hy := y.isLt
    refine ⟨[letter (x.toNat / 4), letter (x.toNat % 4 * 16 + y.toNat / 16),
      letter (y.toNat % 16 * 4)], rfl, fun c hc => ?_⟩
    simp only [List.mem_cons, List.not_mem_nil, or_false] at hc
    rcases hc with rfl | rfl | rfl <;> exact isSome_value_letter (by omega)
  | case4 x y z rest ih =>
    have hx := x.isLt
    have hy := y.isLt
    obtain ⟨letters, hletters, hvalue⟩ := ih
    have hpadding : padding (x :: y :: z :: rest).length = padding rest.length := by
      simp only [padding, List.length_cons]
      omega
    refine ⟨full x y z ++ letters, ?_, fun c hc => ?_⟩
    · rw [encode, hletters, hpadding, List.append_assoc]
    · rcases List.mem_append.mp hc with hc | hc
      · simp only [full, List.mem_cons, List.not_mem_nil, or_false] at hc
        have hz := z.isLt
        rcases hc with rfl | rfl | rfl | rfl <;> exact isSome_value_letter (by omega)
      · exact hvalue c hc

end Base64
end RemoteClient
