/-
# Signatures as text

A signature is sent in hex, and `unhex` reads it with the integer parser of the standard
library, two characters at a time.  That parser takes a plus sign in front of a number, so
`unhex` reads more than hex: `Paired` are the texts that it takes, and a plus sign among them
counts as a zero (`hex_of_unhex`).  On the texts with no plus sign it reads exactly hex, and a
signature has one text but for the case of its letters (`unhex_exact_iff`).
-/
import RemoteClient.Control
import RemoteClient.Lib.Utf8

namespace RemoteClient
namespace Control

/-! ## Hex -/

def IsHexDigit (c : Char) : Prop := c ∈ "0123456789abcdefABCDEF".toList

instance : DecidablePred IsHexDigit := fun _ => inferInstanceAs (Decidable (_ ∈ _))

/-- Hex digits, an even number of them. -/
structure IsHex (s : Str) : Prop where
  even : s.length % 2 = 0
  digits : ∀ c ∈ s, IsHexDigit c

/-- The texts that `unhex` takes: pairs of characters, the first of which may be a plus sign and
not a digit. -/
def Paired : Str → Prop
  | [] => True
  | high :: low :: rest => (IsHexDigit high ∨ high = '+') ∧ IsHexDigit low ∧ Paired rest
  | _ => False

/-- A text that is taken and is no hex. -/
def Lenient (s : Str) : Prop := Paired s ∧ '+' ∈ s

/-- A plus sign is read as a zero. -/
def unsigned (c : Char) : Char := if c = '+' then '0' else c

lemma unsigned_of_isHexDigit {c : Char} (h : IsHexDigit c) : unsigned c = c := by
  refine if_neg ?_
  rintro rfl
  exact absurd h (by decide)

lemma ascii_of_isHexDigit {c : Char} (h : IsHexDigit c) : c.toNat < 128 := by
  have hall : ("0123456789abcdefABCDEF".toList.all fun c => c.toNat < 128) = true := by decide
  exact of_decide_eq_true (List.all_eq_true.mp hall c h)

/-! ## One pair -/

/-- The value of a digit is that of the digit in lower case. -/
lemma hexCharValue_spec {c : Char} {v : ℕ} (h : hexCharValue c = some v) :
    IsHexDigit c ∧ ∃ hv : v < 16, hexDigit ⟨v, hv⟩ = c.toLower := by
  have hascii : c.toNat < 128 := by
    by_contra hlarge
    rw [hexCharValue, if_neg hlarge] at h
    exact absurd h (by simp)
  exact Text.forall_char_lt (fun c => ∀ v ∈ hexCharValue c, IsHexDigit c ∧
    ∃ hv : v < 16, hexDigit ⟨v, hv⟩ = c.toLower) (by decide) hascii v h

lemma hexCharValue_of_isHexDigit {c : Char} (h : IsHexDigit c) : ∃ v, hexCharValue c = some v := by
  have hall : ("0123456789abcdefABCDEF".toList.all fun c => (hexCharValue c).isSome) = true := by
    decide
  exact Option.isSome_iff_exists.mp (List.all_eq_true.mp hall c h)

lemma hexCharValue_hexDigit : ∀ i : Fin 16, hexCharValue (hexDigit i) = some i.val := by decide

variable {high low : Char} {b : Byte}

/-- A byte is written in the digits of its two halves. -/
lemma hex_singleton {i j : ℕ} (hi : i < 16) (hj : j < 16) :
    hex [BitVec.ofNat 8 (i * 16 + j)] = [hexDigit ⟨i, hi⟩, hexDigit ⟨j, hj⟩] := by
  have hvalue : (BitVec.ofNat 8 (i * 16 + j)).toNat = i * 16 + j := by
    rw [BitVec.toNat_ofNat]
    omega
  have hhigh : (i * 16 + j) / 16 = i := by omega
  have hlow : (i * 16 + j) % 16 = j := by omega
  simp only [hex, hexByte, List.flatMap_singleton, hvalue, hhigh, hlow]

/-- **What a pair is read as.** -/
lemma fromStrRadix_spec (h : fromStrRadix high low = some b) :
    (IsHexDigit high ∨ high = '+') ∧ IsHexDigit low ∧
      hex [b] = [(unsigned high).toLower, low.toLower] := by
  unfold fromStrRadix at h
  split at h
  · next i j hhigh hlow =>
    obtain rfl := Option.some.inj h
    obtain ⟨hdigit, hj, hlow⟩ := hexCharValue_spec hlow
    split at hhigh
    · next hplus =>
      obtain rfl := Option.some.inj hhigh
      refine ⟨.inr hplus, hdigit, ?_⟩
      rw [hex_singleton (by decide) hj, hlow, unsigned, if_pos hplus]
      rfl
    · next hplus =>
      obtain ⟨hdigit', hi, hhigh⟩ := hexCharValue_spec hhigh
      refine ⟨.inl hdigit', hdigit, ?_⟩
      rw [hex_singleton hi hj, hlow, hhigh, unsigned, if_neg hplus]
  · exact absurd h (by simp)

lemma exists_fromStrRadix (hhigh : IsHexDigit high ∨ high = '+') (hlow : IsHexDigit low) :
    ∃ b, fromStrRadix high low = some b := by
  obtain ⟨j, hj⟩ := hexCharValue_of_isHexDigit hlow
  by_cases hplus : high = '+'
  · exact ⟨_, by rw [fromStrRadix, if_pos hplus, hj]⟩
  · obtain ⟨i, hi⟩ := hexCharValue_of_isHexDigit (hhigh.resolve_right hplus)
    exact ⟨_, by rw [fromStrRadix, if_neg hplus, hi, hj]⟩

/-! ## Texts -/

variable {s t : Str} {bytes : List Byte}

lemma hex_cons (b : Byte) (bytes : List Byte) : hex (b :: bytes) = hex [b] ++ hex bytes := by
  simp only [hex, List.flatMap_cons, List.flatMap_nil, List.append_nil]

lemma Paired.chars (h : Paired s) : s.length % 2 = 0 ∧ ∀ c ∈ s, IsHexDigit c ∨ c = '+' := by
  induction s using Paired.induct with
  | case1 => exact ⟨rfl, fun c hc => absurd hc (by simp)⟩
  | case2 high low rest ih =>
    obtain ⟨hhigh, hlow, hrest⟩ := h
    obtain ⟨heven, hchars⟩ := ih hrest
    refine ⟨by rw [List.length_cons, List.length_cons]; omega, fun c hc => ?_⟩
    rcases List.mem_cons.mp hc with rfl | hc
    · exact hhigh
    rcases List.mem_cons.mp hc with rfl | hc
    · exact .inl hlow
    · exact hchars c hc
  | case3 => exact absurd h (by simp [Paired])

/-- Hex are the texts without a plus sign. -/
lemma isHex_iff : IsHex s ↔ Paired s ∧ '+' ∉ s := by
  constructor
  · rintro ⟨heven, hdigits⟩
    refine ⟨?_, fun hplus => absurd (hdigits _ hplus) (by decide)⟩
    induction s using Paired.induct with
    | case1 => trivial
    | case2 high low rest ih =>
      rw [List.length_cons, List.length_cons] at heven
      refine ⟨.inl (hdigits _ (by simp)), hdigits _ (by simp), ih (by omega) fun c hc => ?_⟩
      exact hdigits c (List.mem_cons_of_mem _ (List.mem_cons_of_mem _ hc))
    | case3 s hnil hpair =>
      match s with
      | [] => exact absurd rfl hnil
      | [_] => exact absurd heven (by simp)
      | high :: low :: rest => exact (hpair high low rest rfl).elim
  · rintro ⟨hpaired, hplus⟩
    obtain ⟨heven, hchars⟩ := hpaired.chars
    exact ⟨heven, fun c hc => (hchars c hc).resolve_right fun heq => hplus (heq ▸ hc)⟩

lemma unhexPairs_spec (heven : s.length % 2 = 0) (h : unhexPairs s = some bytes) :
    Paired s ∧ hex bytes = asciiLower (s.map unsigned) := by
  induction s using Paired.induct generalizing bytes with
  | case1 =>
    obtain rfl := Option.some.inj h
    exact ⟨trivial, rfl⟩
  | case2 high low rest ih =>
    rw [List.length_cons, List.length_cons] at heven
    rw [unhexPairs] at h
    split at h
    · next b bytes' hb hrest =>
      obtain rfl := Option.some.inj h
      obtain ⟨hhigh, hlow, hpair⟩ := fromStrRadix_spec hb
      obtain ⟨hpaired, hhex⟩ := ih (by omega) hrest
      refine ⟨⟨hhigh, hlow, hpaired⟩, ?_⟩
      rw [hex_cons, hpair, hhex, List.map_cons, List.map_cons, unsigned_of_isHexDigit hlow]
      rfl
    · exact absurd h (by simp)
  | case3 s hnil hpair =>
    match s with
    | [] => exact absurd rfl hnil
    | [_] => exact absurd heven (by simp)
    | high :: low :: rest => exact (hpair high low rest rfl).elim

lemma exists_unhexPairs (h : Paired s) : ∃ bytes, unhexPairs s = some bytes := by
  induction s using Paired.induct with
  | case1 => exact ⟨[], rfl⟩
  | case2 high low rest ih =>
    obtain ⟨hhigh, hlow, hrest⟩ := h
    obtain ⟨b, hb⟩ := exists_fromStrRadix hhigh hlow
    obtain ⟨bytes, hbytes⟩ := ih hrest
    exact ⟨b :: bytes, by rw [unhexPairs, hb, hbytes]⟩
  | case3 => exact absurd h (by simp [Paired])

/-- The first checks of `unhex` let its texts through. -/
lemma unhex_of_paired (h : Paired s) : unhex s = unhexPairs s := by
  obtain ⟨heven, hchars⟩ := h.chars
  have hascii : ∀ c ∈ s, c.toNat < 128 := by
    intro c hc
    rcases hchars c hc with hdigit | rfl
    · exact ascii_of_isHexDigit hdigit
    · decide
  have hlength : (utf8Bytes s).length = s.length := by
    have hencode := congrArg List.length (Utf8.encode_ascii_text hascii)
    rwa [List.length_map] at hencode
  refine if_neg ?_
  rw [hlength, not_or, not_not, not_not, List.all_eq_true]
  exact ⟨heven, fun c hc => decide_eq_true (hascii c hc)⟩

/-- **What `unhex` reads**, written in hex again: the text in lower case, with zeros for its
plus signs. -/
lemma hex_of_unhex (h : unhex s = some bytes) :
    Paired s ∧ hex bytes = asciiLower (s.map unsigned) := by
  unfold unhex at h
  split at h
  · exact absurd h (by simp)
  · next hchecks =>
    rw [not_or, not_not, not_not, List.all_eq_true] at hchecks
    obtain ⟨heven, hascii⟩ := hchecks
    have hencode := congrArg List.length
      (Utf8.encode_ascii_text fun c hc => of_decide_eq_true (hascii c hc))
    rw [List.length_map] at hencode
    exact unhexPairs_spec (hencode ▸ heven) h

lemma isSome_unhex_iff : (unhex s).isSome = true ↔ Paired s := by
  constructor
  · intro h
    obtain ⟨bytes, hbytes⟩ := Option.isSome_iff_exists.mp h
    exact (hex_of_unhex hbytes).1
  · intro h
    rw [unhex_of_paired h]
    exact Option.isSome_iff_exists.mpr (exists_unhexPairs h)

/-- What is written in hex is read back. -/
lemma unhex_hex (bytes : List Byte) : Paired (hex bytes) ∧ unhex (hex bytes) = some bytes := by
  have hpairs : Paired (hex bytes) ∧ unhexPairs (hex bytes) = some bytes := by
    induction bytes with
    | nil => exact ⟨trivial, rfl⟩
    | cons b bytes ih =>
      have hb := b.isLt
      have hhigh := hexCharValue_hexDigit ⟨b.toNat / 16, by omega⟩
      have hlow := hexCharValue_hexDigit ⟨b.toNat % 16, by omega⟩
      have hdigit := (hexCharValue_spec hhigh).1
      have hplus : ¬hexDigit ⟨b.toNat / 16, by omega⟩ = '+' := by
        intro heq
        rw [heq] at hdigit
        exact absurd hdigit (by decide)
      have hvalue : BitVec.ofNat 8 (b.toNat / 16 * 16 + b.toNat % 16) = b := by
        rw [Nat.div_add_mod', BitVec.ofNat_toNat, BitVec.setWidth_eq]
      refine ⟨⟨.inl hdigit, (hexCharValue_spec hlow).1, ih.1⟩, ?_⟩
      change unhexPairs (hexDigit _ :: hexDigit _ :: hex bytes) = _
      rw [unhexPairs, fromStrRadix, if_neg hplus, hhigh, hlow, ih.2]
      simp only [hvalue]
  exact ⟨hpairs.1, (unhex_of_paired hpairs.1).trans hpairs.2⟩

/-- A pair at the front of a signature. -/
lemma unhex_pair_append (hhigh : IsHexDigit high ∨ high = '+') (hlow : IsHexDigit low)
    (h : fromStrRadix high low = some b) (rest : List Byte) :
    unhex (high :: low :: hex rest) = some (b :: rest) := by
  obtain ⟨hpaired, hrest⟩ := unhex_hex rest
  rw [unhex_of_paired hpaired] at hrest
  have hpair : Paired (high :: low :: hex rest) := ⟨hhigh, hlow, hpaired⟩
  rw [unhex_of_paired hpair, unhexPairs, h, hrest]

/-! ## Exactly hex -/

/-- A text is read as hex: it is taken only when it is, for the bytes that it writes, and as a
MAC it verifies only where it is the signature's own text but for the case. -/
structure ReadExactly (s : Str) : Prop where
  taken : (unhex s).isSome = true ↔ IsHex s
  lower : ∀ bytes, unhex s = some bytes → hex bytes = asciiLower s
  mac : ∀ codec secret payload, verify codec secret ⟨payload, s⟩ = true →
    asciiLower s = (sign codec secret payload).mac

lemma readExactly_of_not (h : ¬Lenient s) : ReadExactly s := by
  have hlower : ∀ bytes, unhex s = some bytes → hex bytes = asciiLower s := by
    intro bytes hbytes
    obtain ⟨hpaired, hhex⟩ := hex_of_unhex hbytes
    have hsame : s.map unsigned = s := by
      refine (List.map_congr_left fun c hc => ?_).trans (List.map_id s)
      refine if_neg ?_
      rintro rfl
      exact h ⟨hpaired, hc⟩
    rw [hhex, hsame]
  refine ⟨?_, hlower, fun codec secret payload hverify => ?_⟩
  · rw [isSome_unhex_iff, isHex_iff]
    exact ⟨fun hpaired => ⟨hpaired, fun hplus => h ⟨hpaired, hplus⟩⟩, fun hhex => hhex.1⟩
  · exact (hlower _ (verify_spec hverify)).symm

/-- **When hex is read exactly**: when no plus sign stands where the text is taken with it.  What
is written is always read back, and of the other texts no two verify as one signature but for
their case. -/
theorem unhex_exact_iff (bytes : List Byte) (s : Str) :
    unhex (hex bytes) = some bytes ∧ (ReadExactly s ↔ ¬Lenient s) ∧
    ∀ t, ¬Lenient s → ¬Lenient t → ∀ codec secret payload,
      verify codec secret ⟨payload, s⟩ = true → verify codec secret ⟨payload, t⟩ = true →
        asciiLower s = asciiLower t := by
  refine ⟨(unhex_hex bytes).2, ⟨fun h hlenient => ?_, readExactly_of_not⟩, ?_⟩
  · obtain ⟨hpaired, hplus⟩ := hlenient
    exact (isHex_iff.mp (h.taken.mp (isSome_unhex_iff.mpr hpaired))).2 hplus
  · intro t hs ht codec secret payload hverify hverify'
    exact ((readExactly_of_not hs).mac _ _ _ hverify).trans
      ((readExactly_of_not ht).mac _ _ _ hverify').symm

/-- A five with a sign is taken for a five, and so a signature that starts with it has a second
text. -/
theorem plus_is_taken : unhex "+5".toList = some [5] ∧ ¬IsHex "+5".toList ∧
    hex [5] = "05".toList ∧ asciiLower "+5".toList ≠ "05".toList ∧
    ∀ codec secret payload rest, codec.hmacSha256 secret (utf8Bytes payload) = 5 :: rest →
      verify codec secret ⟨payload, '+' :: '5' :: hex rest⟩ = true ∧
      verify codec secret ⟨payload, '0' :: '5' :: hex rest⟩ = true := by
  refine ⟨by decide, fun h => absurd (h.digits '+' (by decide)) (by decide), by decide, by decide,
    fun codec secret payload rest hmac => ⟨?_, ?_⟩⟩
  · have hplus : unhex ('+' :: '5' :: hex rest) = some (5 :: rest) :=
      unhex_pair_append (.inr rfl) (by decide) (by decide) rest
    rw [verify, hplus]
    exact decide_eq_true hmac
  · have hzero : unhex ('0' :: '5' :: hex rest) = some (5 :: rest) :=
      unhex_pair_append (.inl (by decide)) (by decide) (by decide) rest
    rw [verify, hzero]
    exact decide_eq_true hmac

end Control
end RemoteClient
