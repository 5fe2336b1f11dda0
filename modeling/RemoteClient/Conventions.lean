/-
# Two conventions for a path

A browser sends a mojibake path as percent-encoded UTF-8, and another client may send the CP949
bytes themselves.  `decodeRequestPath` tells the two apart by whether the bytes are UTF-8, and
some CP949 paths are UTF-8 of another text.  Beyond ASCII, the two conventions meet exactly on
the paths that are not (`conventions_agree_iff`).
-/
import RemoteClient.Paths
import RemoteClient.Lib.Utf8

namespace RemoteClient

open Encoding

/-! ## Percent-encoding -/

/-- The hex digits with their values. -/
def hexDigits : List (Char × ℕ) :=
  "0123456789abcdef".toList.zipIdx ++ "ABCDEF".toList.zipIdx 10

/-- A text stands for some bytes: each as an ASCII character of its own, or as `%` and two hex
digits. -/
inductive Escapes : Str → List Byte → Prop
  | nil : Escapes [] []
  | plain {c : Char} {s : Str} {bytes : List Byte} (hascii : c.toNat < 128) (hne : c ≠ '%')
      (h : Escapes s bytes) : Escapes (c :: s) (BitVec.ofNat 8 c.toNat :: bytes)
  | escaped {high low : Char × ℕ} {s : Str} {bytes : List Byte} (hhigh : high ∈ hexDigits)
      (hlow : low ∈ hexDigits) (h : Escapes s bytes) :
    Escapes ('%' :: high.1 :: low.1 :: s) (BitVec.ofNat 8 (high.2 * 16 + low.2) :: bytes)

/-- All bytes have such a text. -/
lemma exists_escapes (bytes : List Byte) : ∃ s, Escapes s bytes := by
  have hdigit : ∀ n < 16, ∃ p ∈ hexDigits, p.2 = n := by decide
  induction bytes with
  | nil => exact ⟨[], .nil⟩
  | cons b bytes ih =>
    obtain ⟨s, hs⟩ := ih
    have hb := b.isLt
    obtain ⟨high, hhigh, heq⟩ := hdigit (b.toNat / 16) (by omega)
    obtain ⟨low, hlow, heq'⟩ := hdigit (b.toNat % 16) (by omega)
    refine ⟨'%' :: high.1 :: low.1 :: s, ?_⟩
    have hvalue : BitVec.ofNat 8 (high.2 * 16 + low.2) = b := by
      rw [heq, heq', Nat.div_add_mod', BitVec.ofNat_toNat, BitVec.setWidth_eq]
    rw [← hvalue]
    exact .escaped hhigh hlow hs

/-- The same on bytes: a byte other than `%` stands for itself. -/
inductive PercentSpells : List Byte → List Byte → Prop
  | nil : PercentSpells [] []
  | plain {b : Byte} {text bytes : List Byte} (hne : b.toNat ≠ '%'.toNat)
      (h : PercentSpells text bytes) : PercentSpells (b :: text) (b :: bytes)
  | escaped {high low : Char × ℕ} {text bytes : List Byte} (hhigh : high ∈ hexDigits)
      (hlow : low ∈ hexDigits) (h : PercentSpells text bytes) :
    PercentSpells (BitVec.ofNat 8 '%'.toNat :: BitVec.ofNat 8 high.1.toNat ::
      BitVec.ofNat 8 low.1.toNat :: text) (BitVec.ofNat 8 (high.2 * 16 + low.2) :: bytes)

/-- What the percent decoder is relied on for: what bytes stand for is what they decode to. -/
def TextLib.DecodesPercent (T : TextLib) : Prop :=
  ∀ text bytes, PercentSpells text bytes → T.percentDecode text = bytes

lemma decodeEscapes_cons_of_ne {b : Byte} (hb : b.toNat ≠ '%'.toNat) (bytes : List Byte) :
    decodeEscapes (b :: bytes) = b :: decodeEscapes bytes := by
  match bytes with
  | [] => rfl
  | [_] => rfl
  | h :: l :: rest =>
    rw [decodeEscapes]
    split
    · rw [if_neg hb]
    · rfl

/-- The decoder of the ASCII library is one. -/
lemma decodesPercent_ascii : TextLib.ascii.DecodesPercent := by
  intro text bytes h
  show decodeEscapes text = bytes
  have hhex : ∀ p ∈ hexDigits, hexValue (BitVec.ofNat 8 p.1.toNat) = some p.2 := by decide
  induction h with
  | nil => rfl
  | plain hne h ih => rw [decodeEscapes_cons_of_ne hne, ih]
  | escaped hhigh hlow h ih =>
    rw [decodeEscapes, hhex _ hhigh, hhex _ hlow]
    simp only
    rw [if_pos (by decide), ih]

namespace PercentSpells

variable {text bytes : List Byte}

lemma append_plain {start : List Byte} (hstart : ∀ b ∈ start, b.toNat ≠ '%'.toNat)
    (h : PercentSpells text bytes) : PercentSpells (start ++ text) (start ++ bytes) := by
  induction start with
  | nil => exact h
  | cons b start ih =>
    exact .plain (hstart b (by simp)) (ih fun b' hb' => hstart b' (List.mem_cons_of_mem b hb'))

end PercentSpells

lemma utf8Bytes_ascii_cons {c : Char} (hc : c.toNat < 128) (s : Str) :
    utf8Bytes (c :: s) = BitVec.ofNat 8 c.toNat :: utf8Bytes s :=
  (Utf8.encode_cons c s).trans (congrArg (· ++ _) (Utf8.encode_ascii hc))

/-- The UTF-8 of three characters that escape a byte. -/
lemma utf8Bytes_escaped {high low : Char × ℕ} (hhigh : high ∈ hexDigits) (hlow : low ∈ hexDigits)
    (s : Str) : utf8Bytes ('%' :: high.1 :: low.1 :: s) = BitVec.ofNat 8 '%'.toNat ::
      BitVec.ofNat 8 high.1.toNat :: BitVec.ofNat 8 low.1.toNat :: utf8Bytes s := by
  have hascii : ∀ p ∈ hexDigits, p.1.toNat < 128 := by decide
  rw [utf8Bytes_ascii_cons (by decide), utf8Bytes_ascii_cons (hascii _ hhigh),
    utf8Bytes_ascii_cons (hascii _ hlow)]

/-- What is escaped is spelled by the bytes of its text. -/
lemma Escapes.spells {s : Str} {bytes : List Byte} (h : Escapes s bytes) :
    PercentSpells (utf8Bytes s) bytes := by
  induction h with
  | nil => exact .nil
  | @plain c s bytes hascii hne h ih =>
    have hc : (BitVec.ofNat 8 c.toNat).toNat ≠ '%'.toNat := by
      rw [BitVec.toNat_ofNat, Nat.mod_eq_of_lt (by omega)]
      exact fun heq => hne (Char.toNat_inj.mp heq)
    rw [utf8Bytes_ascii_cons hascii]
    exact .plain hc ih
  | escaped hhigh hlow h ih =>
    rw [utf8Bytes_escaped hhigh hlow]
    exact .escaped hhigh hlow ih

/-! ## Which strings they arrive as -/

/-- The library with Lean's own UTF-8 for `from_utf8`. -/
def TextLib.lawful (T : TextLib) : TextLib := { T with fromUtf8 := Utf8.decode }

lemma decodeRequestPath_of_utf8 {T : TextLib} (hpercent : T.DecodesPercent) {raw s : Str}
    (h : Escapes raw (utf8Bytes s)) : decodeRequestPath T.lawful raw = s := by
  have hbytes : T.lawful.percentDecode (utf8Bytes raw) = utf8Bytes s := hpercent _ _ h.spells
  have hdecode : T.lawful.fromUtf8 (utf8Bytes s) = some s := Utf8.decode_encode s
  simp only [decodeRequestPath, hbytes, hdecode]

/-- Bytes that are no UTF-8 are taken as they are. -/
lemma decodeRequestPath_of_not {T : TextLib} (hpercent : T.DecodesPercent) {raw : Str}
    {bytes : List Byte} (h : Escapes raw bytes) (hnot : ¬∃ s, utf8Bytes s = bytes) :
    decodeRequestPath T.lawful raw = latin1Decode bytes := by
  have hbytes : T.lawful.percentDecode (utf8Bytes raw) = bytes := hpercent _ _ h.spells
  have hdecode : T.lawful.fromUtf8 bytes = none := by
    by_contra hsome
    obtain ⟨s, hs⟩ := Option.ne_none_iff_exists'.mp hsome
    exact hnot ⟨s, Utf8.decode_eq_some_iff.mp hs⟩
  simp only [decodeRequestPath, hbytes, hdecode]

/-- Only ASCII bytes are the UTF-8 of their Latin-1 text. -/
lemma utf8Bytes_latin1Decode_iff {bytes : List Byte} :
    utf8Bytes (latin1Decode bytes) = bytes ↔ ∀ b ∈ bytes, b.toNat < 128 := by
  constructor
  · intro h b hb
    have hlength : (Utf8.encode (latin1Decode bytes)).length = (latin1Decode bytes).length :=
      (congrArg List.length h).trans (List.length_map _).symm
    rw [← toNat_ofNat_byte]
    exact (Utf8.length_le_encode _).2 hlength _ (List.mem_map_of_mem hb)
  · intro h
    have hascii : ∀ c ∈ latin1Decode bytes, c.toNat < 128 := by
      intro c hc
      obtain ⟨b, hb, rfl⟩ := List.mem_map.mp hc
      rw [toNat_ofNat_byte]
      exact h b hb
    refine (Utf8.encode_ascii_text hascii).trans ?_
    rw [latin1Decode, List.map_map]
    refine (List.map_congr_left fun b _ => ?_).trans (List.map_id bytes)
    rw [Function.comp_apply, toNat_ofNat_byte, BitVec.ofNat_toNat, BitVec.setWidth_eq]
    rfl

/-- **When both ways to spell a path arrive as the same string**: when its bytes are ASCII, or
no UTF-8. -/
theorem conventions_agree_iff {T : TextLib} (hpercent : T.DecodesPercent) (bytes : List Byte) :
    (∀ browser raw, Escapes browser (utf8Bytes (latin1Decode bytes)) → Escapes raw bytes →
      decodeRequestPath T.lawful browser = latin1Decode bytes ∧
      decodeRequestPath T.lawful raw = latin1Decode bytes) ↔
    (∀ b ∈ bytes, b.toNat < 128) ∨ ¬∃ s, utf8Bytes s = bytes := by
  constructor
  · intro h
    by_contra hcondition
    rw [not_or, not_not, ← utf8Bytes_latin1Decode_iff] at hcondition
    obtain ⟨hne, s, rfl⟩ := hcondition
    obtain ⟨browser, hbrowser⟩ := exists_escapes (utf8Bytes (latin1Decode (utf8Bytes s)))
    obtain ⟨raw, hraw⟩ := exists_escapes (utf8Bytes s)
    have hdecode := (h browser raw hbrowser hraw).2
    rw [decodeRequestPath_of_utf8 hpercent hraw] at hdecode
    exact hne (congrArg utf8Bytes hdecode.symm)
  · intro hcondition browser raw hbrowser hraw
    refine ⟨decodeRequestPath_of_utf8 hpercent hbrowser, ?_⟩
    rcases hcondition with hascii | hnot
    · rw [← utf8Bytes_latin1Decode_iff.mpr hascii] at hraw
      exact decodeRequestPath_of_utf8 hpercent hraw
    · exact decodeRequestPath_of_not hpercent hraw hnot

/-- CP949 on one syllable and on ASCII. -/
def koreanLib : TextLib :=
  { TextLib.ascii.lawful with
    eucKrDecode := fun bytes => if bytes = [0xC2, 0xA1] then ['징'] else latin1Decode bytes
    eucKrEncode := fun s => if s = ['징'] then [0xC2, 0xA1] else latin1Encode s }

lemma koreanLib_decodesPercent : koreanLib.DecodesPercent := decodesPercent_ascii

/-- The bytes of another syllable are no UTF-8: however they are spelled, they arrive as one
string. -/
theorem conventions_agree_sample :
    decodeRequestPath koreanLib "%C2%B0%C2%A1".toList = latin1Decode [0xB0, 0xA1] ∧
    decodeRequestPath koreanLib "%b0%A1".toList = latin1Decode [0xB0, 0xA1] := by
  have hbytes : utf8Bytes (latin1Decode [0xB0, 0xA1]) = [0xC2, 0xB0, 0xC2, 0xA1] := by decide
  have hnot : ¬∃ s, utf8Bytes s = [0xB0, 0xA1] := by
    rintro ⟨s, hs⟩
    have hdecode : Utf8.decode [0xB0, 0xA1] = some s := Utf8.decode_eq_some_iff.mpr hs
    exact absurd hdecode (by rw [show Utf8.decode [0xB0, 0xA1] = none by decide]; simp)
  refine (conventions_agree_iff koreanLib_decodesPercent [0xB0, 0xA1]).mpr (.inr hnot) _ _ ?_ ?_
  · rw [hbytes]
    exact .escaped (by decide : ('C', 12) ∈ hexDigits) (by decide : ('2', 2) ∈ hexDigits)
      (.escaped (by decide : ('B', 11) ∈ hexDigits) (by decide : ('0', 0) ∈ hexDigits)
        (.escaped (by decide : ('C', 12) ∈ hexDigits) (by decide : ('2', 2) ∈ hexDigits)
          (.escaped (by decide : ('A', 10) ∈ hexDigits) (by decide : ('1', 1) ∈ hexDigits) .nil)))
  · exact .escaped (by decide : ('b', 11) ∈ hexDigits) (by decide : ('0', 0) ∈ hexDigits)
      (.escaped (by decide : ('A', 10) ∈ hexDigits) (by decide : ('1', 1) ∈ hexDigits) .nil)

/-- A path of one syllable, whose two bytes are the UTF-8 of another character. -/
theorem conventions_differ :
    cp949Encode koreanLib ['징'] = [0xC2, 0xA1] ∧ cp949Decode koreanLib [0xC2, 0xA1] = ['징'] ∧
    Escapes "%C3%82%C2%A1".toList (utf8Bytes (latin1Decode [0xC2, 0xA1])) ∧
    Escapes "%C2%A1".toList [0xC2, 0xA1] ∧
    decodeRequestPath koreanLib "%C3%82%C2%A1".toList = latin1Decode [0xC2, 0xA1] ∧
    decodeRequestPath koreanLib "%C2%A1".toList = ['¡'] ∧
    ['¡'] ≠ latin1Decode [0xC2, 0xA1] := by
  have hbytes : utf8Bytes (latin1Decode [0xC2, 0xA1]) = [0xC3, 0x82, 0xC2, 0xA1] := by decide
  have hletter : utf8Bytes ['¡'] = [0xC2, 0xA1] := by decide
  have hraw : Escapes "%C2%A1".toList [0xC2, 0xA1] :=
    .escaped (by decide : ('C', 12) ∈ hexDigits) (by decide : ('2', 2) ∈ hexDigits)
      (.escaped (by decide : ('A', 10) ∈ hexDigits) (by decide : ('1', 1) ∈ hexDigits) .nil)
  have hbrowser : Escapes "%C3%82%C2%A1".toList (utf8Bytes (latin1Decode [0xC2, 0xA1])) := by
    rw [hbytes]
    exact .escaped (by decide : ('C', 12) ∈ hexDigits) (by decide : ('3', 3) ∈ hexDigits)
      (.escaped (by decide : ('8', 8) ∈ hexDigits) (by decide : ('2', 2) ∈ hexDigits) hraw)
  have hpercent := koreanLib_decodesPercent
  refine ⟨by decide, by decide, hbrowser, hraw, decodeRequestPath_of_utf8 hpercent hbrowser, ?_,
    by decide⟩
  rw [← hletter] at hraw
  exact decodeRequestPath_of_utf8 hpercent hraw

end RemoteClient
