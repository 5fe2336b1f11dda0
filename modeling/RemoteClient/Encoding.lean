/-
# The spellings of a file name

Names in an archive are CP949 bytes.  The client asks for them as those same bytes read as
ISO-8859-1, one character a byte ("mojibake").  The functions here move between the raw
bytes, the Korean name and the mojibake, and pick the encoding of an archive's table.

What `encoding_rs`, `percent_encoding` and the standard library do to text is a parameter,
`TextLib`; the rest is the code's own.
-/
import RemoteClient.Lib.Bytes
import Mathlib.Data.Rat.Defs
import Mathlib.Algebra.Order.Ring.Rat

namespace RemoteClient

/-- A string, as its characters. -/
abbrev Str : Type := List Char

/-- Strings are compared character by character. -/
instance : LawfulBEq Str := List.instLawfulBEq

/-- A map keyed by strings hashes their code points. -/
instance : Hashable Str := ⟨fun s => hash (s.map Char.toNat)⟩

/-- The text functions of other libraries. -/
structure TextLib where
  /-- `encoding_rs::EUC_KR.decode`. -/
  eucKrDecode : List Byte → Str
  /-- `encoding_rs::EUC_KR.encode`. -/
  eucKrEncode : Str → List Byte
  /-- `std::str::from_utf8`. -/
  fromUtf8 : List Byte → Option Str
  /-- `String::from_utf8_lossy`. -/
  fromUtf8Lossy : List Byte → Str
  /-- `percent_encoding::percent_decode`. -/
  percentDecode : List Byte → List Byte
  /-- `str::to_lowercase`, on all of Unicode. -/
  toLowercase : Str → Str

namespace Encoding

variable (T : TextLib)

/-- Decode bytes as ISO-8859-1: every byte is the code point of the same value. -/
def latin1Decode (bytes : List Byte) : Str := bytes.map fun b => Char.ofNat b.toNat

/-- A byte is the code point of its character. -/
lemma toNat_ofNat_byte (b : Byte) : (Char.ofNat b.toNat).toNat = b.toNat := by
  have hall : ∀ n : Fin 256, (Char.ofNat n).toNat = n := by decide +kernel
  exact hall b.toFin

/-- Encode a string as ISO-8859-1, with `?` for anything above U+00FF. -/
def latin1Encode (s : Str) : List Byte :=
  s.map fun c => if c.toNat ≤ 0xFF then BitVec.ofNat 8 c.toNat else BitVec.ofNat 8 '?'.toNat

def cp949Decode (bytes : List Byte) : Str := T.eucKrDecode bytes

def cp949Encode (s : Str) : List Byte := T.eucKrEncode s

def utf8DecodeLossy (bytes : List Byte) : Str := T.fromUtf8Lossy bytes

/-- The 27 characters windows-1252 puts in 0x80..=0x9F, with their byte. -/
def windows1252High : List (ℕ × Byte) := [
  (0x20AC, 0x80), (0x201A, 0x82), (0x0192, 0x83), (0x201E, 0x84), (0x2026, 0x85),
  (0x2020, 0x86), (0x2021, 0x87), (0x02C6, 0x88), (0x2030, 0x89), (0x0160, 0x8A),
  (0x2039, 0x8B), (0x0152, 0x8C), (0x017D, 0x8E), (0x2018, 0x91), (0x2019, 0x92),
  (0x201C, 0x93), (0x201D, 0x94), (0x2022, 0x95), (0x2013, 0x96), (0x2014, 0x97),
  (0x02DC, 0x98), (0x2122, 0x99), (0x0161, 0x9A), (0x203A, 0x9B), (0x0153, 0x9C),
  (0x017E, 0x9E), (0x0178, 0x9F)]

/-- Turn a windows-1252 spelling into the ISO-8859-1 one, or `none` when the string has none
of windows-1252's own characters. -/
def windows1252ToLatin1 (s : Str) : Option Str :=
  let replaced (c : Char) : Option Byte := windows1252High.lookup c.toNat
  let out := s.map fun c =>
    match replaced c with
    | some b => Char.ofNat b.toNat
    | none => c
  if s.any fun c => (replaced c).isSome then some out else none

/-- Reverse the client's mojibake spelling. -/
def decodeMojibake (s : Str) : Str := cp949Decode T (latin1Encode s)

/-- The spelling the client will ask for. -/
def toMojibake (s : Str) : Str := latin1Decode (cp949Encode T s)

/-- Count the characters that signal a wrong decode: U+FFFD and the C1 controls. -/
def countBadChars (s : Str) : ℕ :=
  (s.filter fun c => c.toNat = 0xFFFD ∨ 0x80 ≤ c.toNat ∧ c.toNat ≤ 0x9F).length

end Encoding

/-- Filename encodings the loader can pick between. -/
inductive FilenameEncoding where
  | utf8
  | cp949
deriving DecidableEq, Repr

namespace FilenameEncoding

def decode (T : TextLib) : FilenameEncoding → List Byte → Str
  | .utf8, bytes => Encoding.utf8DecodeLossy T bytes
  | .cp949, bytes => Encoding.cp949Decode T bytes

end FilenameEncoding

namespace Encoding

variable (T : TextLib)

/-- A name with a byte outside ASCII. -/
def hasHighByte (bytes : List Byte) : Bool := bytes.any fun b => 0x7F < b.toNat

/-- Decode the sampled names that have high bytes both ways and keep the encoding with fewer
bad characters per byte.  The ratios are exact. -/
def detectBestEncoding (samples : List (List Byte)) (threshold : ℚ) : FilenameEncoding :=
  let counted := samples.filter hasHighByte
  let totalBytes := (counted.map List.length).sum
  let utf8Bad := (counted.map fun bytes => countBadChars (utf8DecodeLossy T bytes)).sum
  let cp949Bad := (counted.map fun bytes => countBadChars (cp949Decode T bytes)).sum
  if counted = [] then .utf8
  else if (utf8Bad : ℚ) / totalBytes < threshold then .utf8
  else if (cp949Bad : ℚ) / totalBytes < (utf8Bad : ℚ) / totalBytes then .cp949
  else .utf8

/-- Lowercase the way JavaScript does: full Unicode, not ASCII only. -/
def jsLowercase (s : Str) : Str :=
  if s.all fun c => c.toNat < 0x80 then s.map Char.toLower else T.toLowercase s

end Encoding

/-- The value of a hex digit. -/
def hexValue (b : Byte) : Option ℕ :=
  let n := b.toNat
  if '0'.toNat ≤ n ∧ n ≤ '9'.toNat then some (n - '0'.toNat)
  else if 'a'.toNat ≤ n ∧ n ≤ 'f'.toNat then some (n - 'a'.toNat + 10)
  else if 'A'.toNat ≤ n ∧ n ≤ 'F'.toNat then some (n - 'A'.toNat + 10)
  else none

/-- Replace each `%` with two hex digits behind it by the byte they spell. -/
def decodeEscapes : List Byte → List Byte
  | b :: h :: l :: rest =>
    match hexValue h, hexValue l with
    | some high, some low =>
      if b.toNat = '%'.toNat then BitVec.ofNat 8 (high * 16 + low) :: decodeEscapes rest
      else b :: decodeEscapes (h :: l :: rest)
    | _, _ => b :: decodeEscapes (h :: l :: rest)
  | bytes => bytes

/-- The text functions on ASCII, where all decoders of names agree. -/
def TextLib.ascii : TextLib where
  eucKrDecode := Encoding.latin1Decode
  eucKrEncode := Encoding.latin1Encode
  fromUtf8 := fun bytes =>
    if Encoding.hasHighByte bytes then none else some (Encoding.latin1Decode bytes)
  fromUtf8Lossy := Encoding.latin1Decode
  percentDecode := decodeEscapes
  toLowercase := List.map Char.toLower

end RemoteClient
