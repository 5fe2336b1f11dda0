/-
# UTF-8

Texts as bytes and back: `decode` accepts exactly what `encode` writes.  A byte below 128 stands
for a character of its own, so that a separator of the text is one of its bytes and no other
character has it.
-/
import Mathlib.Data.BitVec

namespace RemoteClient
namespace Utf8

/-- The bytes of a text. -/
def encode (s : List Char) : List (BitVec 8) :=
  (String.ofList s).toUTF8.data.toList.map UInt8.toBitVec

/-- The text of some bytes, if they are one. -/
def decode (bytes : List (BitVec 8)) : Option (List Char) :=
  (ByteArray.mk (bytes.map UInt8.ofBitVec).toArray).utf8Decode?.map Array.toList

lemma encode_eq (s : List Char) :
    encode s = (s.flatMap String.utf8EncodeChar).map UInt8.toBitVec := by
  change (List.utf8Encode s).data.toList.map _ = _
  rw [List.utf8Encode, List.data_toByteArray]

@[simp] lemma encode_nil : encode [] = [] := encode_eq []

lemma encode_append (s t : List Char) : encode (s ++ t) = encode s ++ encode t := by
  simp only [encode_eq, List.flatMap_append, List.map_append]

lemma encode_cons (c : Char) (s : List Char) : encode (c :: s) = encode [c] ++ encode s :=
  encode_append [c] s

/-! ## Decoding -/

lemma ofBitVec_encode (s : List Char) :
    ByteArray.mk ((encode s).map UInt8.ofBitVec).toArray = s.utf8Encode := by
  have hbytes : (encode s).map UInt8.ofBitVec = s.flatMap String.utf8EncodeChar := by
    rw [encode_eq, List.map_map]
    exact List.map_id _
  rw [hbytes, List.utf8Encode]
  exact ByteArray.ext List.data_toByteArray.symm

/-- What is written is read back. -/
lemma decode_encode (s : List Char) : decode (encode s) = some s := by
  rw [decode, ofBitVec_encode, List.utf8Decode?_utf8Encode]
  rfl

/-- Nothing else is read. -/
lemma decode_eq_some_iff {bytes : List (BitVec 8)} {s : List Char} :
    decode bytes = some s ↔ encode s = bytes := by
  constructor
  · intro h
    obtain ⟨chars, hchars, rfl⟩ := Option.map_eq_some_iff.mp h
    have hvalid := ByteArray.isSome_utf8Decode?_iff.mp (Option.isSome_of_eq_some hchars)
    obtain ⟨m, hm⟩ := hvalid
    have hchars' : m.toArray = chars := by
      rw [hm, List.utf8Decode?_utf8Encode] at hchars
      exact Option.some.inj hchars
    rw [← hchars']
    change encode m = bytes
    have hdata := congrArg (fun b : ByteArray => b.data.toList.map UInt8.toBitVec)
      ((ofBitVec_encode m).trans hm.symm)
    simpa [List.map_map, Function.comp_def] using hdata
  · rintro rfl
    exact decode_encode s

/-! ## ASCII -/

lemma encode_ascii {c : Char} (hc : c.toNat < 128) : encode [c] = [BitVec.ofNat 8 c.toNat] := by
  have hle : c.val.toNat ≤ 0x7f := Nat.le_of_lt_succ hc
  rw [encode_eq, List.flatMap_singleton, String.utf8EncodeChar]
  simp only [hle, if_true]
  rfl

/-- A text of ASCII characters has one byte for each. -/
lemma encode_ascii_text {s : List Char} (hs : ∀ c ∈ s, c.toNat < 128) :
    encode s = s.map fun c => BitVec.ofNat 8 c.toNat := by
  induction s with
  | nil => rfl
  | cons c s ih =>
    rw [encode_cons, encode_ascii (hs c (by simp)), ih fun d hd => hs d (List.mem_cons_of_mem _ hd)]
    rfl

/-- The bytes of the other characters are at least 128. -/
lemma le_of_mem_encode {c : Char} (hc : 128 ≤ c.toNat) {b : BitVec 8} (hb : b ∈ encode [c]) :
    128 ≤ b.toNat := by
  have hgt : ¬c.val.toNat ≤ 0x7f := by
    change ¬c.toNat ≤ 0x7f
    omega
  rw [encode_eq, List.flatMap_singleton, String.utf8EncodeChar] at hb
  simp only [hgt, if_false] at hb
  split at hb
  · simp at hb
    rcases hb with rfl | rfl <;> simp <;> omega
  · split at hb <;> simp at hb
    · rcases hb with rfl | rfl | rfl <;> simp <;> omega
    · rcases hb with rfl | rfl | rfl | rfl <;> simp <;> omega

/-- A byte below 128 is a character of the text. -/
lemma mem_of_mem_encode {s : List Char} {b : BitVec 8} (hb : b ∈ encode s) (hlow : b.toNat < 128) :
    ∃ c ∈ s, c.toNat = b.toNat := by
  induction s with
  | nil => exact absurd hb (by simp)
  | cons c s ih =>
    rw [encode_cons, List.mem_append] at hb
    rcases hb with hb | hb
    · by_cases hc : c.toNat < 128
      · rw [encode_ascii hc, List.mem_singleton] at hb
        refine ⟨c, by simp, ?_⟩
        rw [hb, BitVec.toNat_ofNat]
        omega
      · have := le_of_mem_encode (by omega) hb
        omega
    · obtain ⟨d, hd, heq⟩ := ih hb
      exact ⟨d, List.mem_cons_of_mem _ hd, heq⟩

lemma length_encode_cons (c : Char) (s : List Char) :
    (encode (c :: s)).length = c.utf8Size + (encode s).length := by
  rw [encode_cons, List.length_append, encode_eq [c], List.flatMap_singleton, List.length_map,
    String.length_utf8EncodeChar]

/-- A text has a byte for each character at least, and no more only in ASCII. -/
lemma length_le_encode (s : List Char) : s.length ≤ (encode s).length ∧
    ((encode s).length = s.length → ∀ c ∈ s, c.toNat < 128) := by
  induction s with
  | nil => exact ⟨le_rfl, fun _ c hc => absurd hc (by simp)⟩
  | cons c s ih =>
    have hpos := Char.utf8Size_pos c
    rw [length_encode_cons, List.length_cons]
    refine ⟨by omega, fun h d hd => ?_⟩
    have hone : c.utf8Size = 1 := by omega
    rcases List.mem_cons.mp hd with rfl | hd
    · exact Nat.lt_succ_of_le (UInt32.le_iff_toNat_le.mp (Char.utf8Size_eq_one_iff.mp hone))
    · exact ih.2 (by omega) d hd

end Utf8
end RemoteClient
