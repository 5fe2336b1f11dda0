/-
# The one-round cipher of encrypted entries

The bodies of encrypted entries, and the filenames of 0x1xx archives, go through a cipher
that looks like DES and is not: one round, a fixed S-box table and a periodic byte shuffle.
The functions here are those of `des.rs`, on a buffer that is a list of bytes; where the
source indexes a table with a computed byte, or takes a slice of the buffer, so does the
model, and an index out of range is a panic.
-/
import RemoteClient.Lib.BitTable
import RemoteClient.Lib.Blocks

namespace RemoteClient
namespace Des

open Exec BitTable Blocks

/-! ## Tables -/

def initialPermutationTable : Vector ℕ 64 := #v[
  58, 50, 42, 34, 26, 18, 10, 2, 60, 52, 44, 36, 28, 20, 12, 4,
  62, 54, 46, 38, 30, 22, 14, 6, 64, 56, 48, 40, 32, 24, 16, 8,
  57, 49, 41, 33, 25, 17, 9, 1, 59, 51, 43, 35, 27, 19, 11, 3,
  61, 53, 45, 37, 29, 21, 13, 5, 63, 55, 47, 39, 31, 23, 15, 7]

def finalPermutationTable : Vector ℕ 64 := #v[
  40, 8, 48, 16, 56, 24, 64, 32, 39, 7, 47, 15, 55, 23, 63, 31,
  38, 6, 46, 14, 54, 22, 62, 30, 37, 5, 45, 13, 53, 21, 61, 29,
  36, 4, 44, 12, 52, 20, 60, 28, 35, 3, 43, 11, 51, 19, 59, 27,
  34, 2, 42, 10, 50, 18, 58, 26, 33, 1, 41, 9, 49, 17, 57, 25]

def transpositionTable : Vector ℕ 32 := #v[
  16, 7, 20, 21, 29, 12, 28, 17, 1, 15, 23, 26, 5, 18, 31, 10,
  2, 8, 24, 14, 32, 27, 3, 9, 19, 13, 30, 6, 22, 11, 4, 25]

def substitutionBoxTable : Vector (Vector Byte 64) 4 := #v[#v[
  0xef, 0x03, 0x41, 0xfd, 0xd8, 0x74, 0x1e, 0x47, 0x26, 0xef, 0xfb, 0x22,
  0xb3, 0xd8, 0x84, 0x1e, 0x39, 0xac, 0xa7, 0x60, 0x62, 0xc1, 0xcd, 0xba,
  0x5c, 0x96, 0x90, 0x59, 0x05, 0x3b, 0x7a, 0x85, 0x40, 0xfd, 0x1e, 0xc8,
  0xe7, 0x8a, 0x8b, 0x21, 0xda, 0x43, 0x64, 0x9f, 0x2d, 0x14, 0xb1, 0x72,
  0xf5, 0x5b, 0xc8, 0xb6, 0x9c, 0x37, 0x76, 0xec, 0x39, 0xa0, 0xa3, 0x05,
  0x52, 0x6e, 0x0f, 0xd9], #v[
  0xa7, 0xdd, 0x0d, 0x78, 0x9e, 0x0b, 0xe3, 0x95, 0x60, 0x36, 0x36, 0x4f,
  0xf9, 0x60, 0x5a, 0xa3, 0x11, 0x24, 0xd2, 0x87, 0xc8, 0x52, 0x75, 0xec,
  0xbb, 0xc1, 0x4c, 0xba, 0x24, 0xfe, 0x8f, 0x19, 0xda, 0x13, 0x66, 0xaf,
  0x49, 0xd0, 0x90, 0x06, 0x8c, 0x6a, 0xfb, 0x91, 0x37, 0x8d, 0x0d, 0x78,
  0xbf, 0x49, 0x11, 0xf4, 0x23, 0xe5, 0xce, 0x3b, 0x55, 0xbc, 0xa2, 0x57,
  0xe8, 0x22, 0x74, 0xce], #v[
  0x2c, 0xea, 0xc1, 0xbf, 0x4a, 0x24, 0x1f, 0xc2, 0x79, 0x47, 0xa2, 0x7c,
  0xb6, 0xd9, 0x68, 0x15, 0x80, 0x56, 0x5d, 0x01, 0x33, 0xfd, 0xf4, 0xae,
  0xde, 0x30, 0x07, 0x9b, 0xe5, 0x83, 0x9b, 0x68, 0x49, 0xb4, 0x2e, 0x83,
  0x1f, 0xc2, 0xb5, 0x7c, 0xa2, 0x19, 0xd8, 0xe5, 0x7c, 0x2f, 0x83, 0xda,
  0xf7, 0x6b, 0x90, 0xfe, 0xc4, 0x01, 0x5a, 0x97, 0x61, 0xa6, 0x3d, 0x40,
  0x0b, 0x58, 0xe6, 0x3d], #v[
  0x4d, 0xd1, 0xb2, 0x0f, 0x28, 0xbd, 0xe4, 0x78, 0xf6, 0x4a, 0x0f, 0x93,
  0x8b, 0x17, 0xd1, 0xa4, 0x3a, 0xec, 0xc9, 0x35, 0x93, 0x56, 0x7e, 0xcb,
  0x55, 0x20, 0xa0, 0xfe, 0x6c, 0x89, 0x17, 0x62, 0x17, 0x62, 0x4b, 0xb1,
  0xb4, 0xde, 0xd1, 0x87, 0xc9, 0x14, 0x3c, 0x4a, 0x7e, 0xa8, 0xe2, 0x7d,
  0xa0, 0x9f, 0xf6, 0x5c, 0x6a, 0x09, 0x8d, 0xf0, 0x0f, 0xe3, 0x53, 0x25,
  0x95, 0x36, 0x28, 0xcb]]

/-- The swapped pairs of the byte substitution, one after the other. -/
def shuffleList : Vector Byte 14 := #v[
  0x00, 0x2b, 0x6c, 0x80, 0x01, 0x68, 0x48, 0x77, 0x60, 0xff, 0xb9, 0xc0, 0xfe, 0xeb]

/-- Byte substitution used by the de-shuffle step: a handful of swapped pairs, identity
everywhere else. -/
def shuffleDecTable : Vector Byte 256 :=
  (List.finRange 7).foldl
    (fun out i =>
      let a := shuffleList[2 * i.val]
      let b := shuffleList[2 * i.val + 1]
      (out.set a.toNat b a.isLt).set b.toNat a b.isLt)
    (Vector.ofFn fun i => BitVec.ofNat 8 i)

/-- `out[i] = src[SHUFFLE_PERM[i]]` for the first seven bytes; the eighth is substituted
rather than moved. -/
def shufflePerm : Vector (Fin 8) 7 := #v[3, 4, 6, 0, 1, 2, 5]

/-! ## The block transform -/

/-- Set bit `i` of half-block `half` when the bit the table names is set, for each entry of
the table.  The tables count bits from 1. -/
def permuteBits {n : ℕ} (table : Vector ℕ n) (half : ℕ) (src : Block) : Block :=
  (List.finRange n).foldl
    (fun tmp (i : Fin n) =>
      let j := table[i] - 1
      if bit src j then setBit tmp (32 * half + i.val) else tmp)
    (Vector.replicate 8 0)

def initialPermutation (block : Block) : Block := permuteBits initialPermutationTable 0 block

def finalPermutation (block : Block) : Block := permuteBits finalPermutationTable 0 block

def transposition (block : Block) : Block := permuteBits transpositionTable 1 block

def expansion (s : Block) : Block := #v[
  ((s[7] <<< 5) ||| (s[4] >>> 3)) &&& 0x3f,
  ((s[4] <<< 1) ||| (s[5] >>> 7)) &&& 0x3f,
  ((s[4] <<< 5) ||| (s[5] >>> 3)) &&& 0x3f,
  ((s[5] <<< 1) ||| (s[6] >>> 7)) &&& 0x3f,
  ((s[5] <<< 5) ||| (s[6] >>> 3)) &&& 0x3f,
  ((s[6] <<< 1) ||| (s[7] >>> 7)) &&& 0x3f,
  ((s[6] <<< 5) ||| (s[7] >>> 3)) &&& 0x3f,
  ((s[7] <<< 1) ||| (s[4] >>> 7)) &&& 0x3f]

/-- The mask of the round depends on the second half of the block alone. -/
lemma expansion_congr {a b : Block} (h4 : a[4] = b[4]) (h5 : a[5] = b[5]) (h6 : a[6] = b[6])
    (h7 : a[7] = b[7]) : expansion a = expansion b := by
  simp only [expansion, h4, h5, h6, h7]

/-- One look-up in S-box `i`; a byte of 64 or more is out of the table. -/
def substitute (i : Fin 4) (x : Byte) : Exec Empty Byte :=
  index substitutionBoxTable[i].toList x.toNat

/-- Each S-box fills one byte of the block. -/
lemma box_lt_eight (i : Fin 4) : i.val < 8 := by omega

def substitutionBox (s : Block) : Exec Empty Block :=
  (List.finRange 4).foldlM
    (fun tmp i => do
      let high ← substitute i s[i.val * 2]
      let low ← substitute i s[i.val * 2 + 1]
      return tmp.set i (high &&& 0xf0 ||| low &&& 0x0f) (box_lt_eight i))
    (Vector.replicate 8 0)

def roundFunction (block : Block) : Exec Empty Block := do
  let tmp2 ← substitutionBox (expansion block)
  let tmp2 := transposition tmp2
  return #v[block[0] ^^^ tmp2[4], block[1] ^^^ tmp2[5], block[2] ^^^ tmp2[6],
    block[3] ^^^ tmp2[7], block[4], block[5], block[6], block[7]]

/-- Take eight bytes of the buffer, transform them and put them back. -/
def updateBlock (f : Block → Exec Empty Block) (src : List Byte) (index : ℕ) :
    Exec Empty (List Byte) := do
  let s ← slice src index (index + 8)
  let block ← toArray 8 s
  let block ← f block
  return splice src index block.toList

/-- The transform of one block. -/
def cipherBlock (block : Block) : Exec Empty Block := do
  let block := initialPermutation block
  let block ← roundFunction block
  return finalPermutation block

def decryptBlock (src : List Byte) (index : ℕ) : Exec Empty (List Byte) :=
  updateBlock cipherBlock src index

def unshuffle (table : Vector Byte 256) (s : Block) : Block :=
  let tmp : Block := (List.finRange 7).foldl
    (fun tmp (i : Fin 7) => tmp.set i.val s[shufflePerm[i]]) (Vector.replicate 8 0)
  tmp.set 7 (table.get ⟨s[7].toNat, s[7].isLt⟩)

def reshuffle (table : Vector Byte 256) (s : Block) : Block :=
  let tmp : Block := (List.finRange 7).foldl
    (fun tmp (i : Fin 7) =>
      let k : Fin 8 := shufflePerm[i]
      tmp.set k.val s[i.val])
    (Vector.replicate 8 0)
  tmp.set 7 (table.get ⟨s[7].toNat, s[7].isLt⟩)

/-- Where the shuffle puts each of the first seven bytes. -/
lemma unshuffle_eq (table : Vector Byte 256) (s : Block) :
    unshuffle table s = #v[s[3], s[4], s[6], s[0], s[1], s[2], s[5],
      table.get ⟨s[7].toNat, s[7].isLt⟩] := by
  apply Vector.ext
  intro i hi
  have hcase : i = 0 ∨ i = 1 ∨ i = 2 ∨ i = 3 ∨ i = 4 ∨ i = 5 ∨ i = 6 ∨ i = 7 := by omega
  rcases hcase with rfl | rfl | rfl | rfl | rfl | rfl | rfl | rfl <;> rfl

lemma reshuffle_eq (table : Vector Byte 256) (s : Block) :
    reshuffle table s = #v[s[3], s[4], s[5], s[0], s[1], s[6], s[2],
      table.get ⟨s[7].toNat, s[7].isLt⟩] := by
  apply Vector.ext
  intro i hi
  have hcase : i = 0 ∨ i = 1 ∨ i = 2 ∨ i = 3 ∨ i = 4 ∨ i = 5 ∨ i = 6 ∨ i = 7 := by omega
  rcases hcase with rfl | rfl | rfl | rfl | rfl | rfl | rfl | rfl <;> rfl

def shuffleDec (src : List Byte) (index : ℕ) (table : Vector Byte 256) :
    Exec Empty (List Byte) :=
  updateBlock (fun s => .ok (unshuffle table s)) src index

def shuffleEnc (src : List Byte) (index : ℕ) (table : Vector Byte 256) :
    Exec Empty (List Byte) :=
  updateBlock (fun s => .ok (reshuffle table s)) src index

/-! ## The two encryption modes -/

/-- The spacing of the transformed blocks, from the number of decimal digits of the entry's
compressed size. -/
def cycleFor (entryLength : BitVec 32) : ℕ :=
  let digits := (toString entryLength.toNat).length
  if digits < 3 then 1
  else if digits < 5 then digits + 1
  else if digits < 7 then digits + 9
  else digits + 15

/-- The whole blocks of the buffer within `length`. -/
def blockCount (src : List Byte) (length : ℕ) : ℕ := min length src.length >>> 3

/-- The loop every mode begins with: the first 20 blocks. -/
def leadBlocks (nblocks : ℕ) (src : List Byte) : Exec Empty (List Byte) :=
  (List.range (min 20 nblocks)).foldlM (fun src i => decryptBlock src (i * 8)) src

/-- One turn of the loop of mode 0 behind the first 20 blocks.  `j` starts at -1, so that
the first shuffled block is the 8th one that is not transformed. -/
def mixedStep (shuffle : List Byte → ℕ → Vector Byte 256 → Exec Empty (List Byte)) (cycle : ℕ) :
    List Byte × ℤ → ℕ → Exec Empty (List Byte × ℤ)
  | (src, j), i =>
    if i % cycle = 0 then do
      let src ← decryptBlock src (i * 8)
      return (src, j)
    else
      let j := j + 1
      if j ≠ 0 ∧ j % 7 = 0 then do
        let src ← shuffle src (i * 8) shuffleDecTable
        return (src, j)
      else .ok (src, j)

/-- Encryption mode 0 in either direction: the first 20 blocks, then a sparse mix of
transformed and byte-shuffled blocks. -/
def mixed (shuffle : List Byte → ℕ → Vector Byte 256 → Exec Empty (List Byte))
    (src : List Byte) (length : ℕ) (entryLength : BitVec 32) : Exec Empty (List Byte) := do
  let cycle := cycleFor entryLength
  let nblocks := blockCount src length
  let src ← leadBlocks nblocks src
  let (src, _) ← (List.range' 20 (nblocks - 20)).foldlM (mixedStep shuffle cycle) (src, -1)
  return src

def decodeFull (src : List Byte) (length : ℕ) (entryLength : BitVec 32) :
    Exec Empty (List Byte) :=
  mixed shuffleDec src length entryLength

/-- Encryption mode 1: the first 20 blocks only; the rest is plaintext. -/
def decodeHeader (src : List Byte) (length : ℕ) : Exec Empty (List Byte) :=
  leadBlocks (blockCount src length) src

/-- Inverse of `decodeFull`. -/
def encodeFull (src : List Byte) (length : ℕ) (entryLength : BitVec 32) :
    Exec Empty (List Byte) :=
  mixed shuffleEnc src length entryLength

/-- Inverse of `decodeHeader`, which is `decodeHeader` itself. -/
def encodeHeader (src : List Byte) (length : ℕ) : Exec Empty (List Byte) :=
  decodeHeader src length

end Des
end RemoteClient
