/-
# The ciphers of protected entries

The body of a protected entry goes through one of five decoders, built from AES, CHAM,
3-Way, IDEA and RC6.  AES and the hashes are library code (`Crypto`); the others are written
out in the source and so they are here.  The decoders take slices whose ends are computed
from the lengths an archive declares: each is a slice of the model.

The script that generates the fixtures has CHAM, IDEA, RC6 and 3-Way of its own, written
independently of the decoder's; they stand at the end, under its namespace.
-/
import RemoteClient.Lib.Blocks
import RemoteClient.Grf.Types

namespace RemoteClient
namespace Grf
namespace Ciphers

open Exec Blocks

variable (C : Crypto)

/-! ## Words -/

/-- `u32::from_be_bytes` of bytes `4 * i` to `4 * i + 3`. -/
def beWord {n : ℕ} (b : Vector Byte (4 * n)) (i : Fin n) : BitVec 32 :=
  b[4 * i.val] ++ b[4 * i.val + 1] ++ b[4 * i.val + 2] ++ b[4 * i.val + 3]

/-- `u32::from_le_bytes` of bytes `4 * i` to `4 * i + 3`. -/
def leWord {n : ℕ} (b : Vector Byte (4 * n)) (i : Fin n) : BitVec 32 :=
  b[4 * i.val + 3] ++ b[4 * i.val + 2] ++ b[4 * i.val + 1] ++ b[4 * i.val]

/-- The lowest `k` bytes of a word, lowest first. -/
def wordBytes {w : ℕ} (k : ℕ) (x : BitVec w) : Vector Byte k :=
  Vector.ofFn fun i => x.extractLsb' (8 * i.val) 8

/-- `to_be_bytes` of each word, one after the other. -/
def joinBe {n : ℕ} (ws : Vector (BitVec 32) n) : Vector Byte (n * 4) :=
  (ws.map fun x => (wordBytes 4 x).reverse).flatten

/-- `to_le_bytes` of each word, one after the other. -/
def joinLe {n : ℕ} (ws : Vector (BitVec 32) n) : Vector Byte (n * 4) :=
  (ws.map fun x => wordBytes 4 x).flatten

def xorBlocks {n : ℕ} (a b : Vector Byte n) : Vector Byte n := Vector.zipWith (· ^^^ ·) a b

/-! ## AES and CHAM, chained -/

/-- CBC: each block is decrypted and the encrypted block before it is taken off. -/
def cbcDecrypt (decrypt : Vector Byte 16 → Vector Byte 16) (data : List Byte)
    (iv : Vector Byte 16) : Exec Empty (List Byte) := do
  let (data, _) ← mapChunks
    (fun previous block => (xorBlocks (decrypt block) previous, block))
    (data.length / 16) iv data
  return data

def aesCbcDecrypt (data : List Byte) (key iv : Vector Byte 16) : Exec Empty (List Byte) :=
  cbcDecrypt (C.aesDecryptBlock key) data iv

def chamKeys (key : Vector Byte 16) : Vector (BitVec 32) 8 :=
  (List.finRange 4).foldl
    (fun keys i =>
      let value := beWord (n := 4) key i
      let keys := keys.set i.val (value ^^^ value.rotateLeft 1 ^^^ value.rotateLeft 8)
      keys.set (Fin.ofNat 8 ((i.val + 4) ^^^ 1))
        (value ^^^ value.rotateLeft 1 ^^^ value.rotateLeft 11))
    (Vector.replicate 8 0)

def chamRound (keys : Vector (BitVec 32) 8) (words : Vector (BitVec 32) 4) (round : ℕ) :
    Vector (BitVec 32) 4 :=
  let i := Fin.ofNat 4 round
  let right := if round &&& 1 = 1 then 1 else 8
  let neighbor := if round &&& 1 = 1 then 8 else 1
  words.set i
    ((words[i].rotateRight right - (words[i + 1].rotateLeft neighbor ^^^
      keys[Fin.ofNat 8 round])) ^^^ BitVec.ofNat 32 round)

def chamBlock (keys : Vector (BitVec 32) 8) (block : Vector Byte 16) : Vector Byte 16 :=
  let words : Vector (BitVec 32) 4 := Vector.ofFn (beWord (n := 4) block)
  joinBe ((List.range 80).reverse.foldl (chamRound keys) words)

def chamCbcDecrypt (data : List Byte) (key iv : Vector Byte 16) : Exec Empty (List Byte) :=
  cbcDecrypt (chamBlock (chamKeys key)) data iv

/-! ## 3-Way -/

def threewayTheta (a b c : BitVec 32) : BitVec 32 × BitVec 32 × BitVec 32 :=
  let mix := (a ^^^ b ^^^ c).rotateLeft 16 ^^^ (a ^^^ b ^^^ c).rotateLeft 8
  let u := (a <<< 24) ^^^ (c >>> 8) ^^^ (b <<< 8) ^^^ (a >>> 24)
  let v := (b <<< 24) ^^^ (a >>> 8) ^^^ (c <<< 8) ^^^ (b >>> 24)
  (a ^^^ mix ^^^ u, b ^^^ mix ^^^ v, c ^^^ mix ^^^ (u >>> 16) ^^^ (v <<< 16))

def threewayRound (k : Vector (BitVec 32) 3) :
    (BitVec 32 × BitVec 32 × BitVec 32) × BitVec 32 → (BitVec 32 × BitVec 32 × BitVec 32) × BitVec 32
  | ((a, b, c), rc) =>
    let (a, b, c) := threewayTheta (a ^^^ k[0] ^^^ (rc <<< 16)) (b ^^^ k[1]) (c ^^^ k[2] ^^^ rc)
    let u := a.rotateLeft 22
    let v := c.rotateLeft 1
    let rc := rc <<< 1
    (((u ^^^ (b ||| ~~~v)).rotateLeft 1, b ^^^ (v ||| ~~~u), (v ^^^ (u ||| ~~~b)).rotateLeft 22),
      if rc &&& 0x10000 ≠ 0 then rc ^^^ 0x11011 else rc)

def threewayEncrypt (key block : Vector Byte 12) : Vector Byte 12 :=
  let k : Vector (BitVec 32) 3 := Vector.ofFn (beWord (n := 3) key)
  let w : Vector (BitVec 32) 3 := Vector.ofFn (beWord (n := 3) block)
  let ((a, b, c), rc) := (List.range 11).foldl (fun s _ => threewayRound k s)
    ((w[0], w[1], w[2]), 0x0b0b)
  let (a, b, c) := threewayTheta (a ^^^ k[0] ^^^ (rc <<< 16)) (b ^^^ k[1]) (c ^^^ k[2] ^^^ rc)
  joinBe #v[a, b, c]

def threewayCfbDecrypt (data : List Byte) (key iv : Vector Byte 12) :
    Exec Empty (List Byte) := do
  let (data, _) ← mapChunks
    (fun previous block => (xorBlocks block (threewayEncrypt key previous), block))
    (data.length / 12) iv data
  return data

/-! ## IDEA -/

/-- Multiplication modulo 65537, where 0 stands for 65536. -/
def ideaMultiply (a b : BitVec 16) : BitVec 16 :=
  let a := if a = 0 then 65536 else a.toNat
  let b := if b = 0 then 65536 else b.toNat
  BitVec.ofNat 16 (a * b % 65537)

def ideaKeys (key : Vector Byte 16) : Vector (BitVec 16) 52 :=
  let value : BitVec 128 := key.foldl (fun v b => (v <<< 8) ||| b.zeroExtend 128) 0
  Vector.ofFn fun i =>
    -- The key is rotated by 25 bits before each group of eight words but the first.
    let value := value.rotateLeft (25 * (i.val / 8))
    (value >>> (112 - 16 * (i.val % 8))).truncate 16

def ideaRound (keys : Vector (BitVec 16) 52) (s : Vector (BitVec 16) 4) (r : Fin 8) :
    Vector (BitVec 16) 4 :=
  let a := ideaMultiply s[0] keys[6 * r.val]
  let b := s[1] + keys[6 * r.val + 1]
  let c := s[2] + keys[6 * r.val + 2]
  let d := ideaMultiply s[3] keys[6 * r.val + 3]
  let e := ideaMultiply (a ^^^ c) keys[6 * r.val + 4]
  let f := ideaMultiply ((b ^^^ d) + e) keys[6 * r.val + 5]
  let g := e + f
  #v[a ^^^ f, c ^^^ f, b ^^^ g, d ^^^ g]

def ideaEncrypt (block : Vector Byte 8) (keys : Vector (BitVec 16) 52) : Vector Byte 8 :=
  let words : Vector (BitVec 16) 4 := Vector.ofFn fun i => block[2 * i.val] ++ block[2 * i.val + 1]
  let s := (List.finRange 8).foldl (ideaRound keys) words
  let out : Vector (BitVec 16) 4 :=
    #v[ideaMultiply s[0] keys[48], s[2] + keys[49], s[1] + keys[50], ideaMultiply s[3] keys[51]]
  (out.map fun x => (wordBytes 2 x).reverse).flatten

def ideaMask (key input : Vector Byte 16) (iv : Vector Byte 8) : Vector Byte 16 :=
  let keys := ideaKeys key
  let first := ideaEncrypt (Vector.ofFn fun i => input[i.val] ^^^ iv[i.val]) keys
  let second := ideaEncrypt (Vector.ofFn fun i => input[8 + i.val] ^^^ first[i.val]) keys
  first ++ second

/-! ## RC6 -/

structure Rc6Schedule where
  keys : Vector (BitVec 32) 44
  words : Vector (BitVec 32) 4
  a : BitVec 32
  b : BitVec 32
  i : Fin 44
  j : Fin 4

def Rc6Schedule.step (s : Rc6Schedule) : Rc6Schedule :=
  let a := (s.keys[s.i] + s.a + s.b).rotateLeft 3
  let b := (s.words[s.j] + a + s.b).rotateLeft (a + s.b).toNat
  ⟨s.keys.set s.i a, s.words.set s.j b, a, b, s.i + 1, s.j + 1⟩

def rc6Keys (key : Vector Byte 16) : Vector (BitVec 32) 44 :=
  let start : Rc6Schedule :=
    ⟨Vector.ofFn fun i => 0xb7e15163 + BitVec.ofNat 32 i.val * 0x9e3779b9,
      Vector.ofFn (leWord (n := 4) key), 0, 0, 0, 0⟩
  ((List.range 132).foldl (fun s _ => s.step) start).keys

def rc6Round (keys : Vector (BitVec 32) 44) (s : Vector (BitVec 32) 4) (i : Fin 20) :
    Vector (BitVec 32) 4 :=
  let t := (s[1] * (s[1] * 2 + 1)).rotateLeft 5
  let u := (s[3] * (s[3] * 2 + 1)).rotateLeft 5
  let a := (s[0] ^^^ t).rotateLeft u.toNat + keys[2 * (i.val + 1)]
  let c := (s[2] ^^^ u).rotateLeft t.toNat + keys[2 * (i.val + 1) + 1]
  #v[s[1], c, s[3], a]

def rc6Encrypt (block : Vector Byte 16) (keys : Vector (BitVec 32) 44) : Vector Byte 16 :=
  let w : Vector (BitVec 32) 4 := Vector.ofFn (leWord (n := 4) block)
  let s := (List.finRange 20).foldl (rc6Round keys) #v[w[0], w[1] + keys[0], w[2], w[3] + keys[1]]
  joinLe #v[s[0] + keys[42], s[1], s[2] + keys[43], s[3]]

/-! ## The body decoders -/

/-- XOR every byte with the mask, over and over. -/
def xorMask (mask : Vector Byte 16) (l : List Byte) : List Byte :=
  l.mapIdx fun i value => value ^^^ mask[Fin.ofNat 16 i]

@[simp] lemma length_xorMask (mask : Vector Byte 16) (l : List Byte) :
    (xorMask mask l).length = l.length := List.length_mapIdx

def decryptBodyTail (cipherId : BitVec 16) (parameters : Vector Byte 64)
    (filenameHash outputHash : Vector Byte 16) (tail : List Byte) : Exec Empty (List Byte) := do
  let maskIv : Vector Byte 8 ← subarray parameters.toList 49 57
  let mask :=
    if cipherId = 128 then ideaMask outputHash filenameHash maskIv
    else ideaMask filenameHash outputHash maskIv
  if cipherId = 128 then
    let (start, size) :=
      if tail.length < 3072 then (0, tail.length / 16 * 16) else (2048, 1024)
    let key : Vector Byte 16 ← subarray parameters.toList 44 60
    let iv : Vector Byte 16 ← subarray parameters.toList 28 44
    let block ← slice tail start (start + size)
    let block ← aesCbcDecrypt C block key iv
    return xorMask mask (splice tail start block)
  else
    let key : Vector Byte 16 ← subarray parameters.toList 24 40
    let keys := rc6Keys key
    let previous : Vector Byte 16 ← subarray parameters.toList 40 56
    let size := min (tail.length / 16 * 16) 1024
    let block ← slice tail 0 size
    let (block, _) ← mapChunks
      (fun previous block => (xorBlocks block (rc6Encrypt previous keys), block))
      (block.length / 16) previous block
    return xorMask mask (splice tail 0 block)

/-- Key, vector and mask of an older protected body. -/
def legacyMaterial (cipherId : BitVec 16) (parameters : Vector Byte 64)
    (filenameHash outputHash : Vector Byte 16) :
    Exec IoError (Vector Byte 16 × Vector Byte 16 × Vector Byte 16) := do
  if cipherId = 5 then
    let key : Vector Byte 16 ← subarray parameters.toList 0 16
    let iv : Vector Byte 16 ← subarray parameters.toList 16 32
    let maskIv : Vector Byte 8 ← subarray parameters.toList 48 56
    return (key, iv, ideaMask filenameHash outputHash maskIv)
  else
    let key : Vector Byte 16 ← subarray parameters.toList 28 44
    let iv : Vector Byte 16 ← subarray parameters.toList 44 60
    let maskIv : Vector Byte 8 ← subarray parameters.toList 52 60
    return (key, iv, ideaMask outputHash filenameHash maskIv)

/-- Check and remove the PKCS#7 padding of a decrypted prefix that carries `length` bytes,
and unmask the suffix that moves up to it. -/
def removePadding (mask : Vector Byte 16) (length encryptedLength compressedLength : ℕ)
    (tail : List Byte) : Exec IoError (List Byte) := do
  let last ← sub encryptedLength 1
  let lastByte ← index tail last
  let padding := lastByte.toNat
  if padding < 1 ∨ 16 < padding then
    fail (invalidData "Invalid protected GRF AES body PKCS#7 padding")
  else
    let unpadded ← sub encryptedLength padding
    if unpadded ≠ length then
      fail (invalidData "Invalid protected GRF AES body PKCS#7 padding")
    else
      let pad ← slice tail length encryptedLength
      if pad.any fun byte => byte.toNat != padding then
        fail (invalidData "Invalid protected GRF AES body PKCS#7 padding")
      else
        -- `copy_within`: the suffix moves down over the padding.
        let moved ← slice tail encryptedLength tail.length
        let room ← sub tail.length moved.length
        if room < length then crash
        else
          let tail := splice tail length moved
          let rest ← slice tail length compressedLength
          return splice tail length (xorMask mask rest)

/-- Older protected bodies: an AES prefix with PKCS#7 padding, then an XOR suffix. -/
def decryptLegacyTail (cipherId : BitVec 16) (parameters : Vector Byte 64)
    (filenameHash outputHash : Vector Byte 16) (tail : List Byte) (compressedLength : ℕ) :
    Exec IoError (List Byte) := do
  let length := min compressedLength 1024
  let encryptedLength := (length / 16 + 1) * 16
  if tail.length < encryptedLength then
    fail (invalidData "Protected GRF AES body padding size mismatch")
  else
    let left ← sub tail.length encryptedLength
    let suffix ← sub compressedLength length
    if left ≠ suffix then fail (invalidData "Protected GRF AES body padding size mismatch")
    else
      let (key, iv, mask) ← legacyMaterial cipherId parameters filenameHash outputHash
      let block ← slice tail 0 encryptedLength
      let block ← lift (aesCbcDecrypt C block key iv)
      removePadding mask length encryptedLength compressedLength (splice tail 0 block)

/-- One turn of the second pass over a body of cipher 1: a rotation by words and a chained
XOR. -/
def chamUnchain (seededNameHash previous original : Vector Byte 16) : Vector Byte 16 :=
  Vector.ofFn fun i : Fin 16 =>
    let rotated : Fin 16 := i + 12
    original[rotated] ^^^ seededNameHash[rotated] ^^^ previous[i]

def decryptChamTail (parameters : Vector Byte 64) (seededNameHash outputHash : Vector Byte 16)
    (tail : List Byte) : Exec Empty (List Byte) := do
  let high : Vector Byte 8 ← subarray seededNameHash.toList 8 16
  let seed := BitVec.ofNat 64 (Bytes.leNat high.toList)
  let material ← slice parameters.toList 0 60
  let key := wordBytes 16 (C.xxh3_128WithSeed material seed)
  let fullLength := tail.length / 16 * 16
  let prefixLength := min fullLength 1024
  let block ← slice tail 0 prefixLength
  let block ← chamCbcDecrypt block key outputHash
  let tail := splice tail 0 block
  let full ← slice tail 0 fullLength
  let (full, previous) ← mapChunks
    (fun previous original => (chamUnchain seededNameHash previous original, original))
    (full.length / 16) outputHash full
  let tail := splice tail 0 full
  let rest ← slice tail fullLength tail.length
  let rest ← rest.zipIdx.mapM fun (value, i) => do
    let name ← index seededNameHash.toList i
    let chained ← index previous.toList i
    return value ^^^ (name ^^^ chained)
  return splice tail fullLength rest

end Ciphers

namespace Generate

open Blocks Ciphers

/-! ## The script's ciphers -/

/-- `rotate_left`, and `rol` on a word of 32 bits. -/
def rotateLeft (value : BitVec 32) (count : ℕ) : BitVec 32 :=
  (value <<< count) ||| (value >>> (32 - count))

/-- `_rol`, which takes the count modulo 32. -/
def maskedRol (value : BitVec 32) (count : ℕ) : BitVec 32 :=
  let count := count % 32
  (value <<< count) ||| (value >>> ((32 - count) % 32))

def chamKeys (key : Vector Byte 16) : Vector (BitVec 32) 8 :=
  (List.finRange 4).foldl
    (fun keys index =>
      let word := beWord (n := 4) key index
      let keys := keys.set index.val (word ^^^ rotateLeft word 1 ^^^ rotateLeft word 8)
      keys.set (Fin.ofNat 8 ((index.val + 4) ^^^ 1))
        (word ^^^ rotateLeft word 1 ^^^ rotateLeft word 11))
    (Vector.replicate 8 0)

def chamEncryptRound (keys : Vector (BitVec 32) 8) (words : Vector (BitVec 32) 4) (r : ℕ) :
    Vector (BitVec 32) 4 :=
  let i := Fin.ofNat 4 r
  let neighbor := rotateLeft words[i + 1] (if r &&& 1 = 1 then 8 else 1)
  words.set i
    (rotateLeft ((words[i] ^^^ BitVec.ofNat 32 r) + (neighbor ^^^ keys[Fin.ofNat 8 r]))
      (if r &&& 1 = 1 then 1 else 8))

def chamEncrypt (block : Vector Byte 16) (keys : Vector (BitVec 32) 8) : Vector Byte 16 :=
  let words : Vector (BitVec 32) 4 := Vector.ofFn (beWord (n := 4) block)
  joinBe ((List.range 80).foldl (chamEncryptRound keys) words)

def multiply (a b : BitVec 16) : BitVec 16 :=
  let a := if a = 0 then 65536 else a.toNat
  let b := if b = 0 then 65536 else b.toNat
  BitVec.ofNat 16 (a * b % 65537)

/-- `n` turns of the loop of `_idea_keys`: eight words of each value. -/
def ideaWords : ℕ → BitVec 128 → List (BitVec 16)
  | 0, _ => []
  | n + 1, value =>
    ((List.range 8).map fun i => (value >>> (112 - 16 * i)).truncate 16) ++
      ideaWords n ((value <<< 25) ||| (value >>> 103))

/-- Seven turns are the first to reach 52 words. -/
def ideaKeys (key : Vector Byte 16) : Vector (BitVec 16) 52 :=
  let value : BitVec 128 := key.foldl (fun v b => (v <<< 8) ||| b.zeroExtend 128) 0
  ⟨((ideaWords 7 value).take 52).toArray, by simp [ideaWords]⟩

def ideaEncryptRound (keys : Vector (BitVec 16) 52) (s : Vector (BitVec 16) 4) (r : Fin 8) :
    Vector (BitVec 16) 4 :=
  let a := multiply s[0] keys[6 * r.val]
  let b := s[1] + keys[6 * r.val + 1]
  let c := s[2] + keys[6 * r.val + 2]
  let d := multiply s[3] keys[6 * r.val + 3]
  let e := multiply (a ^^^ c) keys[6 * r.val + 4]
  let f := multiply ((b ^^^ d) + e) keys[6 * r.val + 5]
  let g := e + f
  #v[a ^^^ f, c ^^^ f, b ^^^ g, d ^^^ g]

def ideaEncrypt (block : Vector Byte 8) (keys : Vector (BitVec 16) 52) : Vector Byte 8 :=
  let words : Vector (BitVec 16) 4 := Vector.ofFn fun i => block[2 * i.val] ++ block[2 * i.val + 1]
  let s := (List.finRange 8).foldl (ideaEncryptRound keys) words
  let out : Vector (BitVec 16) 4 :=
    #v[multiply s[0] keys[48], s[2] + keys[49], s[1] + keys[50], multiply s[3] keys[51]]
  (out.map fun x => (wordBytes 2 x).reverse).flatten

/-- The mask of a body: two chained blocks of IDEA. -/
def bodyMask (key source : Vector Byte 16) (iv : Vector Byte 8) : Vector Byte 16 :=
  let keys := ideaKeys key
  let first := ideaEncrypt (Vector.ofFn fun i => source[i.val] ^^^ iv[i.val]) keys
  let second := ideaEncrypt (Vector.ofFn fun i => source[8 + i.val] ^^^ first[i.val]) keys
  first ++ second

def rc6Step (s : Rc6Schedule) : Rc6Schedule :=
  let a := maskedRol (s.keys[s.i] + s.a + s.b) 3
  let b := maskedRol (s.words[s.j] + a + s.b) (a.toNat + s.b.toNat)
  ⟨s.keys.set s.i a, s.words.set s.j b, a, b, s.i + 1, s.j + 1⟩

def rc6Keys (key : Vector Byte 16) : Vector (BitVec 32) 44 :=
  let start : Rc6Schedule :=
    ⟨Vector.ofFn fun i => 0xb7e15163 + BitVec.ofNat 32 i.val * 0x9e3779b9,
      Vector.ofFn (leWord (n := 4) key), 0, 0, 0, 0⟩
  ((List.range 132).foldl (fun s _ => rc6Step s) start).keys

def rc6EncryptRound (keys : Vector (BitVec 32) 44) (s : Vector (BitVec 32) 4) (i : Fin 20) :
    Vector (BitVec 32) 4 :=
  let t := maskedRol (s[1] * ((2 : BitVec 32) * s[1] + 1)) 5
  let u := maskedRol (s[3] * ((2 : BitVec 32) * s[3] + 1)) 5
  let a := maskedRol (s[0] ^^^ t) u.toNat + keys[2 * (i.val + 1)]
  let c := maskedRol (s[2] ^^^ u) t.toNat + keys[2 * (i.val + 1) + 1]
  #v[s[1], c, s[3], a]

def rc6Encrypt (block : Vector Byte 16) (keys : Vector (BitVec 32) 44) : Vector Byte 16 :=
  let w : Vector (BitVec 32) 4 := Vector.ofFn (leWord (n := 4) block)
  let s := (List.finRange 20).foldl (rc6EncryptRound keys)
    #v[w[0], w[1] + keys[0], w[2], w[3] + keys[1]]
  joinLe #v[s[0] + keys[42], s[1], s[2] + keys[43], s[3]]

def theta (a b c : BitVec 32) : BitVec 32 × BitVec 32 × BitVec 32 :=
  let mix := rotateLeft (a ^^^ b ^^^ c) 16 ^^^ rotateLeft (a ^^^ b ^^^ c) 8
  let u := (a <<< 24) ^^^ (c >>> 8) ^^^ (b <<< 8) ^^^ (a >>> 24)
  let v := (b <<< 24) ^^^ (a >>> 8) ^^^ (c <<< 8) ^^^ (b >>> 24)
  (a ^^^ mix ^^^ u, b ^^^ mix ^^^ v, c ^^^ mix ^^^ (u >>> 16) ^^^ (v <<< 16))

def threewayEncryptRound (k : Vector (BitVec 32) 3) :
    (BitVec 32 × BitVec 32 × BitVec 32) × BitVec 32 →
      (BitVec 32 × BitVec 32 × BitVec 32) × BitVec 32
  | ((a, b, c), rc) =>
    let (a, b, c) := theta (a ^^^ k[0] ^^^ (rc <<< 16)) (b ^^^ k[1]) (c ^^^ k[2] ^^^ rc)
    let u := rotateLeft a 22
    let v := rotateLeft c 1
    let rc := rc <<< 1
    ((rotateLeft (u ^^^ (b ||| ~~~v)) 1, b ^^^ (v ||| ~~~u), rotateLeft (v ^^^ (u ||| ~~~b)) 22),
      if rc &&& 0x10000 ≠ 0 then rc ^^^ 0x11011 else rc)

def threewayEncrypt (key block : Vector Byte 12) : Vector Byte 12 :=
  let k : Vector (BitVec 32) 3 := Vector.ofFn (beWord (n := 3) key)
  let w : Vector (BitVec 32) 3 := Vector.ofFn (beWord (n := 3) block)
  let ((a, b, c), rc) := (List.range 11).foldl (fun s _ => threewayEncryptRound k s)
    ((w[0], w[1], w[2]), 0x0b0b)
  let (a, b, c) := theta (a ^^^ k[0] ^^^ (rc <<< 16)) (b ^^^ k[1]) (c ^^^ k[2] ^^^ rc)
  joinBe #v[a, b, c]

/-- One turn of the chain of cipher 1: a block is chained to the one before it, turned by a
word and masked. -/
def chamChain (m previous block : Vector Byte 16) : Vector Byte 16 :=
  let z := xorBlocks block previous
  Vector.ofFn fun i : Fin 16 => z[i + 4] ^^^ m[i]

end Generate
end Grf
end RemoteClient
