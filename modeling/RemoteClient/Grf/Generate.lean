/-
# The encoder of protected entries

The script that generates the fixtures of the protected format was written independently
of the decoder: CHAM, IDEA, RC6 and 3-Way are its own, AES, the two compressions and the
hashes are libraries.  It writes words with `struct.pack` and cuts byte strings at fixed
offsets: where one of these raises an exception, the model panics.
-/
import RemoteClient.Grf.Protected

namespace RemoteClient
namespace Grf
namespace Generate

open Exec Bytes Blocks Ciphers

/-- The encoding half of the libraries: one AES-128 block (key, block) and the two
compressors. -/
structure Encoders where
  aesEncryptBlock : Vector Byte 16 → Vector Byte 16 → Vector Byte 16
  zlibCompress : List Byte → List Byte
  lz4Compress : List Byte → List Byte

/-- What the decoder's libraries do with the output of the encoder's: AES decryption undoes
encryption, and a decompressor takes in the whole stream and gives back what was compressed. -/
structure Encoders.Lawful (E : Encoders) (z : Flate) (C : Crypto) : Prop where
  aes : ∀ key block, C.aesDecryptBlock key (E.aesEncryptBlock key block) = block
  zlib : ∀ (data : List Byte) (room : ℕ), data.length < room →
    ∃ r, z.decompress (E.zlibCompress data) room = .ok r ∧ r.status = .streamEnd ∧
      r.totalOut = data.length ∧ r.totalIn = (E.zlibCompress data).length ∧
      r.buffer.toList.take data.length = data
  lz4 : ∀ data : List Byte, ∃ buffer,
    C.lz4DecompressInto (E.lz4Compress data) data.length = .ok (buffer, data.length) ∧
      buffer.toList = data

variable (C : Crypto) (E : Encoders)

def aesKey : Vector Byte 16 := ⟨#[
    0x56, 0xfd, 0x7e, 0x71, 0x2f, 0x6d, 0x36, 0xf5, 0x5c, 0xa5, 0x99, 0xe6, 0x7b, 0x18, 0x10, 0x7a],
  by decide⟩

def aesIv : Vector Byte 16 := ⟨#[
    0x4c, 0xe8, 0xa1, 0xae, 0x45, 0xb3, 0x21, 0x60, 0x7e, 0x4f, 0x26, 0xa4, 0xbb, 0x14, 0x0c, 0x96],
  by decide⟩

def threewayKey : Vector Byte 12 := ⟨#[
    0xad, 0x61, 0xae, 0xda, 0xbf, 0x20, 0x3e, 0x1d, 0xfe, 0x1d, 0xb7, 0x2b],
  by decide⟩

def threewayIv : Vector Byte 12 := ⟨#[
    0xa0, 0x95, 0xdf, 0xcf, 0xd0, 0x4b, 0x74, 0xdb, 0x02, 0x7e, 0xde, 0x09],
  by decide⟩

def xxh128Native (data : List Byte) : Vector Byte 16 := wordBytes 16 (C.xxh3_128 data)

/-- `AES.new(key, AES.MODE_CBC, iv).encrypt(data)`, for data of whole blocks. -/
def aesCbcEncrypt (data : List Byte) (key iv : Vector Byte 16) : Exec Empty (List Byte) :=
  if data.length % 16 ≠ 0 then crash
  else do
    let (data, _) ← mapChunks
      (fun previous block =>
        let previous := E.aesEncryptBlock key (xorBlocks block previous)
        (previous, previous))
      (data.length / 16) iv data
    return data

/-! ## The header -/

def headerEncrypt (h name : List Byte) : Exec Empty (List Byte) := do
  let kind ← index h 1
  if kind = 0x71 then
    let (out, _) ← mapChunks
      (fun previous block =>
        let previous := xorBlocks (threewayEncrypt threewayKey previous) block
        (previous, previous))
      8 threewayIv ((h.take 104).drop 8)
    return h.take 8 ++ out
  else
    let iv :=
      if kind = 1 then aesIv
      else xxh128Native C (if kind = 2 then name else (h.take 8).drop 4)
    let out ← aesCbcEncrypt E ((h.take 104).drop 8) aesKey iv
    return h.take 8 ++ out

/-! ## The tail of a body -/

/-- Cipher 128, behind the mask: a window of the tail through AES. -/
def encryptAes (params : Vector Byte 64) (encrypted : List Byte) : Exec Empty (List Byte) := do
  let (start, length) :=
    if encrypted.length < 3072 then (0, encrypted.length / 16 * 16) else (2048, 1024)
  if length = 0 then return encrypted
  else
    let key : Vector Byte 16 ← subarray params.toList 44 60
    let iv : Vector Byte 16 ← subarray params.toList 28 44
    let window ← aesCbcEncrypt E ((encrypted.drop start).take length) key iv
    return splice encrypted start window

/-- Cipher 133, behind the mask: the first blocks of the tail through RC6 with feedback. -/
def encryptRc6 (params : Vector Byte 64) (encrypted : List Byte) : Exec Empty (List Byte) := do
  let key : Vector Byte 16 ← subarray params.toList 24 40
  let prev : Vector Byte 16 ← subarray params.toList 40 56
  let keys := rc6Keys key
  let (encrypted, _) ← mapChunks
    (fun prev block =>
      let prev := xorBlocks block (rc6Encrypt prev keys)
      (prev, prev))
    (min 1024 (encrypted.length / 16 * 16) / 16) prev encrypted
  return encrypted

/-- Ciphers 5 and 7: a padded prefix through AES, and a masked suffix. -/
def encryptLegacy (cid : BitVec 16) (params : Vector Byte 64) (nameHash outputHash : Vector Byte 16)
    (tail : List Byte) : Exec Empty (List Byte) := do
  let (mask, aeskey, aesiv) ←
    if cid = 5 then (do
      let iv : Vector Byte 8 ← subarray params.toList 48 56
      let aeskey : Vector Byte 16 ← subarray params.toList 0 16
      let aesiv : Vector Byte 16 ← subarray params.toList 16 32
      pure (bodyMask nameHash outputHash iv, aeskey, aesiv))
    else (do
      let iv : Vector Byte 8 ← subarray params.toList 52 60
      let aeskey : Vector Byte 16 ← subarray params.toList 28 44
      let aesiv : Vector Byte 16 ← subarray params.toList 44 60
      pure (bodyMask outputHash nameHash iv, aeskey, aesiv))
  let length := min tail.length 1024
  let pad := 16 - length % 16
  let front ← aesCbcEncrypt E (tail.take length ++ List.replicate pad (BitVec.ofNat 8 pad))
    aeskey aesiv
  return front ++ xorMask mask (tail.drop length)

/-- Cipher 1: the chain over the tail, then its first blocks through CHAM. -/
def encryptCham (params : Vector Byte 64) (name : List Byte) (outSize : ℕ)
    (outputHash : Vector Byte 16) (tail : List Byte) : Exec Empty (List Byte) := do
  let m := wordBytes 16 (C.xxh3_128WithSeed name (BitVec.ofNat 64 outSize))
  let high : Vector Byte 8 ← subarray m.toList 8 16
  let seed := BitVec.ofNat 64 (leNat high.toList)
  let key := wordBytes 16 (C.xxh3_128WithSeed (params.toList.take 60) seed)
  let keys := chamKeys key
  let full := tail.length / 16 * 16
  let (intermediate, previous) ← mapChunks
    (fun previous block =>
      let previous := chamChain m previous block
      (previous, previous))
    (full / 16) outputHash (tail.take full)
  let rest := ((tail.drop full).zip (m.toList.zip previous.toList)).map
    fun (a, b, c) => a ^^^ b ^^^ c
  let (encrypted, _) ← mapChunks
    (fun previous block =>
      let previous := chamEncrypt (xorBlocks block previous) keys
      (previous, previous))
    (min 1024 full / 16) outputHash (intermediate ++ rest)
  return encrypted

/-- Encrypt what lies behind the 128 clear bytes of a body. -/
def encryptTail (cid : BitVec 16) (params : Vector Byte 64) (name : List Byte) (outSize : ℕ)
    (outputHash : Vector Byte 16) (tail : List Byte) : Exec Empty (List Byte) := do
  let nameHash := xxh128Native C name
  let iv : Vector Byte 8 ← subarray params.toList 49 57
  let mask :=
    if cid = 128 then bodyMask outputHash nameHash iv else bodyMask nameHash outputHash iv
  let encrypted := xorMask mask tail
  if cid = 128 then encryptAes E params encrypted
  else if cid = 133 then encryptRc6 params encrypted
  else if cid = 5 ∨ cid = 7 then encryptLegacy E cid params nameHash outputHash tail
  else if cid = 1 then encryptCham C params name outSize outputHash tail
  else return encrypted

/-! ## An entry -/

/-- The keyword arguments of `make_entry`, with their defaults. -/
structure EntryOptions where
  kind : Byte := 1
  cid : BitVec 16 := 128
  comp : Byte := 0
  kid : BitVec 32 := 0
  flags : Byte := 0
  /-- Bytes written over the header before its checksum. -/
  edits : List (ℕ × List Byte) := []
  packedOverride : Option (List Byte) := none
deriving DecidableEq, Repr

/-- `struct.pack("<I", n)`. -/
def packWord (n : ℕ) : Exec Empty (List Byte) := if n < 2 ^ 32 then .ok (leBytes 4 n) else crash

def compress (comp : Byte) (out : List Byte) : List Byte :=
  if comp = 0 then out else if comp = 1 then E.zlibCompress out else E.lz4Compress out

/-- Write the checksum of a header. -/
def writeChecksum (h : List Byte) : List Byte :=
  splice h 4 (leBytes 4 (C.xxh32 ((h.take 104).drop 8) 0).toNat)

def makeHeader (param : Vector Byte 60) (out packed : List Byte) (o : EntryOptions) :
    Exec Empty (List Byte) := do
  let size ← packWord packed.length
  let outSize ← packWord out.length
  let h : List Byte := splice (List.replicate 104 0) 0 [1, o.kind]
  let h := splice h 8 (leBytes 2 o.cid.toNat ++ [o.comp, o.flags] ++ size ++ size ++ outSize)
  let h := splice h 24 (xxh128Native C out).toList
  let h := splice h 40 (leBytes 4 o.kid.toNat)
  let h := splice h 44 param.toList
  let h := o.edits.foldl (fun h (off, val) => splice h off val) h
  return writeChecksum C h

def makeEntry (name : List Byte) (param : Vector Byte 60) (out : List Byte) (o : EntryOptions) :
    Exec Empty (List Byte) := do
  let packed := o.packedOverride.getD (compress E o.comp out)
  let h ← makeHeader C param out packed o
  let outputHash : Vector Byte 16 ← subarray h 24 40
  let masked : Vector Byte 60 := Vector.ofFn fun i =>
    param.get i ^^^ (if o.flags = 1 then outputHash.get (Fin.ofNat 16 i.val) else 0)
  let params : Vector Byte 64 := masked ++ (Vector.replicate 4 0 : Vector Byte 4)
  let tail := packed.drop 128
  let packed ←
    if tail = [] then pure packed
    else (do
      let encrypted ← encryptTail C E o.cid params name out.length outputHash tail
      pure (packed.take 128 ++ encrypted))
  let h ←
    if o.cid = 5 ∨ o.cid = 7 then (do
      let size ← packWord packed.length
      pure (splice h 12 size))
    else pure h
  let header ← headerEncrypt C E (writeChecksum C h) name
  return header ++ packed

/-! ## The key block -/

def footerHashInput : List Byte :=
  ['u', 'f', '8', 'E', '8', 'q', 'A', 'w', 'H', 't', 'h', 'r', 'L', 'x', 'i', 'S'].map
    fun c => BitVec.ofNat 8 c.toNat

/-- `struct.pack("<I", kid) + param`. -/
def packRecord (record : BitVec 32 × Vector Byte 60) : List Byte :=
  leBytes 4 record.1.toNat ++ record.2.toList

def makeFooter (records : List (BitVec 32 × Vector Byte 60)) : Exec Empty (List Byte) := do
  let decoded := records.flatMap packRecord
  let digest := C.sha256 footerHashInput
  let key : Vector Byte 16 ← subarray digest.toList 0 16
  let keys := chamKeys key
  let prev : Vector Byte 16 ← subarray digest.toList 16 32
  let size ← packWord decoded.length
  let out : List Byte := [1, 1, 0, 0] ++
    (leBytes 8 1700000000 ++ (size ++ leBytes 4 (C.xxh32 decoded 0).toNat))
  let (encrypted, _) ← mapChunks
    (fun prev block =>
      let prev := chamEncrypt (xorBlocks block prev) keys
      (prev, prev))
    (decoded.length / 16) prev decoded
  return out ++ encrypted

end Generate
end Grf
end RemoteClient
