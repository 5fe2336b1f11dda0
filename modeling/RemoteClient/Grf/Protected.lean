/-
# Protected entries

An archive's key block, the header of a protected entry, and its body: a cipher, a
compression and a content hash, with every length checked before it is used.
-/
import RemoteClient.Grf.Ciphers

namespace RemoteClient
namespace Grf

open Exec Bytes Blocks Ciphers

/-- The keys of an archive, by their id. -/
abbrev ArchiveKeys : Type := List (BitVec 32 × Vector Byte 60)

namespace Protected

variable (z : Flate) (C : Crypto)

def maxOutputSize : ℕ := 256 * 1024 * 1024

def filenameHash (raw : List Byte) : Vector Byte 16 := wordBytes 16 (C.xxh3_128 raw)

/-- Body cipher 1 uses the original filename seeded by the final output size. -/
def seededFilenameHash (raw : List Byte) (outputSize : BitVec 32) : Vector Byte 16 :=
  wordBytes 16 (C.xxh3_128WithSeed raw (outputSize.zeroExtend 64))

/-! ## The key block -/

/-- What the key of the key block is derived from. -/
def keyBlockSecret : List Byte :=
  ['u', 'f', '8', 'E', '8', 'q', 'A', 'w', 'H', 't', 'h', 'r', 'L', 'x', 'i', 'S'].map
    fun c => BitVec.ofNat 8 c.toNat

/-- Add the `n` records of 64 bytes at the start of `l`. -/
def addRecords : ℕ → List Byte → ArchiveKeys → Exec IoError ArchiveKeys
  | 0, _, keys => .ok keys
  | n + 1, l, keys => do
    let record := l.take 64
    let id ← u32Le record 0
    if id = 0 ∨ 65535 < id.toNat ∨ (keys.lookup id).isSome then
      fail (invalidData "Invalid or duplicate GRF archive key-block record")
    else
      let key : Vector Byte 60 ← subarray record 4 64
      addRecords n (l.drop 64) ((id, key) :: keys)

def decodeArchiveKeys (raw : List Byte) : Exec IoError ArchiveKeys := do
  if raw = [] then return []
  else if raw.length < 20 then
    fail (invalidData "Unsupported or truncated GRF archive key block")
  else
    let version ← slice raw 0 4
    if version ≠ [1, 1, 0, 0] then
      fail (invalidData "Unsupported or truncated GRF archive key block")
    else
      let bodySize ← u32Le raw 12
      let bodySize := bodySize.toNat
      let left ← sub raw.length 20
      if bodySize = 0 ∨ bodySize % 64 ≠ 0 ∨ 65535 < bodySize / 64 ∨ left ≠ bodySize then
        fail (invalidData "GRF archive key-block size mismatch")
      else
        let digest := C.sha256 keyBlockSecret
        let body ← slice raw 20 raw.length
        let key : Vector Byte 16 ← subarray digest.toList 0 16
        let iv : Vector Byte 16 ← subarray digest.toList 16 32
        let decoded ← lift (chamCbcDecrypt body key iv)
        let checksum ← u32Le raw 16
        if C.xxh32 decoded 0 ≠ checksum then
          fail (invalidData "GRF archive key-block checksum mismatch")
        else addRecords (decoded.length / 64) decoded []

/-! ## The header of an entry -/

def aesHeaderKey : Vector Byte 16 := #v[
  0x56, 0xfd, 0x7e, 0x71, 0x2f, 0x6d, 0x36, 0xf5, 0x5c, 0xa5, 0x99, 0xe6, 0x7b, 0x18, 0x10, 0x7a]

def aesHeaderIv : Vector Byte 16 := #v[
  0x4c, 0xe8, 0xa1, 0xae, 0x45, 0xb3, 0x21, 0x60, 0x7e, 0x4f, 0x26, 0xa4, 0xbb, 0x14, 0x0c, 0x96]

def threewayHeaderKey : Vector Byte 12 := #v[
  0xad, 0x61, 0xae, 0xda, 0xbf, 0x20, 0x3e, 0x1d, 0xfe, 0x1d, 0xb7, 0x2b]

def threewayHeaderIv : Vector Byte 12 := #v[
  0xa0, 0x95, 0xdf, 0xcf, 0xd0, 0x4b, 0x74, 0xdb, 0x02, 0x7e, 0xde, 0x09]

/-- Decrypt the 96 bytes of a header behind its type. -/
def decryptHeader (header : List Byte) (nameHash : Vector Byte 16) : Exec IoError (List Byte) := do
  let kind ← index header 1
  let body ← slice header 8 header.length
  if kind = 1 ∨ kind = 2 ∨ kind = 15 then
    let salt ← slice header 4 8
    let iv :=
      if kind = 1 then aesHeaderIv
      else if kind = 2 then nameHash
      else filenameHash C salt
    let body ← lift (aesCbcDecrypt C body aesHeaderKey iv)
    return splice header 8 body
  else if kind = 0x71 then
    let body ← lift (threewayCfbDecrypt body threewayHeaderKey threewayHeaderIv)
    return splice header 8 body
  else
    let hex := String.ofList (Nat.toDigits 16 kind.toNat)
    fail (invalidData s!"Unsupported protected GRF header type 0x{hex}")

/-- The decrypted header of 104 bytes. -/
def decodeHeader (payload : List Byte) (nameHash : Vector Byte 16) :
    Exec IoError (List Byte) := do
  if payload.length < 104 then
    fail (invalidData "Unsupported or truncated protected GRF header")
  else
    let version ← index payload 0
    if version ≠ 1 then fail (invalidData "Unsupported or truncated protected GRF header")
    else
      let header ← slice payload 0 104
      let header ← decryptHeader C header nameHash
      let body ← slice header 8 header.length
      let checksum ← u32Le header 4
      if C.xxh32 body 0 ≠ checksum then
        fail (invalidData "Protected GRF header checksum mismatch")
      else return header

/-! ## The body of an entry -/

/-- Decrypt what lies behind the 128 clear bytes of a body. -/
def decryptTail (cipherId : BitVec 16) (parameters : Vector Byte 64)
    (nameHash seededNameHash outputHash : Vector Byte 16) (tail : List Byte)
    (compressedSize : ℕ) : Exec IoError (List Byte) := do
  if cipherId = 1 then
    lift (decryptChamTail C parameters seededNameHash outputHash tail)
  else if cipherId = 5 ∨ cipherId = 7 then
    let compressedLength ← sub compressedSize 128
    decryptLegacyTail C cipherId parameters nameHash outputHash tail compressedLength
  else
    lift (decryptBodyTail C cipherId parameters nameHash outputHash tail)

/-- Decompress a decrypted body to the declared size. -/
def expandBody (compression : Byte) (body : List Byte) (expected : ℕ) :
    Exec IoError (List Byte) :=
  if compression = 0 then
    if body.length ≠ expected then
      fail (invalidData "Protected GRF stored output size mismatch")
    else .ok body
  else if compression = 1 then
    match z.decompress body (expected + 1) with
    | .error e => fail (invalidData s!"Invalid protected GRF zlib stream: {e}")
    | .ok r =>
      if r.status ≠ .streamEnd ∨ r.totalOut ≠ expected ∨ r.totalIn ≠ body.length then
        fail (invalidData "Protected GRF zlib stream is truncated or its size differs")
      else .ok (r.buffer.toList.take expected)
  else if compression = 2 then
    match C.lz4DecompressInto body expected with
    | .error e => fail (invalidData s!"Invalid protected GRF LZ4 stream: {e}")
    | .ok (output, written) =>
      if written ≠ expected then fail (invalidData "Protected GRF LZ4 output size mismatch")
      else .ok output.toList
  else crash

/-- The 60 bytes of key material: in the header, or an archive key. -/
def keyMaterial (header : List Byte) (keyId : BitVec 32) (keys : ArchiveKeys) :
    Exec IoError (Vector Byte 60) :=
  if keyId = 0 then subarray header 44 104
  else
    match keys.lookup keyId with
    | some key => .ok key
    | none =>
      let id := keyId.toNat
      fail (invalidData s!"Missing GRF archive key {id}")

def decodeEntry (payload : List Byte) (nameHash seededNameHash : Vector Byte 16)
    (realSize : BitVec 32) (keys : ArchiveKeys) : Exec IoError (List Byte) := do
  let header ← decodeHeader C payload nameHash
  let paddedSize ← u32Le header 12
  let paddedSize := paddedSize.toNat
  let compressedSize ← u32Le header 16
  let compressedSize := compressedSize.toNat
  let outputSize ← u32Le header 20
  if maxOutputSize < outputSize.toNat ∨ realSize ≠ outputSize then
    fail (invalidData "Protected GRF output size exceeds limit or differs from file table")
  else
    let room ← sub payload.length 104
    if room < paddedSize ∨ paddedSize < compressedSize then
      fail (invalidData "Protected GRF body size lies outside payload")
    else
      let idBytes ← slice header 8 10
      let cipherId := BitVec.ofNat 16 (leNat idBytes)
      if cipherId ≠ 1 ∧ cipherId ≠ 5 ∧ cipherId ≠ 7 ∧ cipherId ≠ 128 ∧ cipherId ≠ 133 then
        let id := cipherId.toNat
        fail (invalidData s!"Unsupported protected GRF body cipher {id}")
      else
        let compression ← index header 10
        let flags ← index header 11
        if 2 < compression.toNat then
          let id := compression.toNat
          fail (invalidData s!"Unsupported protected GRF compression {id}")
        else if flags &&& ~~~1 ≠ 0 then
          let id := flags.toNat
          fail (invalidData s!"Unsupported protected GRF parameter flags {id}")
        else
          let keyId ← u32Le header 40
          let material ← keyMaterial header keyId keys
          let outputHash : Vector Byte 16 ← subarray header 24 40
          let masked : Vector Byte 60 := Vector.ofFn fun i =>
            material[i] ^^^ (if flags &&& 1 ≠ 0 then outputHash[Fin.ofNat 16 i.val] else 0)
          let parameters : Vector Byte 64 := masked ++ (Vector.replicate 4 0 : Vector Byte 4)
          let stop ← add 104 paddedSize
          let body ← slice payload 104 stop
          let body ←
            if 128 < compressedSize then (do
              let tail ← slice body 128 body.length
              let tail ← decryptTail C cipherId parameters nameHash seededNameHash outputHash
                tail compressedSize
              pure (splice body 128 tail))
            else pure body
          let output ← expandBody z C compression (body.take compressedSize) outputSize.toNat
          if filenameHash C output ≠ outputHash then
            fail (invalidData "Protected GRF output hash mismatch")
          else return output

end Protected
end Grf
end RemoteClient
