/-
# Archives: entries, limits, errors, and the libraries the reader calls

The data the reader works with, and the parameters that stand for the libraries it calls:
zlib (`Flate`), LZ4, the block cipher AES and the hashes (`Crypto`).
-/
import RemoteClient.Encoding

namespace RemoteClient
namespace Grf

open Exec

/-! ## Constants -/

def headerSize : ℕ := 46

/-- The two signatures an archive is written with. -/
def headerSignatures : List Str := [
  ['M', 'a', 's', 't', 'e', 'r', ' ', 'o', 'f', ' ', 'M', 'a', 'g', 'i', 'c'],
  ['E', 'v', 'e', 'n', 't', ' ', 'H', 'o', 'r', 'i', 'z', 'o', 'n']]

def fileTableHeaderSize : ℕ := 8

def filelistTypeFile : Byte := 0x01

def filelistTypeEncryptMixed : Byte := 0x02

def filelistTypeEncryptHeader : Byte := 0x04

def filelistTypeProtected : Byte := 0x80

/-- Biases added to two of the length fields in a 0x1xx file table. -/
def legacyLengthBias : ℤ := 715

def legacyAlignedBias : ℤ := 37579

/-- Fixed part of a 0x1xx entry: three lengths, the type byte and the offset. -/
def legacyEntryDataSize : ℕ := 17

def maxFileUncompressedBytes : ℕ := 256 * 1024 * 1024

def maxEntries : ℕ := 500000

def maxFileTableBytes : ℕ := 512 * 1024 * 1024

def autoDetectThreshold : ℚ := 1 / 100

def detectSampleCount : ℕ := 200

/-! ## Entries -/

structure GrfEntry where
  offset : BitVec 64
  compressedSize : BitVec 32
  lengthAligned : BitVec 32
  realSize : BitVec 32
  kind : Byte
  /-- Hash of the original filename bytes. -/
  filenameHash : Vector Byte 16
  /-- The same hash with the declared output size as its seed. -/
  seededFilenameHash : Vector Byte 16
deriving DecidableEq, Repr

namespace GrfEntry

def isEncrypted (e : GrfEntry) : Bool :=
  e.kind &&& (filelistTypeEncryptMixed ||| filelistTypeEncryptHeader ||| filelistTypeProtected) != 0

def isProtected (e : GrfEntry) : Bool := e.kind &&& filelistTypeProtected != 0

end GrfEntry

/-- A range of offsets into the file table. -/
structure ByteRange where
  start : ℕ
  stop : ℕ
deriving DecidableEq, Repr

/-- One entry of an archive: its decoded name and where its bytes live. -/
structure GrfFile where
  name : Str
  entry : GrfEntry
deriving DecidableEq, Repr

structure GrfStats where
  fileCount : ℕ
  badNameCount : ℕ
  nonUtf8NameCount : ℕ
  nonUtf8Samples : List Str
  encryptedCount : ℕ
  protectedCount : ℕ
  detectedEncoding : FilenameEncoding
  tableCompressedSize : BitVec 32
  tableRealSize : BitVec 32
deriving DecidableEq, Repr

/-! ## Errors -/

inductive ErrorKind where
  | invalidData
  | unexpectedEof
deriving DecidableEq, Repr

/-- `std::io::Error`. -/
structure IoError where
  kind : ErrorKind
  message : String
deriving DecidableEq, Repr

def invalidData (message : String) : IoError := ⟨.invalidData, message⟩

inductive GrfError where
  | io (e : IoError)
  | invalidSignature (s : Str)
  | unsupportedVersion (version : BitVec 32)
  | limitExceeded (message : String)
  | corruptTable (message : String)
deriving DecidableEq, Repr

/-! ## Libraries -/

/-- How a call of the inflater ended. -/
inductive FlateStatus where
  | ok
  | bufError
  | streamEnd
deriving DecidableEq, Repr

/-- What a call of the inflater leaves behind in an output buffer of `room` bytes. -/
structure Inflated (room : ℕ) where
  status : FlateStatus
  buffer : Vector Byte room
  totalIn : ℕ
  totalOut : ℕ

/-- zlib, as `flate2` provides it. -/
structure Flate where
  /-- Compress at level 6. -/
  deflate : List Byte → List Byte
  /-- `Decompress::decompress` with `Finish`, into a zeroed buffer of the given size. -/
  decompress : List Byte → (room : ℕ) → Except String (Inflated room)

/-- Inflating a complete stream, possibly followed by other bytes, into a buffer with room
for its content and one byte more gives back what was deflated. -/
structure Flate.Lawful (z : Flate) : Prop where
  inflates : ∀ (data padding : List Byte) (room : ℕ), data.length < room →
    ∃ r, z.decompress (z.deflate data ++ padding) room = .ok r ∧ r.status = .streamEnd ∧
      r.totalOut = data.length ∧ r.buffer.toList.take data.length = data

/-- The ciphers, hashes and the LZ4 decoder of other libraries. -/
structure Crypto where
  /-- One AES-128 block decryption: key, block. -/
  aesDecryptBlock : Vector Byte 16 → Vector Byte 16 → Vector Byte 16
  sha256 : List Byte → Vector Byte 32
  /-- xxHash-32: data, seed. -/
  xxh32 : List Byte → BitVec 32 → BitVec 32
  xxh3_128 : List Byte → BitVec 128
  xxh3_128WithSeed : List Byte → BitVec 64 → BitVec 128
  /-- `lz4_flex::block::decompress_into`: the output buffer afterwards and the bytes written. -/
  lz4DecompressInto : List Byte → (room : ℕ) → Except String (Vector Byte room × ℕ)

/-! ## Reading the file -/

/-- `read_at`: `len` bytes of the file from `offset` on, or an end-of-file error. -/
def readAt (file : List Byte) (offset len : ℕ) : Exec IoError (List Byte) :=
  let got := (file.drop offset).take len
  if got.length = len then .ok got else fail ⟨.unexpectedEof, "failed to fill whole buffer"⟩

lemma ends_readAt {file : List Byte} {offset len : ℕ} {P : List Byte → Prop}
    (hP : ∀ s : List Byte, s.length = len → P s) : Ends (readAt file offset len) P := by
  unfold readAt
  simp only
  split
  · next h => exact hP _ h
  · exact ends_fail

/-- What was written at an offset is read there. -/
lemma readAt_of_drop {file l r : List Byte} {offset len : ℕ} (h : file.drop offset = l ++ r)
    (hlen : len = l.length) : readAt file offset len = .ok l := by
  unfold readAt
  rw [h, hlen, List.take_left]
  simp

end Grf
end RemoteClient
