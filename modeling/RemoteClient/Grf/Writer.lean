/-
# The archive writer

The writer of the test support, which was written independently of the reader: three
layouts, bodies stored or deflated, two encryption modes, and obfuscated names in 0x102.
-/
import RemoteClient.Grf.Des
import RemoteClient.Grf.Types

namespace RemoteClient
namespace Grf
namespace Writer

open Exec Bytes Blocks

variable (T : TextLib) (z : Flate)

/-! ## Entries -/

structure Entry where
  /-- Raw name bytes, exactly as they will sit in the file table. -/
  name : List Byte
  data : List Byte
  flags : Byte
  /-- Store the bytes uncompressed. -/
  stored : Bool
deriving DecidableEq, Repr

/-- What an entry is added as. -/
inductive EntryKind where
  | file
  | storedFile
  | encryptedFile (mixed : Bool)
  | directory
deriving DecidableEq, Repr

namespace EntryKind

def flags : EntryKind → Byte
  | file => filelistTypeFile
  | storedFile => filelistTypeFile
  | encryptedFile mixed =>
    filelistTypeFile ||| (if mixed then filelistTypeEncryptMixed else filelistTypeEncryptHeader)
  | directory => 0

def stored : EntryKind → Bool
  | file => false
  | storedFile => true
  | encryptedFile _ => false
  | directory => true

end EntryKind

/-- An entry of a kind; a directory has no data. -/
def Entry.ofKind (kind : EntryKind) (name data : List Byte) : Entry :=
  ⟨name, if kind = .directory then [] else data, kind.flags, kind.stored⟩

abbrev GrfBuilder : Type := List Entry

namespace GrfBuilder

def file (b : GrfBuilder) (name : Str) (data : List Byte) : GrfBuilder :=
  b ++ [Entry.ofKind .file (Encoding.cp949Encode T name) data]

def storedFile (b : GrfBuilder) (name : Str) (data : List Byte) : GrfBuilder :=
  b ++ [Entry.ofKind .storedFile (Encoding.cp949Encode T name) data]

def encryptedFile (b : GrfBuilder) (name : Str) (data : List Byte) (mixed : Bool) : GrfBuilder :=
  b ++ [Entry.ofKind (.encryptedFile mixed) (Encoding.cp949Encode T name) data]

def directory (b : GrfBuilder) (name : Str) : GrfBuilder :=
  b ++ [Entry.ofKind .directory (Encoding.cp949Encode T name) []]

end GrfBuilder

/-! ## Names and padding -/

/-- `(size + 7) & !7`. -/
def alignUp (size : BitVec 32) : BitVec 32 := (size + 7) &&& ~~~7

/-- `resize(len, 0)`. -/
def resize (l : List Byte) (len : ℕ) : List Byte := l.take len ++ List.replicate (len - l.length) 0

/-- Obfuscate the whole blocks of a name of `len` bytes from `off` on. -/
def encodeBlocks (len : ℕ) (name : List Byte) (off : ℕ) : Exec Empty (List Byte) :=
  if _h : off + 8 ≤ len then do
    let block ← slice name off (off + 8)
    let block ← Des.encodeHeader block 8
    encodeBlocks len (splice name off (block.map fun b => b.rotateRight 4)) (off + 8)
  else .ok name
termination_by len - off

/-- The 0x1xx filename obfuscation, in the writing direction. -/
def encodeFilename (name : List Byte) : Exec Empty (List Byte) := encodeBlocks name.length name 0

/-- A name with its NUL, padded to whole blocks. -/
def paddedName (name : List Byte) : List Byte :=
  let name := name ++ [0]
  name ++ List.replicate ((8 - name.length % 8) % 8) 0

/-- `to_ascii_lowercase` of a byte string. -/
def asciiLowercase (name : List Byte) : List Byte :=
  name.map fun b => if 0x41 ≤ b ∧ b ≤ 0x5A then b ||| 0x20 else b

/-- A 0x1xx entry records no encryption flag; the extension picks the mode. -/
def fullEncrypt (name : List Byte) : Bool :=
  let lower := asciiLowercase name
  let extensions : List (List Byte) :=
    [['.', 'g', 'n', 'd'], ['.', 'g', 'a', 't'], ['.', 'a', 'c', 't'], ['.', 's', 't', 'r']].map
      fun ext => ext.map fun c => BitVec.ofNat 8 c.toNat
  !extensions.any fun ext => ext.isSuffixOf lower

/-! ## 0x200 and 0x300 -/

/-- A body as it is written, with the sizes its table entry declares. -/
structure Packed where
  payload : List Byte
  compressedSize : BitVec 32
  lengthAligned : BitVec 32
  realSize : BitVec 32

/-- Encrypt a padded body by the flags of its entry. -/
def encryptBody (flags : Byte) (payload : List Byte) (compressedSize lengthAligned : BitVec 32) :
    Exec Empty (List Byte) :=
  if flags &&& filelistTypeEncryptMixed ≠ 0 then
    Des.encodeFull payload lengthAligned.toNat compressedSize
  else Des.encodeHeader payload lengthAligned.toNat

/-- Compress a body unless it is stored, and encrypt it by its flags. -/
def pack (entry : Entry) : Exec Empty Packed := do
  let payload := if entry.stored then entry.data else z.deflate entry.data
  let compressedSize := BitVec.ofNat 32 payload.length
  let realSize := if entry.stored then compressedSize else BitVec.ofNat 32 entry.data.length
  if entry.flags &&& (filelistTypeEncryptMixed ||| filelistTypeEncryptHeader) ≠ 0 then
    let lengthAligned := alignUp compressedSize
    let payload := resize payload lengthAligned.toNat
    let payload ← encryptBody entry.flags payload compressedSize lengthAligned
    return ⟨payload, compressedSize, lengthAligned, realSize⟩
  else return ⟨payload, compressedSize, compressedSize, realSize⟩

/-- The table entry of a body that starts at `offset`. -/
def tableRow (version : ℕ) (entry : Entry) (p : Packed) (offset : ℕ) : List Byte :=
  entry.name ++ [0] ++ leBytes 4 p.compressedSize.toNat ++ leBytes 4 p.lengthAligned.toNat ++
    leBytes 4 p.realSize.toNat ++ [entry.flags] ++
    (if version = 0x300 then leBytes 8 offset else leBytes 4 offset)

/-- Append one entry to the body and the table. -/
def addSigned (version : ℕ) : List Byte × List Byte → Entry → Exec Empty (List Byte × List Byte)
  | (body, table), entry => do
    let p ← pack z entry
    return (body ++ p.payload, table ++ tableRow version entry p body.length)

/-- `copy_from_slice` into the header: the range has to be within it. -/
def copyInto (l : List Byte) (off : ℕ) (s : List Byte) : Exec Empty (List Byte) :=
  if off + s.length ≤ l.length then .ok (splice l off s) else crash

/-- The 46 bytes of a header, from the words at 30, 34 and 38 and the version. -/
def headerOf (signature : List Byte) (word30 word34 word38 version : ℕ) :
    Exec Empty (List Byte) := do
  let header ← copyInto (List.replicate 46 0) 0 signature
  let header ← copyInto header 30 (leBytes 4 word30)
  let header ← copyInto header 34 (leBytes 4 word34)
  let header ← copyInto header 38 (leBytes 4 word38)
  copyInto header 42 (leBytes 4 version)

def masterOfMagic : List Byte :=
  ['M', 'a', 's', 't', 'e', 'r', ' ', 'o', 'f', ' ', 'M', 'a', 'g', 'i', 'c'].map
    fun c => BitVec.ofNat 8 c.toNat

def writeSigned (entries : GrfBuilder) (version : ℕ) (signature : List Byte) :
    Exec Empty (List Byte) := do
  let (body, table) ← entries.foldlM (addSigned z version) ([], [])
  let compressedTable := z.deflate table
  let sizes := leBytes 4 compressedTable.length ++ leBytes 4 table.length
  if version = 0x300 then
    let header ← headerOf signature body.length (body.length >>> 32) entries.length version
    return header ++ body ++ leBytes 4 0 ++ sizes ++ compressedTable
  else
    let header ← headerOf signature body.length 0 (entries.length + 7) version
    return header ++ body ++ sizes ++ compressedTable

/-! ## 0x102 -/

/-- Compress a body and encrypt it by the extension; the type records the mode. -/
def packLegacy (entry : Entry) : Exec Empty (Packed × Byte) := do
  let payload := z.deflate entry.data
  let compressedSize := BitVec.ofNat 32 payload.length
  let realSize := BitVec.ofNat 32 entry.data.length
  let lengthAligned := alignUp compressedSize
  let payload := resize payload lengthAligned.toNat
  if entry.flags &&& filelistTypeFile ≠ 0 then
    if fullEncrypt entry.name then
      let payload ← Des.encodeFull payload lengthAligned.toNat compressedSize
      return (⟨payload, compressedSize, lengthAligned, realSize⟩,
        entry.flags ||| filelistTypeEncryptMixed)
    else
      let payload ← Des.encodeHeader payload lengthAligned.toNat
      return (⟨payload, compressedSize, lengthAligned, realSize⟩,
        entry.flags ||| filelistTypeEncryptHeader)
  else return (⟨[], compressedSize, lengthAligned, realSize⟩, entry.flags)

/-- The table entry of a body that starts at `offset`, under its obfuscated name. -/
def legacyRow (name : List Byte) (p : Packed) (kind : Byte) (offset : ℕ) : List Byte :=
  leBytes 4 (name.length + 6) ++ [0, 0] ++ name ++ [0, 0, 0, 0] ++
    leBytes 4 (p.compressedSize.toNat + p.realSize.toNat + 715) ++
    leBytes 4 (p.lengthAligned.toNat + 37579) ++ leBytes 4 p.realSize.toNat ++ [kind] ++
    leBytes 4 offset

/-- Append one entry to the body and the table. -/
def addLegacy : List Byte × List Byte → Entry → Exec Empty (List Byte × List Byte)
  | (body, table), entry => do
    let (p, kind) ← packLegacy z entry
    let name ← encodeFilename (paddedName entry.name)
    return (body ++ p.payload, table ++ legacyRow name p kind body.length)

def writeV102 (entries : GrfBuilder) : Exec Empty (List Byte) := do
  let (body, table) ← entries.foldlM (addLegacy z) ([], [])
  let header ← headerOf masterOfMagic body.length 0 (entries.length + 7) 0x102
  return header ++ body ++ table

end Writer
end Grf
end RemoteClient
