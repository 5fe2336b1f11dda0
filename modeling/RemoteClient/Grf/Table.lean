/-
# The two file tables

A 0x200 or 0x300 table is decompressed before it is walked: NUL-terminated names, each
followed by fixed-size entry data.  A 0x1xx table is stored in the clear and its filenames
are obfuscated; it is decoded in place while it is walked, so the walk returns the buffer as
it leaves it.
-/
import RemoteClient.Grf.Des
import RemoteClient.Grf.Header

namespace RemoteClient
namespace Grf

open Exec Bytes Blocks

/-! ## 0x200 and 0x300 -/

/-- A 0x200/0x300 entry stored without compression and with a type of 0 is a file: a
directory has no content. -/
def storedAsFile (entry : GrfEntry) : GrfEntry :=
  if entry.kind = 0 ∧ 0 < entry.realSize.toNat ∧ entry.compressedSize = entry.realSize then
    { entry with kind := filelistTypeFile }
  else entry

/-- The end of the name that starts at `stop`: the next NUL, or the end of the table. -/
def nameEnd (data : List Byte) (stop : ℕ) : Exec GrfError ℕ :=
  if _h : stop < data.length then do
    let b ← index data stop
    if b ≠ 0 then nameEnd data (stop + 1) else .ok stop
  else .ok stop
termination_by data.length - stop

/-- The offset field at `p`; 0x300 widens it to 64 bits. -/
def modernOffset (data : List Byte) (version : BitVec 32) (p : ℕ) : Exec GrfError ℕ := do
  let low ← u32Le data p
  if version = 0x300 then
    let high ← u32Le data (p + 4)
    add (high.toNat <<< 32) low.toNat
  else
    return low.toNat

/-- The size of the fixed data behind a name. -/
def entryDataSize (version : BitVec 32) : ℕ := if version = 0x300 then 21 else 17

/-- The entry data at `p`. -/
def modernEntry (data : List Byte) (version : BitVec 32) (p : ℕ) : Exec GrfError GrfEntry := do
  let compressedSize ← u32Le data p
  let lengthAligned ← u32Le data (p + 4)
  let realSize ← u32Le data (p + 8)
  let kind ← index data (p + 12)
  let offset ← modernOffset data version (p + 13)
  return ⟨BitVec.ofNat 64 offset, compressedSize, lengthAligned, realSize, kind,
    Vector.replicate 16 0, Vector.replicate 16 0⟩

/-- Walk the `n` entries from number `i` at offset `p` on. -/
def modernEntries (data : List Byte) (version : BitVec 32) :
    ℕ → ℕ → ℕ → Exec GrfError (List (ByteRange × GrfEntry))
  | 0, _, _ => .ok []
  | n + 1, i, p => do
    if data.length ≤ p then
      fail (.corruptTable s!"Unexpected end of file table at entry {i}")
    else
      let stop ← nameEnd data p
      let name : ByteRange := ⟨p, stop⟩
      let p ← add stop 1
      let rest ← add p (entryDataSize version)
      if data.length < rest then
        fail (.corruptTable s!"Incomplete entry data at entry {i}")
      else
        let entry ← modernEntry data version p
        let out ← modernEntries data version n (i + 1) rest
        return (name, storedAsFile entry) :: out

/-- Walk a decompressed 0x200/0x300 file table. -/
def readModernTable (data : List Byte) (fileCount : ℕ) (version : BitVec 32) :
    Exec GrfError (List (ByteRange × GrfEntry)) :=
  modernEntries data version fileCount 0 0

/-! ## 0x1xx -/

/-- Swap the nibbles of a byte. -/
def swapNibbles (b : Byte) : Byte := b.rotateRight 4

/-- Undo the filename obfuscation, in whole blocks of eight bytes up to `len`; a block that
does not fit in the buffer is left alone. -/
def decodeFilename (buf : List Byte) (len : ℕ) (off : ℕ) : Exec Empty (List Byte) :=
  if _h : off < len ∧ off + 8 ≤ buf.length then do
    let block ← slice buf off (off + 8)
    let block ← Des.decodeHeader (block.map swapNibbles) 8
    decodeFilename (splice buf off block) len (off + 8)
  else .ok buf
termination_by len - off

/-- The extensions that are header-encrypted rather than encrypted whole. -/
def headerOnly : List (List Byte) :=
  [['.', 'g', 'n', 'd'], ['.', 'g', 'a', 't'], ['.', 'a', 'c', 't'], ['.', 's', 't', 'r']].map
    fun ext => ext.map fun c => BitVec.ofNat 8 c.toNat

/-- `u8::to_ascii_lowercase`. -/
def asciiLower (b : Byte) : Byte := if 0x41 ≤ b ∧ b ≤ 0x5A then b ||| 0x20 else b

/-- `u8::eq_ignore_ascii_case`. -/
def eqIgnoreAsciiCase (a b : Byte) : Bool := asciiLower a == asciiLower b

/-- The position of the last item with a property. -/
def rposition (p : Byte → Bool) (l : List Byte) : Option ℕ :=
  (l.reverse.findIdx? p).map fun k => l.length - 1 - k

/-- Which encryption mode a 0x1xx entry was written with: the extension decides. -/
def isFullEncrypt (name : List Byte) : Exec GrfError Bool :=
  match rposition (· == BitVec.ofNat 8 '.'.toNat) name with
  | some dot => do
    let ext ← slice name dot name.length
    return !headerOnly.any fun candidate =>
      ext.length == candidate.length && (ext.zip candidate).all fun ab =>
        eqIgnoreAsciiCase ab.1 ab.2
  | none => .ok true

/-- The type of a 0x1xx entry, with the flag of its encryption mode.  A length the biases
underflow is not a file anyone can read: the file bit is dropped rather than the entry. -/
def legacyKind (data : List Byte) (name : ByteRange) (kind : Byte)
    (compressedSize lengthAligned : ℤ) : Exec GrfError Byte := do
  if compressedSize < 0 ∨ lengthAligned < 0 then
    return kind &&& ~~~filelistTypeFile
  else if kind &&& filelistTypeFile ≠ 0 then
    let raw ← slice data name.start name.stop
    let full ← isFullEncrypt raw
    return kind ||| (if full then filelistTypeEncryptMixed else filelistTypeEncryptHeader)
  else
    return kind

/-- The end of a decoded name that starts at `nameStart`: its first NUL, or all of it. -/
def legacyNameEnd (name : List Byte) (nameStart : ℕ) : ℕ :=
  match name.findIdx? (· == 0) with
  | some k => nameStart + k
  | none => nameStart + name.length

/-- Read one 0x1xx entry at offset `p`: the buffer with its name decoded, the entry with the
range of its name, and the offset behind it. -/
def legacyEntry (data : List Byte) (i p : ℕ) :
    Exec GrfError (List Byte × (ByteRange × GrfEntry) × ℕ) := do
  let start ← add p 4
  if data.length < start then
    fail (.corruptTable s!"Unexpected end of file table at entry {i}")
  else
    let blockLen ← u32Le data p
    let lenByte ← index data p
    let nameLen := lenByte.toNat - 6
    match (checkedAdd p 4).bind fun off => checkedAdd off blockLen.toNat with
    | none => fail (.corruptTable s!"Incomplete entry data at entry {i}")
    | some metaPos =>
      let stop ← add metaPos legacyEntryDataSize
      if data.length < stop then fail (.corruptTable s!"Incomplete entry data at entry {i}")
      else
        let nameStart ← add p 6
        let nameStop ← add nameStart nameLen
        if metaPos < nameStop then
          fail (.corruptTable s!"Filename runs past its own entry at entry {i}")
        else
          let block ← slice data nameStart metaPos
          let block ← lift (decodeFilename block nameLen 0)
          let data := splice data nameStart block
          let name ← slice data nameStart nameStop
          let nameEnd := legacyNameEnd name nameStart
          let realSize ← u32Le data (metaPos + 8)
          let packed ← u32Le data metaPos
          let compressedSize : ℤ := packed.toNat - realSize.toNat - legacyLengthBias
          let aligned ← u32Le data (metaPos + 4)
          let lengthAligned : ℤ := aligned.toNat - legacyAlignedBias
          let kind ← index data (metaPos + 12)
          let kind ← legacyKind data ⟨nameStart, nameEnd⟩ kind compressedSize lengthAligned
          let offset ← u32Le data (metaPos + 13)
          return (data, (⟨nameStart, nameEnd⟩,
            ⟨BitVec.ofNat 64 offset.toNat, BitVec.ofNat 32 (max compressedSize 0).toNat,
              BitVec.ofNat 32 (max lengthAligned 0).toNat, realSize, kind,
              Vector.replicate 16 0, Vector.replicate 16 0⟩), stop)

/-- Walk the `n` entries from number `i` at offset `p` on. -/
def legacyEntries :
    ℕ → ℕ → ℕ → List Byte → Exec GrfError (List Byte × List (ByteRange × GrfEntry))
  | 0, _, _, data => .ok (data, [])
  | n + 1, i, p, data => do
    let (data, entry, p) ← legacyEntry data i p
    let (data, out) ← legacyEntries n (i + 1) p data
    return (data, entry :: out)

/-- Walk a 0x1xx file table, decoding filenames in place. -/
def readLegacyTable (data : List Byte) (fileCount : ℕ) :
    Exec GrfError (List Byte × List (ByteRange × GrfEntry)) :=
  legacyEntries fileCount 0 0 data

end Grf
end RemoteClient
