/-
# Opening an archive and reading an entry

The file is its bytes.  Opening reads the header, then the file table of the version it
names, and lists the entries that are files; reading an entry checks its range against the
file, reads it, undoes its encryption and inflates it.
-/
import RemoteClient.Grf.Table
import RemoteClient.Grf.Protected

namespace RemoteClient

/-- An open archive. -/
structure Grf where
  fileName : String
  version : BitVec 32
  files : List Grf.GrfFile
  stats : Grf.GrfStats
  handle : List Byte
  size : ℕ
  archiveKeys : Grf.ArchiveKeys

namespace Grf

open Exec Bytes

variable (T : TextLib) (z : Flate) (C : Crypto)

/-- Inflate to a declared size.  One extra byte of room detects a longer stream. -/
def inflateExact (data : List Byte) (expected : ℕ) : Exec IoError (List Byte) :=
  match z.decompress data (expected + 1) with
  | .error e => fail (invalidData e)
  | .ok r =>
    if r.status ≠ .streamEnd ∨ r.totalOut ≠ expected then
      fail (invalidData
        "GRF zlib stream is truncated or differs from its declared output size")
    else .ok (r.buffer.toList.take expected)

/-- The first `n` names with high bytes, for encoding detection. -/
def sampleNames (data : List Byte) :
    ℕ → List (ByteRange × GrfEntry) → Exec GrfError (List (List Byte))
  | 0, _ => .ok []
  | _, [] => .ok []
  | n + 1, (name, _) :: entries => do
    let raw ← slice data name.start name.stop
    if Encoding.hasHighByte raw then
      let rest ← sampleNames data n entries
      return raw :: rest
    else sampleNames data (n + 1) entries

/-! ## The file table -/

/-- The file table as read: its bytes in the clear, and its two sizes. -/
structure RawTable where
  data : List Byte
  compressedSize : BitVec 32
  realSize : BitVec 32

/-- 0x1xx keeps its file table in the clear, up to the end of the archive. -/
def readClearTable (file : List Byte) (tablePos : ℕ) : Exec GrfError RawTable := do
  if file.length < tablePos then
    fail (.corruptTable s!"File table starts past the end of the archive (at {tablePos})")
  else
    let length ← sub file.length tablePos
    if length = 0 then fail (.corruptTable "Empty file table")
    else if maxFileTableBytes < length then
      fail (.corruptTable s!"Uncompressed file table too large ({length} bytes)")
    else
      let data ← mapErr .io (readAt file tablePos length)
      return ⟨data, BitVec.ofNat 32 length, BitVec.ofNat 32 length⟩

/-- 0x200 and 0x300 compress the file table behind a header with its two sizes. -/
def readPackedTable (file : List Byte) (tablePos : ℕ) : Exec GrfError RawTable := do
  let tableHeader ← mapErr .io (readAt file tablePos fileTableHeaderSize)
  let compressedSize ← u32Le tableHeader 0
  let realSize ← u32Le tableHeader 4
  if compressedSize = 0 ∨ realSize = 0 then
    fail (.corruptTable "Invalid file table sizes (0)")
  else if maxFileTableBytes < realSize.toNat then
    let declared := realSize.toNat
    fail (.corruptTable s!"Uncompressed file table too large ({declared} bytes)")
  else
    let start ← add tablePos fileTableHeaderSize
    let stop ← add start compressedSize.toNat
    if file.length < stop then
      let packed := compressedSize.toNat
      fail (.corruptTable
        s!"File table runs past the end of the archive ({packed} bytes at {tablePos})")
    else
      let compressed ← mapErr .io (readAt file start compressedSize.toNat)
      let data ← mapErr
        (fun e => .corruptTable ("Failed to decompress file table: " ++ e.message))
        (inflateExact z compressed realSize.toNat)
      return ⟨data, compressedSize, realSize⟩

/-- The file table in the layout of the archive's version. -/
def readRawTable (version : BitVec 32) (file : List Byte) (tablePos : ℕ) :
    Exec GrfError RawTable :=
  if version >>> 8 = 0x01 then readClearTable file tablePos
  else readPackedTable z file tablePos

/-- The key block behind the file table, when the archive declares one. -/
def readArchiveKeys (file : List Byte) (tablePos : ℕ) (compressedSize : BitVec 32)
    (keyBlockLength : ℕ) : Exec GrfError ArchiveKeys := do
  if keyBlockLength = 0 then return []
  else
    let start ← add tablePos fileTableHeaderSize
    let keyBlockOffset ← add start compressedSize.toNat
    let stop ← add keyBlockOffset keyBlockLength
    if file.length < stop then fail (.corruptTable "Archive key block runs past the end")
    else
      let raw ← mapErr .io (readAt file keyBlockOffset keyBlockLength)
      mapErr (fun e => .corruptTable ("Invalid archive key block: " ++ e.message))
        (Protected.decodeArchiveKeys C raw)

/-! ## The list of files -/

/-- The files and the counts, while the entries are gone through. -/
structure Listing where
  files : List GrfFile := []
  badNameCount : ℕ := 0
  nonUtf8NameCount : ℕ := 0
  nonUtf8Samples : List Str := []
  encryptedCount : ℕ := 0
  protectedCount : ℕ := 0

/-- An entry that is listed as a file. -/
def isListed (entry : GrfEntry) : Bool :=
  entry.realSize.toNat ≤ maxFileUncompressedBytes &&
    (entry.kind &&& filelistTypeFile != 0 || entry.isProtected)

/-- A protected entry keeps two hashes of its raw name. -/
def withHashes (rawName : List Byte) (entry : GrfEntry) : GrfEntry :=
  if entry.isProtected then
    { entry with
      filenameHash := Protected.filenameHash C rawName
      seededFilenameHash := Protected.seededFilenameHash C rawName entry.realSize }
  else entry

/-- List one entry. -/
def addEntry (encoding : FilenameEncoding) (data : List Byte) (l : Listing)
    (item : ByteRange × GrfEntry) : Exec GrfError Listing :=
  let (nameRange, entry) := item
  if !isListed entry then .ok l
  else do
    let rawName ← slice data nameRange.start nameRange.stop
    let entry := withHashes C rawName entry
    let nonUtf8 := (T.fromUtf8 rawName).isNone
    let name := encoding.decode T rawName
    return {
      files := l.files ++ [⟨name, entry⟩]
      badNameCount := l.badNameCount + if 0 < Encoding.countBadChars name then 1 else 0
      nonUtf8NameCount := l.nonUtf8NameCount + if nonUtf8 then 1 else 0
      nonUtf8Samples :=
        if nonUtf8 && l.nonUtf8Samples.length < 5 then
          l.nonUtf8Samples ++ [Encoding.latin1Decode rawName]
        else l.nonUtf8Samples
      encryptedCount := l.encryptedCount + if entry.isEncrypted then 1 else 0
      protectedCount := l.protectedCount + if entry.isProtected then 1 else 0 }

/-! ## Opening -/

/-- Walk the file table of the archive's version; 0x1xx decodes its names in place. -/
def readTable (version : BitVec 32) (data : List Byte) (fileCount : ℕ) :
    Exec GrfError (List Byte × List (ByteRange × GrfEntry)) :=
  if version >>> 8 = 0x01 then readLegacyTable data fileCount
  else do
    let entries ← readModernTable data fileCount version
    return (data, entries)

/-- The encoding of the names: the forced one, or the one detected from a sample. -/
def chooseEncoding (forced : Option FilenameEncoding) (data : List Byte)
    (entries : List (ByteRange × GrfEntry)) : Exec GrfError FilenameEncoding :=
  match forced with
  | some encoding => .ok encoding
  | none => do
    let samples ← sampleNames data detectSampleCount entries
    return Encoding.detectBestEncoding T samples autoDetectThreshold

/-- The length of the key block, which 0x300 puts in front of the table sizes. -/
def keyBlockLengthOf (file : List Byte) (header : Header) : Exec GrfError ℕ := do
  if header.version = 0x300 then
    let bytes ← mapErr .io (readAt file header.fileTableOffset 4)
    let length ← u32Le bytes 0
    return length.toNat
  else return 0

/-- Open the archive with these bytes. -/
def openWithEncoding (fileName : String) (file : List Byte)
    (forcedEncoding : Option FilenameEncoding) : Exec GrfError Grf := do
  let headerBytes ← mapErr .io (readAt file 0 headerSize)
  let header ← parseHeader headerBytes
  if maxEntries < header.fileCount then
    let count := header.fileCount
    fail (.limitExceeded s!"File count {count} exceeds limit {maxEntries}")
  else
    let keyBlockLength ← keyBlockLengthOf file header
    if 20 + 65535 * 64 < keyBlockLength then
      fail (.limitExceeded "Archive key block too large")
    else
      let tablePos ← add header.fileTableOffset (if header.version = 0x300 then 4 else 0)
      let table ← readRawTable z header.version file tablePos
      let archiveKeys ← readArchiveKeys C file tablePos table.compressedSize keyBlockLength
      let (data, entries) ← readTable header.version table.data header.fileCount
      let detectedEncoding ← chooseEncoding T forcedEncoding data entries
      let l ← entries.foldlM (addEntry T C detectedEncoding data) {}
      let stats : GrfStats :=
        ⟨l.files.length, l.badNameCount, l.nonUtf8NameCount, l.nonUtf8Samples, l.encryptedCount,
          l.protectedCount, detectedEncoding, table.compressedSize, table.realSize⟩
      return ⟨fileName, header.version, l.files, stats, file, file.length, archiveKeys⟩

/-- `Grf::open`: the encoding is detected. -/
def openArchive (fileName : String) (file : List Byte) : Exec GrfError Grf :=
  openWithEncoding T z C fileName file none

/-! ## Reading -/

/-- Undo the encryption the type of an entry names. -/
def decryptBody (entry : GrfEntry) (data : List Byte) : Exec IoError (List Byte) :=
  if entry.kind &&& filelistTypeEncryptMixed ≠ 0 then
    lift (Des.decodeFull data entry.lengthAligned.toNat entry.compressedSize)
  else if entry.kind &&& filelistTypeEncryptHeader ≠ 0 then
    lift (Des.decodeHeader data entry.lengthAligned.toNat)
  else .ok data

/-- What an entry's bytes were written from.  Stored ones may carry padding past the
content, which is cut off. -/
def decodeBody (entry : GrfEntry) (data : List Byte) : Exec IoError (List Byte) := do
  let data ← decryptBody entry data
  if entry.realSize = entry.compressedSize then return data.take entry.realSize.toNat
  else inflateExact z data entry.realSize.toNat

/-- Read and decode a protected entry whose range is within the file. -/
def readProtected (grf : Grf) (entry : GrfEntry) : Exec IoError (List Byte) := do
  if entry.kind ≠ filelistTypeProtected ∨
      entry.lengthAligned.toNat < entry.compressedSize.toNat ∨
      maxFileUncompressedBytes + 2 * 1024 * 1024 < entry.compressedSize.toNat then
    fail (invalidData "Invalid protected entry flags or size")
  else
    let start ← add entry.offset.toNat headerSize
    let payload ← readAt grf.handle start entry.compressedSize.toNat
    Protected.decodeEntry z C payload entry.filenameHash entry.seededFilenameHash entry.realSize
      grf.archiveKeys

/-- Read and decode one entry. -/
def readEntry (grf : Grf) (entry : GrfEntry) : Exec IoError (List Byte) := do
  if maxFileUncompressedBytes < entry.realSize.toNat then
    fail (invalidData "GRF entry output exceeds supported size limit")
  else if entry.lengthAligned = 0 ∧ !entry.isProtected then return []
  else
    match (checkedAdd entry.offset.toNat headerSize).bind fun start =>
        checkedAdd start entry.lengthAligned.toNat with
    | none => pastEnd
    | some stop =>
      if grf.size < stop then pastEnd
      else if entry.isProtected then readProtected z C grf entry
      else
        let start ← add entry.offset.toNat headerSize
        let data ← readAt grf.handle start entry.lengthAligned.toNat
        decodeBody z entry data
where
  pastEnd : Exec IoError (List Byte) :=
    let offset := entry.offset.toNat
    let fileName := grf.fileName
    fail (invalidData s!"entry at {offset} runs past the end of {fileName}")

end Grf
end RemoteClient
