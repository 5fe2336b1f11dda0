/-
# Archives with protected files

A 0x300 archive may hold protected files next to ordinary ones; the keys of the protected ones
may be in a key block behind the file table.  The tests write such an archive by hand, with
payloads and a key block of the script (`writeKeyed`).  It opens, a protected file keeps the
hashes of its raw name, and every file is read back.  An archive with anything else for a key
block is refused (`protected_archives_are_read`).
-/
import RemoteClient.Grf.RoundTrip
import RemoteClient.Grf.ProtectedInverse
import RemoteClient.Grf.KeyBlock

namespace RemoteClient
namespace Grf
namespace Writer

open Exec Bytes Blocks

variable {T : TextLib} {z : Flate} {C : Crypto} {E : Generate.Encoders}

/-! ## What is written -/

/-- A file to protect, and what the script is to do with it. -/
structure ProtectedItem where
  name : List Byte
  data : List Byte
  param : Vector Byte 60
  options : Generate.EntryOptions
  nul_free : (0 : Byte) ∉ name
  data_le : data.length ≤ maxFileUncompressedBytes

def ProtectedItem.item (p : ProtectedItem) : Item := ⟨.file, p.name, p.data, p.nul_free, p.data_le⟩

/-- Something to add to an archive. -/
inductive Part where
  | plain (item : Item)
  | sealed (p : ProtectedItem)

def Part.item : Part → Item
  | plain item => item
  | sealed p => p.item

section

variable (z C E)

/-- The payload of a protected file with the sizes its table entry declares. -/
def sealedPacked (p : ProtectedItem) (payload : List Byte) : Packed :=
  ⟨payload, BitVec.ofNat 32 payload.length, BitVec.ofNat 32 payload.length,
    BitVec.ofNat 32 p.data.length⟩

/-- Append one part to the body and the table. -/
def addPart : List Byte × List Byte → Part → Exec Empty (List Byte × List Byte)
  | (body, table), .plain item => addSigned z 0x300 (body, table) item.entry
  | (body, table), .sealed p => do
    let payload ← Generate.makeEntry C E p.name p.param p.data p.options
    let entry : Entry := ⟨p.name, p.data, filelistTypeProtected, true⟩
    return (body ++ payload,
      table ++ tableRow 0x300 entry (sealedPacked p payload) body.length)

/-- Behind the body stand the length of the key block, the packed table behind its sizes, and
the key block. -/
def keyedFile (header body table footer : List Byte) : List Byte :=
  header ++ (body ++ (leBytes 4 footer.length ++
    (leBytes 4 (z.deflate table).length ++ leBytes 4 table.length ++ (z.deflate table ++ footer))))

/-- `write_protected_archive`, for any parts. -/
def writeKeyed (parts : List Part) (footer : List Byte) : Exec Empty (List Byte) := do
  let (body, table) ← parts.foldlM (addPart z C E) ([], [])
  let header ← headerOf masterOfMagic body.length (body.length >>> 32) parts.length 0x300
  return keyedFile z header body table footer

/-- What the reader can read of a part, with these keys in the archive. -/
def Part.Fits (records : ArchiveKeys) : Part → Prop
  | plain item => (z.deflate item.entry.data).length + 7 < 2 ^ 32 ∧
    (item.isFile = true → item.kind.stored = false →
      (z.deflate item.data).length ≠ item.data.length)
  | sealed p => p.options.Known p.param records ∧
    (Generate.compress E p.options.comp p.data).length + 16 < 2 ^ 32 ∧
    ∀ payload, Generate.makeEntry C E p.name p.param p.data p.options = .ok payload →
      payload.length ≤ maxFileUncompressedBytes + 2 * 1024 * 1024

/-- The parts, and the body and the table they make, are within the limits of the reader. -/
structure KeyedFits (records : ArchiveKeys) (parts : List Part) : Prop where
  ne_nil : parts ≠ []
  count_le : parts.length ≤ maxEntries
  fits : ∀ part ∈ parts, part.Fits z C E records
  body_lt : ∀ body table, parts.foldlM (addPart z C E) ([], []) = .ok (body, table) →
    body.length < 2 ^ 40
  table_le : ∀ body table, parts.foldlM (addPart z C E) ([], []) = .ok (body, table) →
    table.length ≤ maxFileTableBytes
  deflatedTable_lt : ∀ body table, parts.foldlM (addPart z C E) ([], []) = .ok (body, table) →
    (z.deflate table).length < 2 ^ 32

end

/-! ## Reading a protected file -/

/-- A protected file as it stands in an archive with these keys. -/
structure Placed.Sealed (z : Flate) (C : Crypto) (keys : ArchiveKeys) (q : Placed) : Prop where
  kind : q.kind = filelistTypeProtected
  isFile : q.item.isFile = true
  compressed : q.packed.compressedSize.toNat = q.packed.payload.length
  aligned : q.packed.lengthAligned = q.packed.compressedSize
  real : q.packed.realSize = BitVec.ofNat 32 q.item.data.length
  payload_le : q.packed.payload.length ≤ maxFileUncompressedBytes + 2 * 1024 * 1024
  decodes : Protected.decodeEntry z C q.packed.payload (Protected.filenameHash C q.item.name)
    (Protected.seededFilenameHash C q.item.name q.packed.realSize) q.packed.realSize keys =
      .ok q.item.data

namespace Placed.Sealed

variable {keys : ArchiveKeys} {q : Placed}

lemma isProtected (h : q.Sealed z C keys) : q.entry.isProtected = true := by
  have hkind : q.entry.kind = filelistTypeProtected := h.kind
  rw [GrfEntry.isProtected, hkind]
  rfl

lemma toNat_realSize (h : q.Sealed z C keys) : q.entry.realSize.toNat = q.item.data.length := by
  have hlimit := q.item.data_le
  unfold maxFileUncompressedBytes at hlimit
  have hreal : q.entry.realSize = BitVec.ofNat 32 q.item.data.length := h.real
  rw [hreal, toNat_ofNat_lt (by omega)]

/-- The type of a protected entry is left as it is. -/
lemma storedAsFile (h : q.Sealed z C keys) : storedAsFile q.entry = q.entry := by
  have hkind : q.entry.kind ≠ 0 := by
    have hkind : q.entry.kind = filelistTypeProtected := h.kind
    rw [hkind]
    decide
  exact if_neg fun hstored => hkind hstored.1

lemma isListed (h : q.Sealed z C keys) : isListed q.entry = true := by
  rw [Grf.isListed, h.toNat_realSize, h.isProtected, decide_eq_true q.item.data_le, Bool.or_true]
  rfl

/-- What decodes has a header. -/
lemma length_payload (h : q.Sealed z C keys) : 104 ≤ q.packed.payload.length := by
  by_contra hshort
  have hdecodes := h.decodes
  rw [Protected.decodeEntry, Protected.decodeHeader, if_pos (by omega)] at hdecodes
  exact absurd hdecodes (by simp [fail, bind, Except.bind])

/-- What the reader has of a protected file once it is listed. -/
lemma withHashes (h : q.Sealed z C keys) (hoffset : q.offset < 2 ^ 63) :
    ∃ e, withHashes C q.item.name q.entry = e ∧ e.isProtected = true ∧
      e.kind = filelistTypeProtected ∧ e.offset.toNat = q.offset ∧
      e.compressedSize.toNat = q.packed.payload.length ∧ e.lengthAligned = e.compressedSize ∧
      e.realSize = q.packed.realSize ∧
      e.filenameHash = Protected.filenameHash C q.item.name ∧
      e.seededFilenameHash = Protected.seededFilenameHash C q.item.name q.packed.realSize := by
  have hoff : q.entry.offset.toNat = q.offset := by
    change (BitVec.ofNat 64 q.offset).toNat = q.offset
    rw [BitVec.toNat_ofNat]
    exact Nat.mod_eq_of_lt (by omega)
  exact ⟨_, if_pos h.isProtected, h.isProtected, h.kind, hoff, h.compressed, h.aligned, rfl, rfl,
    rfl⟩

/-- **Reading a protected file gives its content.** -/
lemma readEntry {grf : Grf} (h : q.Sealed z C grf.archiveKeys) (hsize : grf.size = grf.handle.length)
    (hoffset : q.offset < 2 ^ 63) (rest : List Byte)
    (hdrop : grf.handle.drop (q.offset + headerSize) = q.packed.payload ++ rest) :
    readEntry z C grf (Grf.withHashes C q.item.name q.entry) = .ok q.item.data := by
  obtain ⟨e, he, hprotected, hkind, hoff, hcompressed, haligned, hreal, hname, hseeded⟩ :=
    h.withHashes hoffset
  have hlimit : ¬maxFileUncompressedBytes < e.realSize.toNat := by
    have heq : q.packed.realSize.toNat = q.item.data.length := h.toNat_realSize
    rw [hreal, heq]
    exact Nat.not_lt.mpr q.item.data_le
  have hpayload := h.payload_le
  have hlong := h.length_payload
  have hrange := le_length_of_drop hdrop fun hnil => by
    have := congrArg List.length hnil
    rw [List.length_append, List.length_nil] at this
    omega
  rw [List.length_append] at hrange
  have hfits : ¬(e.kind ≠ filelistTypeProtected ∨
      e.lengthAligned.toNat < e.compressedSize.toNat ∨
      maxFileUncompressedBytes + 2 * 1024 * 1024 < e.compressedSize.toNat) := by
    rw [haligned, hcompressed]
    rintro (hbad | hbad | hbad)
    · exact hbad hkind
    · omega
    · omega
  unfold maxFileUncompressedBytes at hpayload
  have hstop : ((checkedAdd e.offset.toNat headerSize).bind fun start =>
      checkedAdd start e.lengthAligned.toNat) =
      some (q.offset + headerSize + q.packed.payload.length) := by
    rw [haligned, hcompressed, hoff, checkedAdd_eq (by unfold headerSize; omega), Option.bind_some,
      checkedAdd_eq (by unfold headerSize; omega)]
  rw [he, Grf.readEntry, if_neg hlimit, hprotected, if_neg (by simp), hstop]
  simp only
  rw [if_neg (by omega), if_pos trivial, readProtected, if_neg hfits, hoff,
    add_eq (by unfold headerSize; omega), ok_bind, hcompressed, readAt_of_drop hdrop rfl, ok_bind,
    hname, hseeded, hreal, h.decodes]

end Placed.Sealed

/-! ## Placing -/

/-- A protected file at its offset. -/
def ProtectedItem.placed (p : ProtectedItem) (payload : List Byte) (offset : ℕ) : Placed :=
  ⟨p.item, sealedPacked p payload, filelistTypeProtected, offset⟩

/-- A placed entry that can be read, one way or the other. -/
def Placed.Readable (z : Flate) (C : Crypto) (keys : ArchiveKeys) (q : Placed) : Prop :=
  q.Good z ∨ q.Sealed z C keys

section

variable {records keys : ArchiveKeys} {p : ProtectedItem} {parts : List Part}

/-- The script makes a payload, and it can be read wherever it stands. -/
lemma sealed_of_fits (hE : E.Lawful z C) (hkeys : ∀ id, keys.lookup id = records.lookup id)
    (h : (Part.sealed p).Fits z C E records) :
    ∃ payload, Generate.makeEntry C E p.name p.param p.data p.options = .ok payload ∧
      ∀ offset, (p.placed payload offset).Sealed z C keys := by
  obtain ⟨hknown, hlength, hpayload⟩ := h
  have hdata : p.data.length ≤ Protected.maxOutputSize := p.data_le
  have hkey : p.options.Known p.param keys :=
    ⟨hknown.kind, hknown.cid, hknown.comp, hknown.flags, (hkeys _).symm ▸ hknown.key, hknown.edits,
      hknown.packedOverride⟩
  obtain ⟨body, payload, hpad, hmake, hdecode⟩ :=
    makeEntry_decodes hE p.name hkey hdata (by omega)
  have hbody : body.length < 2 ^ 32 := by omega
  rw [Generate.packWord_eq hbody, ok_bind] at hmake
  have hle := hpayload payload hmake
  unfold maxFileUncompressedBytes at hle
  exact ⟨payload, hmake, fun offset =>
    { kind := rfl
      isFile := rfl
      compressed := toNat_ofNat_lt (by omega)
      aligned := rfl
      real := rfl
      payload_le := hpayload payload hmake
      decodes := hdecode hbody }⟩

/-- The loop of the writer places every part. -/
lemma addPart_placed (hz : z.Lawful) (hE : E.Lawful z C)
    (hkeys : ∀ id, keys.lookup id = records.lookup id)
    (hfits : ∀ part ∈ parts, part.Fits z C E records) (body table : List Byte) :
    ∃ qs, parts.foldlM (addPart z C E) (body, table) =
        .ok (body ++ bodyOf qs, table ++ qs.flatMap (Placed.row 0x300)) ∧
      qs.map Placed.item = parts.map Part.item ∧ Offsets body.length qs ∧
      ∀ q ∈ qs, q.Readable z C keys := by
  -- The induction is on the parts, with what the writer has collected so far general.
  induction parts generalizing body table with
  | nil => exact ⟨[], by simp [bodyOf, pure, Except.pure], rfl, trivial, by simp⟩
  | cons part parts ih =>
    have hone : ∃ q : Placed, addPart z C E (body, table) part =
        .ok (body ++ q.packed.payload, table ++ q.row 0x300) ∧ q.item = part.item ∧
          q.offset = body.length ∧ q.Readable z C keys := by
      have hpart := hfits part (by simp)
      cases part with
      | plain item =>
        obtain ⟨p, hp, hgood⟩ := pack_good hz item hpart.1 (fun hfile hstored => by
          rw [entry_data hfile]
          exact hpart.2 hfile hstored) body.length
        have hrow : tableRow 0x300 item.entry p body.length =
            Placed.row 0x300 ⟨item, p, item.kind.flags, body.length⟩ :=
          modernRow_eq (q := ⟨item, p, item.kind.flags, body.length⟩) rfl
        refine ⟨⟨item, p, item.kind.flags, body.length⟩, ?_, rfl, rfl, .inl hgood⟩
        rw [addPart, addSigned, hp, ok_bind, hrow]
        rfl
      | sealed p =>
        obtain ⟨payload, hmake, hsealed⟩ := sealed_of_fits hE hkeys hpart
        refine ⟨p.placed payload body.length, ?_, rfl, rfl, .inr (hsealed _)⟩
        have hrow : tableRow 0x300 ⟨p.name, p.data, filelistTypeProtected, true⟩
            (sealedPacked p payload) body.length = (p.placed payload body.length).row 0x300 := by
          simp [tableRow, Placed.row, Placed.fixedData, ProtectedItem.placed, ProtectedItem.item]
        simp only [addPart]
        rw [hmake, ok_bind, hrow]
        rfl
    obtain ⟨q, hadd, hitem, hoffset, hreadable⟩ := hone
    obtain ⟨qs, hfold, hitems, hoffsets, hqs⟩ := ih (fun part hpart => hfits part (by simp [hpart]))
      (body ++ q.packed.payload) (table ++ q.row 0x300)
    refine ⟨q :: qs, ?_, ?_, ?_, ?_⟩
    · rw [List.foldlM_cons, hadd, ok_bind]
      refine hfold.trans ?_
      simp [bodyOf]
    · rw [List.map_cons, List.map_cons, hitem, hitems]
    · rw [List.length_append] at hoffsets
      exact ⟨hoffset, hoffsets⟩
    · intro q' hq'
      rcases List.mem_cons.mp hq' with rfl | hq'
      · exact hreadable
      · exact hqs q' hq'

end

/-! ## Opening -/

namespace Placed.Readable

variable {keys : ArchiveKeys} {q : Placed}

lemma storedAsFile (h : q.Readable z C keys) : storedAsFile q.entry = q.entry := by
  rcases h with h | h
  · exact storedAsFile_entry h
  · exact h.storedAsFile

lemma isListed (h : q.Readable z C keys) : isListed q.entry = q.item.isFile := by
  rcases h with h | h
  · exact isListed_entry h
  · rw [h.isListed, h.isFile]

lemma readEntry {grf : Grf} (h : q.Readable z C grf.archiveKeys)
    (hsize : grf.size = grf.handle.length) (hfile : q.item.isFile = true)
    (hoffset : q.offset < 2 ^ 63) (rest : List Byte)
    (hdrop : grf.handle.drop (q.offset + headerSize) = q.packed.payload ++ rest) :
    readEntry z C grf (withHashes C q.item.name q.entry) = .ok q.item.data := by
  rcases h with h | h
  · rw [withHashes, unprotected_entry h]
    exact readEntry_placed hsize h hfile hoffset rest hdrop
  · exact h.readEntry hsize hoffset rest hdrop

end Placed.Readable

section

variable {bytes body table footer : List Byte} {count : ℕ}

lemma keyedFile_drop (hbytes : bytes.length = headerSize) :
    (keyedFile z bytes body table footer).drop (body.length + headerSize) =
      leBytes 4 footer.length ++ (leBytes 4 (z.deflate table).length ++ leBytes 4 table.length ++
        (z.deflate table ++ footer)) := by
  rw [keyedFile, Nat.add_comm, ← hbytes, ← List.drop_drop, List.drop_left, List.drop_left]

lemma keyBlockLengthOf_keyedFile (hbytes : bytes.length = headerSize)
    (hfooter : footer.length < 2 ^ 32) : keyBlockLengthOf (keyedFile z bytes body table footer)
      ⟨0x300, body.length + headerSize, count⟩ = .ok footer.length := by
  have hread : readAt (keyedFile z bytes body table footer) (body.length + headerSize) 4 =
      .ok (leBytes 4 footer.length) :=
    readAt_of_drop (keyedFile_drop hbytes) (length_leBytes 4 _).symm
  have hword : (u32Le (leBytes 4 footer.length) 0 : Exec GrfError (BitVec 32)) =
      .ok (BitVec.ofNat 32 footer.length) :=
    u32Le_of_drop (r := []) (by rw [List.append_nil, List.drop_zero])
  rw [keyBlockLengthOf, if_pos rfl]
  simp only
  rw [hread]
  simp only [mapErr, ok_bind, hword]
  rw [toNat_ofNat_lt hfooter]
  rfl

lemma readRawTable_keyedFile (hz : z.Lawful) (hbytes : bytes.length = headerSize)
    (hbody : body.length < 2 ^ 40) (htable : table ≠ []) (hmax : table.length ≤ maxFileTableBytes)
    (hdeflated : (z.deflate table).length < 2 ^ 32) :
    readRawTable z 0x300 (keyedFile z bytes body table footer) (body.length + headerSize + 4) =
      .ok ⟨table, BitVec.ofNat 32 (z.deflate table).length, BitVec.ofNat 32 table.length⟩ := by
  rw [readRawTable, if_neg (by decide)]
  exact readPackedTable_of_drop hz htable hmax hdeflated (by unfold headerSize; omega)
    (drop_of_drop_eq (keyedFile_drop hbytes) (by rw [length_leBytes]))

/-- The key block is read from behind the table. -/
lemma readArchiveKeys_keyedFile (hbytes : bytes.length = headerSize) (hbody : body.length < 2 ^ 40)
    (hdeflated : (z.deflate table).length < 2 ^ 32) (hlimit : footer.length ≤ 20 + 65535 * 64) :
    readArchiveKeys C (keyedFile z bytes body table footer) (body.length + headerSize + 4)
      (BitVec.ofNat 32 (z.deflate table).length) footer.length =
      mapErr (fun e => .corruptTable ("Invalid archive key block: " ++ e.message))
        (Protected.decodeArchiveKeys C footer) := by
  by_cases hnil : footer = []
  · subst hnil
    rfl
  have hpos := List.length_pos_iff.mpr hnil
  have h : (keyedFile z bytes body table footer).drop (body.length + headerSize) = _ :=
    keyedFile_drop hbytes
  have hbehind : (keyedFile z bytes body table footer).drop
      (body.length + headerSize + 4 + fileTableHeaderSize + (z.deflate table).length) =
        footer ++ [] := by
    have htable := drop_of_drop_eq h (q := body.length + headerSize + 4) (by rw [length_leBytes])
    rw [List.append_nil]
    exact drop_of_drop_eq (drop_of_drop_eq htable (by simp [fileTableHeaderSize])) rfl
  have hlen := le_length_of_drop hbehind (by simpa using hnil)
  rw [List.append_nil] at hlen
  have hread := readAt_of_drop hbehind rfl
  unfold fileTableHeaderSize headerSize at *
  rw [readArchiveKeys, if_neg (by omega), add_eq (by unfold fileTableHeaderSize; omega), ok_bind,
    toNat_ofNat_lt hdeflated]
  unfold fileTableHeaderSize
  rw [add_eq (by omega), ok_bind, add_eq (by omega), ok_bind, if_neg (by omega), hread]
  rfl

end

/-! ## Key blocks -/

/-- The key block of some records; there is none without records. -/
def footerOf (C : Crypto) (records : ArchiveKeys) : Exec Empty (List Byte) :=
  if records = [] then .ok [] else Generate.makeFooter C records

lemma length_le_of_distinctIds {records : ArchiveKeys} (h : Protected.DistinctIds records) :
    records.length ≤ 65535 := by
  have hnodup : (records.map fun r => r.1.toNat).Nodup := by
    have hids := h.nodup.map fun (a b : BitVec 32) (hab : a.toNat = b.toNat) =>
      BitVec.eq_of_toNat_eq hab
    rwa [List.map_map] at hids
  have hsubset : (records.map fun r => r.1.toNat) ⊆ List.range' 1 65535 := by
    intro n hn
    obtain ⟨r, hr, rfl⟩ := List.mem_map.mp hn
    have hrange := h.range r hr
    rw [List.mem_range'_1]
    omega
  have hle := (hnodup.subperm hsubset).length_le
  rwa [List.length_map, List.length_range'] at hle

lemma length_keyBlock {raw decoded : List Byte} (h : Protected.KeyBlock C raw decoded) :
    raw.length ≤ 20 + 65535 * 64 := by
  have hlength := h.length_eq
  have hmod := h.size_mod
  have hcount := h.count_le
  omega

/-- The key block of distinct records is read as these records. -/
lemma footerOf_decodes {records : ArchiveKeys} (h : Protected.DistinctIds records) :
    ∃ footer keys, footerOf C records = .ok footer ∧ footer.length ≤ 20 + 65535 * 64 ∧
      Protected.decodeArchiveKeys C footer = .ok keys ∧
        ∀ id, keys.lookup id = records.lookup id := by
  by_cases hnil : records = []
  · subst hnil
    exact ⟨[], [], rfl, by simp, rfl, fun _ => rfl⟩
  obtain ⟨footer, hfooter, hblock⟩ :=
    Protected.makeFooter_keyBlock (C := C) hnil (length_le_of_distinctIds h)
  refine ⟨footer, records.reverse, by rw [footerOf, if_neg hnil, hfooter], length_keyBlock hblock,
    ?_, fun id => ?_⟩
  · rw [Protected.decodeArchiveKeys_eq hblock, Protected.length_packRecords,
      Nat.mul_div_cancel _ (by decide)]
    exact Protected.addRecords_eq_ok_iff.mpr
      ⟨Protected.addable_start.mpr h, (List.append_nil _).symm⟩
  · have hreverse : (records.reverse.map Prod.fst).Nodup := by
      rw [List.map_reverse, List.nodup_reverse]
      exact h.nodup
    ext param
    rw [Protected.lookup_iff hreverse, Protected.lookup_iff h.nodup, List.mem_reverse]

/-- Bytes that are no key block, or the one of records whose ids are not distinct or not in
range. -/
def Spoilt (C : Crypto) (footer : List Byte) : Prop :=
  footer ≠ [] ∧ ((∀ decoded, ¬Protected.KeyBlock C footer decoded) ∨
    ∃ records : ArchiveKeys, records.length ≤ 65535 ∧ ¬Protected.DistinctIds records ∧
      Generate.makeFooter C records = .ok footer)

lemma decodeArchiveKeys_spoilt {footer : List Byte} (h : Spoilt C footer) :
    ∃ e, Protected.decodeArchiveKeys C footer = fail e := by
  obtain ⟨hne, hnone | ⟨records, hlen, hids, hmake⟩⟩ := h
  · exact Protected.decodeArchiveKeys_refuses hne hnone
  · have hnil : records ≠ [] := by
      rintro rfl
      exact hids ⟨by simp, by simp⟩
    obtain ⟨footer', hfooter, hblock⟩ := Protected.makeFooter_keyBlock (C := C) hnil hlen
    obtain rfl := Except.ok.inj (hfooter.symm.trans hmake)
    refine (ends_decodeArchiveKeys C footer').fails fun keys hkeys => hids ?_
    rw [Protected.decodeArchiveKeys_eq hblock, Protected.length_packRecords,
      Nat.mul_div_cancel _ (by decide)] at hkeys
    exact Protected.addable_start.mp (Protected.addRecords_eq_ok_iff.mp hkeys).1

/-! ## Archives -/

section

variable {records : ArchiveKeys} {parts : List Part}

/-- The parts of an archive, placed. -/
structure PartsLaid (z : Flate) (C : Crypto) (E : Generate.Encoders) (keys : ArchiveKeys)
    (parts : List Part) (qs : List Placed) : Prop where
  collect_eq : parts.foldlM (addPart z C E) ([], []) =
    .ok (bodyOf qs, qs.flatMap (Placed.row 0x300))
  items_eq : qs.map Placed.item = parts.map Part.item
  offsets : Offsets 0 qs
  readable : ∀ q ∈ qs, q.Readable z C keys

/-- The archive that is written, and what the reader makes of its header and its table. -/
lemma writeKeyed_eq (hz : z.Lawful) {keys : ArchiveKeys} {qs : List Placed}
    (hlaid : PartsLaid z C E keys parts qs) (hfits : KeyedFits z C E records parts)
    (footer : List Byte) :
    ∃ bytes table file, writeKeyed z C E parts footer = .ok file ∧
      file = keyedFile z bytes (bodyOf qs) table footer ∧ bytes.length = headerSize ∧
      (z.deflate table).length < 2 ^ 32 ∧ readAt file 0 headerSize = .ok bytes ∧
      parseHeader bytes = .ok ⟨0x300, (bodyOf qs).length + headerSize, parts.length⟩ ∧
      readRawTable z 0x300 file ((bodyOf qs).length + headerSize + 4) =
        .ok ⟨table, BitVec.ofNat 32 (z.deflate table).length, BitVec.ofNat 32 table.length⟩ ∧
      ∃ out, readTable 0x300 table parts.length = .ok (table, out) ∧ Walk table qs out := by
  have hcollect := hlaid.collect_eq
  have hbody := hfits.body_lt _ _ hcollect
  have htable := hfits.table_le _ _ hcollect
  have hdeflated := hfits.deflatedTable_lt _ _ hcollect
  have hcount := hfits.count_le
  unfold maxEntries at hcount
  have hlen : qs.length = parts.length := by
    have hmap := congrArg List.length hlaid.items_eq
    rwa [List.length_map, List.length_map] at hmap
  have hsigned : Signed masterOfMagic := signed_signature .v300
  have hbytes := length_headerBytes hsigned.1 (bodyOf qs).length ((bodyOf qs).length >>> 32)
    parts.length 0x300
  have hheader := headerOf_eq hsigned.1 (bodyOf qs).length ((bodyOf qs).length >>> 32)
    parts.length 0x300
  have hparse := parseHeader_300 hsigned hbody (show parts.length < 2 ^ 32 by omega)
  have htableNe : qs.flatMap (Placed.row 0x300) ≠ [] := by
    refine flatMap_ne_nil (fun q => by simp [Placed.row]) fun hnil => hfits.ne_nil ?_
    rwa [hnil, List.length_nil, eq_comm, List.length_eq_zero_iff] at hlen
  generalize headerBytes masterOfMagic (bodyOf qs).length ((bodyOf qs).length >>> 32)
    parts.length 0x300 = bytes at hbytes hheader hparse
  have hwhole : (qs.flatMap (Placed.row 0x300)).drop 0 = qs.flatMap (Placed.row 0x300) ++ [] := by
    rw [List.drop_zero, List.append_nil]
  have hversion : 0x300 < 2 ^ 32 := by decide
  obtain ⟨out, hout, hwalk⟩ := modernEntries_placed hversion
    (by unfold maxFileTableBytes at htable; omega)
    (fun q hq => (hlaid.readable q hq).storedAsFile)
    (fun q hq => by
      have hle := offset_le hlaid.offsets hq
      rw [if_pos rfl]
      omega) 0 hwhole
  refine ⟨bytes, qs.flatMap (Placed.row 0x300), _, ?_, rfl, hbytes, hdeflated, ?_, hparse,
    readRawTable_keyedFile hz hbytes hbody htableNe htable hdeflated, out, ?_, hwalk⟩
  · rw [writeKeyed, hcollect, ok_bind]
    simp only
    rw [hheader, ok_bind]
    rfl
  · exact readAt_of_drop List.drop_zero hbytes.symm
  · have hmodern : modernEntries (qs.flatMap (Placed.row 0x300)) 0x300 qs.length 0 0 = .ok out := hout
    rw [readTable, if_neg (by decide), readModernTable, ← hlen, hmodern]
    rfl

/-- What an open archive lists is what was placed. -/
lemma holds_of_readable {grf : Grf} {qs : List Placed} {bytes rest : List Byte}
    (hlaid : PartsLaid z C E grf.archiveKeys parts qs) (hsize : grf.size = grf.handle.length)
    (hfiles : grf.files = listing T C grf.stats.detectedEncoding qs)
    (hhandle : grf.handle = bytes ++ (bodyOf qs ++ rest)) (hbytes : bytes.length = headerSize)
    (hbody : (bodyOf qs).length < 2 ^ 63) : Holds T z C grf (parts.map Part.item) := by
  have hfilter : (parts.map Part.item).filter Item.isFile =
      (qs.filter fun q => isListed q.entry).map Placed.item := by
    rw [← hlaid.items_eq, List.filter_map]
    exact congrArg _ (List.filter_congr fun q hq => (hlaid.readable q hq).isListed.symm)
  rw [Holds, hfiles, hfilter, listing, List.forall₂_map_left_iff, List.forall₂_map_right_iff,
    List.forall₂_same]
  intro q hq
  obtain ⟨hq, hlisted⟩ := List.mem_filter.mp hq
  have hreadable := hlaid.readable q hq
  have hle := offset_le hlaid.offsets hq
  obtain ⟨-, r, hr⟩ := bodyOf_drop hlaid.offsets hq
  rw [Nat.sub_zero] at hr
  refine ⟨rfl, hreadable.readEntry hsize (hreadable.isListed ▸ hlisted) (by omega) (r ++ rest) ?_⟩
  rw [hhandle, Nat.add_comm, ← hbytes, ← List.drop_drop, List.drop_left,
    List.drop_append_of_le_length hle, hr, List.append_assoc]

/-- **An archive with a key block is read back.** -/
lemma open_keyed (T : TextLib) (hz : z.Lawful) (hE : E.Lawful z C) (fileName : String)
    (hids : Protected.DistinctIds records) (hfits : KeyedFits z C E records parts) :
    ∃ footer file grf, footerOf C records = .ok footer ∧
      writeKeyed z C E parts footer = .ok file ∧ openArchive T z C fileName file = .ok grf ∧
      Holds T z C grf (parts.map Part.item) := by
  obtain ⟨footer, keys, hfooter, hlimit, hdecode, hkeys⟩ := footerOf_decodes (C := C) hids
  obtain ⟨qs, hcollect, hitems, hoffsets, hreadable⟩ :=
    addPart_placed hz hE hkeys hfits.fits [] []
  have hlaid : PartsLaid z C E keys parts qs := ⟨hcollect, hitems, hoffsets, hreadable⟩
  have hbody := hfits.body_lt _ _ hlaid.collect_eq
  obtain ⟨bytes, table, file, hwrite, hfile, hbytes, hdeflated, hread, hparse, hraw, out, htable,
    hwalk⟩ := writeKeyed_eq hz hlaid hfits footer
  have hpos : (add ((bodyOf qs).length + headerSize) (if (0x300 : BitVec 32) = 0x300 then 4 else 0) :
      Exec GrfError ℕ) = .ok ((bodyOf qs).length + headerSize + 4) := by
    rw [if_pos rfl]
    exact add_eq (by unfold headerSize; omega)
  have hkey : keyBlockLengthOf file ⟨0x300, (bodyOf qs).length + headerSize, parts.length⟩ =
      .ok footer.length := by
    rw [hfile]
    exact keyBlockLengthOf_keyedFile hbytes (by omega)
  have hblock : readArchiveKeys C file ((bodyOf qs).length + headerSize + 4)
      (BitVec.ofNat 32 (z.deflate table).length) footer.length = .ok keys := by
    rw [hfile, readArchiveKeys_keyedFile hbytes hbody hdeflated hlimit, hdecode]
    rfl
  obtain ⟨grf, hopen, hhandle, hsize, harchive, hfiles⟩ := open_of_keyed_table (T := T) (C := C)
    fileName hread hparse hfits.count_le hkey hlimit hpos hraw hblock htable hwalk
  exact ⟨footer, file, grf, hfooter, hwrite, hopen, holds_of_readable (harchive ▸ hlaid)
    (by rw [hsize, hhandle]) hfiles (by rw [hhandle, hfile, keyedFile]) hbytes (by omega)⟩

/-- **An archive with a spoilt key block is refused.** -/
lemma refuse_spoilt (T : TextLib) (hz : z.Lawful) (hE : E.Lawful z C) (fileName : String)
    (hfits : KeyedFits z C E records parts) {footer : List Byte} (hlength : footer.length < 2 ^ 32)
    (hspoilt : Spoilt C footer) : ∃ file e,
      writeKeyed z C E parts footer = .ok file ∧ openArchive T z C fileName file = fail e := by
  obtain ⟨qs, hcollect, hitems, hoffsets, hreadable⟩ :=
    addPart_placed hz hE (fun _ => rfl) hfits.fits [] []
  have hlaid : PartsLaid z C E records parts qs := ⟨hcollect, hitems, hoffsets, hreadable⟩
  have hbody := hfits.body_lt _ _ hlaid.collect_eq
  have hcount := hfits.count_le
  obtain ⟨bytes, table, file, hwrite, hfile, hbytes, hdeflated, hread, hparse, hraw, -⟩ :=
    writeKeyed_eq hz hlaid hfits footer
  obtain ⟨e, he⟩ := decodeArchiveKeys_spoilt hspoilt
  have hpos : (add ((bodyOf qs).length + headerSize) 4 : Exec GrfError ℕ) =
      .ok ((bodyOf qs).length + headerSize + 4) := add_eq (by unfold headerSize; omega)
  have hkey : keyBlockLengthOf file ⟨0x300, (bodyOf qs).length + headerSize, parts.length⟩ =
      .ok footer.length := by
    rw [hfile]
    exact keyBlockLengthOf_keyedFile hbytes hlength
  suffices hrefused : ∃ e, openArchive T z C fileName file = fail e by
    obtain ⟨e, hopen⟩ := hrefused
    exact ⟨file, e, hwrite, hopen⟩
  rw [openArchive, openWithEncoding, hread]
  simp only [mapErr, ok_bind, hparse]
  rw [if_neg (by omega), hkey, ok_bind]
  -- A block that is too long is refused before it is read.
  by_cases hlong : 20 + 65535 * 64 < footer.length
  · exact ⟨_, if_pos hlong⟩
  · rw [if_neg hlong, if_pos trivial, hpos, ok_bind, hraw, ok_bind, hfile,
      readArchiveKeys_keyedFile hbytes hbody hdeflated (by omega), he]
    exact ⟨_, rfl⟩

/-- **Protected archives are read back.**  Let ordinary and protected files be written to a 0x300
archive with a key block for some records with distinct ids in range: within the limits of the
reader, no deflated body as long as its content, and each protected file with what the decoder
knows and a key that is in its header or among the records (`KeyedFits`).  Then the archive opens,
lists its files in table order, and each is read back.  With bytes that are no key block, or with
one whose ids are not distinct or not in range, it is refused. -/
theorem protected_archives_are_read (T : TextLib) (hz : z.Lawful) (hE : E.Lawful z C)
    (fileName : String) (hids : Protected.DistinctIds records)
    (hfits : KeyedFits z C E records parts) :
    (∃ footer file grf, footerOf C records = .ok footer ∧
      writeKeyed z C E parts footer = .ok file ∧ openArchive T z C fileName file = .ok grf ∧
      Holds T z C grf (parts.map Part.item)) ∧
    ∀ footer, footer.length < 2 ^ 32 → Spoilt C footer → ∃ file e,
      writeKeyed z C E parts footer = .ok file ∧ openArchive T z C fileName file = fail e :=
  ⟨open_keyed T hz hE fileName hids hfits,
    fun _ hlength hspoilt => refuse_spoilt T hz hE fileName hfits hlength hspoilt⟩

end

/-! ## A sample archive -/

/-- The table of the sample archive, and its zlib stream. -/
def sealedTable : List Byte :=
  [100, 0, 0, 0, 0, 0, 0, 0, 0, 0, 0, 0, 0, 0, 0, 0, 0, 0, 0, 0, 0, 0, 0, 100, 92, 97, 0, 11, 0, 0,
  0, 11, 0, 0, 0, 3, 0, 0, 0, 1, 0, 0, 0, 0, 0, 0, 0, 0, 100, 97, 116, 97, 92, 199, 209, 177, 219,
  92, 112, 114, 111, 116, 101, 99, 116, 101, 100, 46, 116, 120, 116, 0, 247, 0, 0, 0, 247, 0, 0, 0,
  143, 0, 0, 0, 128, 11, 0, 0, 0, 0, 0, 0, 0]

def sealedTableStream : List Byte :=
  [120, 156, 75, 97, 192, 10, 82, 98, 18, 25, 184, 129, 52, 8, 51, 3, 49, 35, 92, 34, 177, 36, 49,
  230, 248, 197, 141, 183, 99, 10, 138, 242, 75, 82, 147, 75, 82, 83, 244, 74, 42, 74, 24, 190, 3,
  229, 64, 184, 31, 136, 27, 184, 161, 138, 1, 31, 142, 15, 118]

def sealedStreams : Streams where
  known := [(sampleContent, sampleContentStream), (sealedTable, sealedTableStream)]
  header := by decide
  apart := by decide

/-- zlib on the sample archive. -/
def sealedFlate : Flate := sealedStreams.flate

def sealedRecords : ArchiveKeys := [(7, fixtureParam)]

/-- The fields of the header that are summed: the cipher, the three sizes, the digest of the
output, and the key. -/
def sealedFields : List Byte :=
  [133, 0, 0, 0] ++ leBytes 4 143 ++ leBytes 4 143 ++ leBytes 4 143 ++
    leBytes 16 0xd1138dea1b9f6c2fe278bc6c8bc2bccb ++ leBytes 4 7 ++ fixtureParam.toList

/-- The SHA-256 of the secret of key blocks. -/
def secretDigest : Vector Byte 32 := ⟨#[
    82, 240, 210, 101, 37, 84, 12, 213, 94, 45, 161, 62, 229, 192, 221, 60, 84, 126, 86, 226, 58, 123,
    65, 123, 43, 2, 131, 193, 123, 234, 51, 148], by decide⟩

/-- The hashes of the sample archive; it asks for no block of AES. -/
def sealedCrypto : Crypto :=
  { fixtureCrypto with
    sha256 := fun data =>
      if data = Generate.footerHashInput then secretDigest else Vector.replicate 32 0
    xxh32 := fun data _ =>
      if data = sealedRecords.flatMap Generate.packRecord then 0x954f7a4f
      else if data = sealedFields then 0xaeb6a8a1
      else 0
    xxh3_128WithSeed := fun data seed =>
      if data = fixtureName ∧ seed = 143 then 0xc20ef458f5389a024bc596ef7467714f else 0 }

/-- The script writes the key block that stands in the tests, byte for byte. -/
example : footerOf sealedCrypto sealedRecords = .ok
    [1, 1, 0, 0, 0, 241, 83, 101, 0, 0, 0, 0, 64, 0, 0, 0, 79, 122, 79, 149, 15, 118, 101, 92, 102,
    247, 204, 34, 84, 84, 60, 224, 100, 72, 95, 113, 182, 61, 68, 162, 84, 21, 104, 33, 216, 122,
    204, 167, 46, 95, 147, 162, 173, 227, 230, 246, 14, 231, 175, 129, 64, 220, 219, 141, 39, 124,
    40, 163, 200, 78, 186, 227, 101, 33, 92, 56, 64, 182, 116, 153, 132, 11, 79, 210] := by
  decide +kernel

/-- The compression of the sample archive, and no AES. -/
def sealedEncoders : Generate.Encoders :=
  ⟨fun _ block => block, sealedStreams.deflate, fun data => data⟩

lemma sealed_lawful : sealedEncoders.Lawful sealedFlate sealedCrypto where
  aes := fun _ _ => rfl
  zlib := by
    intro data room hroom
    obtain ⟨r, hr, hstatus, hin, hout, hbuffer⟩ :=
      Streams.flate_decompress (S := sealedStreams) data [] hroom
    rw [List.append_nil] at hr
    exact ⟨r, hr, hstatus, hout, hin, hbuffer⟩
  lz4 := fixture_lawful.lz4

lemma fixtureName_nul_free : (0 : Byte) ∉ fixtureName := by decide

lemma fixtureOutput_le : fixtureOutput.length ≤ maxFileUncompressedBytes := by decide +kernel

/-- The fixture under a key of the archive. -/
def sealedItem : ProtectedItem :=
  ⟨fixtureName, fixtureOutput, fixtureParam, { kind := 0x71, cid := 133, kid := 7 },
    fixtureName_nul_free, fixtureOutput_le⟩

def sealedParts : List Part := sampleItems.map Part.plain ++ [.sealed sealedItem]

lemma sealed_payload : ((Generate.makeEntry sealedCrypto sealedEncoders fixtureName fixtureParam
    fixtureOutput { kind := 0x71, cid := 133, kid := 7 }).toOption.map List.length) = some 247 := by
  decide +kernel

/-- The sizes of the sample archive. -/
lemma sealed_collect : (sealedParts.foldlM (addPart sealedFlate sealedCrypto sealedEncoders)
    ([], [])).toOption.map (fun x => (x.1.length, x.2.length,
      (sealedFlate.deflate x.2).length)) = some (258, 93, 59) := by
  decide +kernel

lemma sealed_sizes {body table : List Byte}
    (h : sealedParts.foldlM (addPart sealedFlate sealedCrypto sealedEncoders) ([], []) =
      .ok (body, table)) : body.length = 258 ∧ table.length = 93 ∧
        (sealedFlate.deflate table).length = 59 := by
  have hcollect := sealed_collect
  rw [h] at hcollect
  have hsizes := Option.some.inj hcollect
  simp only [Prod.mk.injEq] at hsizes
  exact hsizes

lemma sealed_fits :
    KeyedFits sealedFlate sealedCrypto sealedEncoders sealedRecords sealedParts where
  ne_nil := by decide
  count_le := by decide
  fits := by
    intro part hpart
    rcases List.mem_append.mp hpart with hpart | hpart
    · obtain ⟨item, hitem, rfl⟩ := List.mem_map.mp hpart
      have hdeflated : ∀ item ∈ sampleItems,
          (sealedFlate.deflate item.entry.data).length + 7 < 2 ^ 32 ∧
            (sealedFlate.deflate item.data).length ≠ item.data.length := by
        decide +kernel
      exact ⟨(hdeflated item hitem).1, fun _ _ => (hdeflated item hitem).2⟩
    · obtain rfl := List.mem_singleton.mp hpart
      refine ⟨⟨by decide, by decide, by decide, by decide, .inr rfl, rfl, rfl⟩, by decide +kernel,
        fun payload hmake => ?_⟩
      have hlength := sealed_payload
      have hmake' : Generate.makeEntry sealedCrypto sealedEncoders fixtureName fixtureParam
        fixtureOutput { kind := 0x71, cid := 133, kid := 7 } = .ok payload := hmake
      rw [hmake'] at hlength
      rw [Option.some.inj hlength]
      decide
  body_lt := by
    intro body table h
    rw [(sealed_sizes h).1]
    decide
  table_le := by
    intro body table h
    rw [(sealed_sizes h).2.1]
    decide
  deflatedTable_lt := by
    intro body table h
    rw [(sealed_sizes h).2.2]
    decide

/-- A directory, an ordinary file and a protected one under a key of the archive, read back. -/
theorem protected_archives_are_read_sample :
    (∃ footer file grf, footerOf sealedCrypto sealedRecords = .ok footer ∧
      writeKeyed sealedFlate sealedCrypto sealedEncoders sealedParts footer = .ok file ∧
      openArchive TextLib.ascii sealedFlate sealedCrypto "sample.grf" file = .ok grf ∧
      Holds TextLib.ascii sealedFlate sealedCrypto grf (sealedParts.map Part.item)) ∧
    ∀ footer, footer.length < 2 ^ 32 → Spoilt sealedCrypto footer → ∃ file e,
      writeKeyed sealedFlate sealedCrypto sealedEncoders sealedParts footer = .ok file ∧
        openArchive TextLib.ascii sealedFlate sealedCrypto "sample.grf" file = fail e :=
  protected_archives_are_read TextLib.ascii sealedStreams.flate_lawful sealed_lawful "sample.grf"
    ⟨by decide, by decide⟩ sealed_fits

end Writer
end Grf
end RemoteClient
