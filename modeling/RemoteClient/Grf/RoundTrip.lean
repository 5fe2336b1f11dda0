/-
# What is written is read back

For each layout the writer knows, the reader opens the archive that was written, lists
exactly its files in table order, and reads from each the bytes that were added
(`open_write`).  Listing keeps the files among the placed entries (`addEntries_walk`), and
reading one finds its body (`readEntry_placed`).
-/
import RemoteClient.Grf.Placed

namespace RemoteClient
namespace Grf
namespace Writer

open Exec Bytes Blocks

variable {T : TextLib} {z : Flate} {C : Crypto}

/-! ## Reading a placed entry -/

lemma unprotected_entry {q : Placed} (h : q.Good z) : q.entry.isProtected = false := by
  have hzero : q.entry.kind &&& filelistTypeProtected = 0 := h.unprotected
  rw [GrfEntry.isProtected, hzero]
  rfl

/-- **Reading a placed file gives its content**, wherever its body stands in the archive. -/
lemma readEntry_placed {grf : Grf} (hsize : grf.size = grf.handle.length) {q : Placed}
    (hgood : q.Good z) (hfile : q.item.isFile = true) (hoffset : q.offset < 2 ^ 63)
    (rest : List Byte)
    (h : grf.handle.drop (q.offset + headerSize) = q.packed.payload ++ rest) :
    readEntry z C grf q.entry = .ok q.item.data := by
  have hdec := hgood.decodes hfile
  have hreal : q.entry.realSize.toNat = q.item.data.length := hdec.toNat_realSize
  have hoff : q.entry.offset.toNat = q.offset := by
    change (BitVec.ofNat 64 q.offset).toNat = q.offset
    rw [BitVec.toNat_ofNat]
    exact Nat.mod_eq_of_lt (by omega)
  have haligned : q.entry.lengthAligned = q.packed.lengthAligned := rfl
  have hlimit := q.item.data_le
  unfold readEntry
  rw [if_neg (by omega), unprotected_entry hgood, hoff, haligned]
  -- An empty body is not looked for in the archive: the source returns the empty content.
  by_cases hzero : q.packed.lengthAligned = 0
  · rw [if_pos ⟨hzero, rfl⟩, hdec.eq_nil hzero]
    rfl
  · rw [if_neg fun hand => hzero hand.1]
    have hlen := hdec.length_payload
    have hpos : 0 < q.packed.payload.length := by
      rw [hlen]
      refine Nat.pos_of_ne_zero fun hnat => hzero (BitVec.eq_of_toNat_eq ?_)
      rw [hnat]
      rfl
    have hword := q.packed.lengthAligned.isLt
    have hrange := le_length_of_drop h fun hnil => by
      have := congrArg List.length hnil
      rw [List.length_append, List.length_nil] at this
      omega
    rw [List.length_append] at hrange
    -- No sum of the bounds test leaves a machine word.
    have hsum : q.offset + headerSize + q.packed.lengthAligned.toNat < 2 ^ 64 := by
      unfold headerSize
      omega
    have hstop : ((checkedAdd q.offset headerSize).bind fun start =>
        checkedAdd start q.packed.lengthAligned.toNat) =
        some (q.offset + headerSize + q.packed.lengthAligned.toNat) := by
      rw [checkedAdd_eq (by omega), Option.bind_some, checkedAdd_eq hsum]
    rw [hstop]
    simp only
    rw [if_neg (by omega), if_neg (by simp), add_eq (by omega), ok_bind,
      readAt_of_drop h hlen.symm, ok_bind]
    exact hdec.decodeBody_eq q.entry rfl rfl rfl rfl

/-! ## Listing -/

lemma isListed_entry {q : Placed} (h : q.Good z) : isListed q.entry = q.item.isFile := by
  have hunprotected := unprotected_entry h
  cases hfile : q.item.isFile with
  | true =>
    have hreal : q.entry.realSize.toNat = q.item.data.length := (h.decodes hfile).toNat_realSize
    have hbit : (q.entry.kind &&& filelistTypeFile != 0) = true := bne_iff_ne.mpr (h.file_bit hfile)
    rw [isListed, hreal, hbit, decide_eq_true q.item.data_le]
    rfl
  | false =>
    have hkind : q.entry.kind = 0 := (h.directory hfile).1
    have hbit : ((0 : Byte) &&& filelistTypeFile != 0) = false := by decide
    rw [isListed, hkind, hbit, hunprotected]
    simp

/-- The files among placed entries, as the reader lists them. -/
def listed (T : TextLib) (encoding : FilenameEncoding) (qs : List Placed) : List GrfFile :=
  (qs.filter fun q => q.item.isFile).map fun q => ⟨encoding.decode T q.item.name, q.entry⟩

/-- What the reader lists of placed entries; a protected one gets its hashes. -/
def listing (T : TextLib) (C : Crypto) (encoding : FilenameEncoding) (qs : List Placed) :
    List GrfFile :=
  (qs.filter fun q => isListed q.entry).map fun q =>
    ⟨encoding.decode T q.item.name, withHashes C q.item.name q.entry⟩

lemma addEntries_placed (encoding : FilenameEncoding) {data : List Byte} {qs : List Placed}
    {out : List (ByteRange × GrfEntry)} (hwalk : Walk data qs out) (l : Listing) :
    ∃ l', out.foldlM (addEntry T C encoding data) l = .ok l' ∧
      l'.files = l.files ++ listing T C encoding qs := by
  induction hwalk generalizing l with
  | nil => exact ⟨l, rfl, by simp [listing]⟩
  | @cons q it qs out hhead _ ih =>
    obtain ⟨hslice, hentry⟩ := hhead
    rw [List.foldlM_cons]
    unfold addEntry
    simp only
    -- A file is added to the listing, a directory is skipped.
    rw [hentry]
    cases hlisted : isListed q.entry with
    | true =>
      simp only [hslice, ok_bind]
      obtain ⟨l', hl', hfiles⟩ := ih _
      refine ⟨l', hl', ?_⟩
      rw [hfiles, listing, listing, List.filter_cons, if_pos hlisted, List.map_cons,
        List.append_assoc]
      rfl
    | false =>
      obtain ⟨l', hl', hfiles⟩ := ih l
      refine ⟨l', hl', ?_⟩
      rw [hfiles, listing, listing, List.filter_cons, if_neg (by simp [hlisted])]

/-- **Listing keeps exactly the files**, in table order. -/
lemma listing_eq (encoding : FilenameEncoding) {qs : List Placed} (hqs : ∀ q ∈ qs, q.Good z) :
    listing T C encoding qs = listed T encoding qs := by
  have hfilter : qs.filter (fun q => isListed q.entry) = qs.filter fun q => q.item.isFile :=
    List.filter_congr fun q hq => isListed_entry (hqs q hq)
  rw [listing, listed, hfilter]
  refine List.map_congr_left fun q hq => ?_
  rw [withHashes, unprotected_entry (hqs q (List.mem_filter.mp hq).1)]
  rfl

lemma sampleNames_walk {data : List Byte} {qs : List Placed} {out : List (ByteRange × GrfEntry)}
    (hwalk : Walk data qs out) (n : ℕ) : ∃ samples, sampleNames data n out = .ok samples := by
  induction hwalk generalizing n with
  | nil => cases n <;> exact ⟨[], rfl⟩
  | @cons q it qs out hhead _ ih =>
    obtain ⟨name, entry⟩ := it
    cases n with
    | zero => exact ⟨[], rfl⟩
    | succ n =>
      unfold sampleNames
      rw [hhead.1, ok_bind]
      split
      · obtain ⟨samples, hsamples⟩ := ih n
        rw [hsamples]
        exact ⟨_, rfl⟩
      · exact ih (n + 1)

lemma chooseEncoding_walk {data : List Byte} {qs : List Placed}
    {out : List (ByteRange × GrfEntry)} (hwalk : Walk data qs out)
    (forced : Option FilenameEncoding) :
    ∃ encoding, chooseEncoding T forced data out = .ok encoding := by
  cases forced with
  | some encoding => exact ⟨encoding, rfl⟩
  | none =>
    obtain ⟨samples, hsamples⟩ := sampleNames_walk hwalk detectSampleCount
    rw [chooseEncoding, hsamples]
    exact ⟨_, rfl⟩

/-! ## The header -/

/-- Copying over a part of the same length replaces it. -/
lemma copyInto_append {x y t s : List Byte} {n : ℕ} (hn : n = x.length)
    (h : y.length = s.length) : copyInto (x ++ (y ++ t)) n s = .ok (x ++ (s ++ t)) := by
  have hlen : n + s.length ≤ (x ++ (y ++ t)).length := by
    rw [List.length_append, List.length_append]
    omega
  rw [copyInto, if_pos hlen, splice_append hn h]

/-- The header as the writer puts it together. -/
def headerBytes (signature : List Byte) (word30 word34 word38 version : ℕ) : List Byte :=
  (signature ++ List.replicate (30 - signature.length) 0) ++
    (leBytes 4 word30 ++ (leBytes 4 word34 ++ (leBytes 4 word38 ++ leBytes 4 version)))

lemma headerOf_eq {signature : List Byte} (h : signature.length ≤ 30)
    (word30 word34 word38 version : ℕ) :
    headerOf signature word30 word34 word38 version =
      .ok (headerBytes signature word30 word34 word38 version) := by
  let four : List Byte := List.replicate 4 0
  have hfour : ∀ n, four.length = (leBytes 4 n).length := fun n => by simp [four]
  -- The 46 zero bytes, cut where the fields will be written.
  have hzeros : List.replicate 46 (0 : Byte) = [] ++ (List.replicate signature.length 0 ++
      (List.replicate (30 - signature.length) 0 ++ (four ++ (four ++ (four ++ four))))) := by
    simp only [four, List.nil_append, List.replicate_append_replicate]
    congr 1
    omega
  have hlen : (signature ++ List.replicate (30 - signature.length) (0 : Byte)).length = 30 := by
    rw [List.length_append, List.length_replicate]
    omega
  generalize hfront : signature ++ List.replicate (30 - signature.length) (0 : Byte) = front at hlen
  have h0 := copyInto_append (x := []) (y := List.replicate signature.length 0)
    (t := List.replicate (30 - signature.length) 0 ++ (four ++ (four ++ (four ++ four))))
    (s := signature) (n := 0) rfl (by simp)
  have h30 := copyInto_append (x := front) (y := four) (t := four ++ (four ++ four))
    (s := leBytes 4 word30) (n := 30) hlen.symm (hfour _)
  have h34 := copyInto_append (x := front ++ leBytes 4 word30) (y := four) (t := four ++ four)
    (s := leBytes 4 word34) (n := 34) (by simp [hlen]) (hfour _)
  have h38 := copyInto_append (x := front ++ leBytes 4 word30 ++ leBytes 4 word34) (y := four)
    (t := four) (s := leBytes 4 word38) (n := 38) (by simp [hlen]) (hfour _)
  have h42 := copyInto_append
    (x := front ++ leBytes 4 word30 ++ leBytes 4 word34 ++ leBytes 4 word38) (y := four) (t := [])
    (s := leBytes 4 version) (n := 42) (by simp [hlen]) (hfour _)
  simp only [List.append_assoc, List.nil_append, List.append_nil] at h34 h38 h42 h0
  have hsplit : signature ++ (List.replicate (30 - signature.length) 0 ++
      (four ++ (four ++ (four ++ four)))) = front ++ (four ++ (four ++ (four ++ four))) := by
    rw [← List.append_assoc, hfront]
  rw [hsplit] at h0
  rw [headerOf, hzeros]
  simp only [List.nil_append]
  rw [h0, ok_bind, h30, ok_bind, h34, ok_bind, h38, ok_bind, h42, headerBytes, hfront]

lemma headerBytes_drop {signature : List Byte} (h : signature.length ≤ 30)
    (word30 word34 word38 version : ℕ) :
    (headerBytes signature word30 word34 word38 version).drop 30 = leBytes 4 word30 ++
      (leBytes 4 word34 ++ (leBytes 4 word38 ++ (leBytes 4 version ++ []))) := by
  rw [headerBytes, List.append_nil]
  refine List.drop_left' ?_
  rw [List.length_append, List.length_replicate]
  omega

lemma length_headerBytes {signature : List Byte} (h : signature.length ≤ 30)
    (word30 word34 word38 version : ℕ) :
    (headerBytes signature word30 word34 word38 version).length = headerSize := by
  simp only [headerBytes, List.length_append, List.length_replicate, length_leBytes]
  unfold headerSize
  omega

/-- A signature the reader accepts. -/
def Signed (signature : List Byte) : Prop :=
  signature.length ≤ 30 ∧
    ((((signature ++ List.replicate (30 - signature.length) 0).take 15).takeWhile (· ≠ 0)).map
      fun b : Byte => Char.ofNat b.toNat) ∈ headerSignatures

lemma signed_signature (layout : Layout) : Signed layout.signature := by
  cases layout <;> exact ⟨by decide, by decide⟩

/-- The fields in front of the version word are read as the 0x200 layout has them. -/
lemma parse200_headerBytes {signature : List Byte} (h : signature.length ≤ 30) {offset count : ℕ}
    (hoffset : offset < 2 ^ 32) (hcount : count + 7 < 2 ^ 32) (version : ℕ) :
    parse200 (headerBytes signature offset 0 (count + 7) version) =
      .ok (offset + headerSize, count) := by
  have h30 := headerBytes_drop h offset 0 (count + 7) version
  have h34 := drop_of_drop_eq h30 (q := 34) (by simp)
  have h38 := drop_of_drop_eq h34 (q := 38) (by simp)
  have hcount' : (max (((count + 7 : ℕ) : ℤ) - ((0 : ℕ) : ℤ) - 7) 0).toNat = count := by omega
  rw [parse200, u32Le_of_drop h30, ok_bind, toNat_ofNat_lt hoffset,
    add_eq (by unfold headerSize; omega), ok_bind, u32Le_of_drop h34, ok_bind,
    u32Le_of_drop h38, ok_bind, toNat_ofNat_lt hcount, toNat_ofNat_lt (by omega)]
  simp only [hcount']
  rfl

/-- What the reader sees of a header before it looks at the version. -/
lemma parseHeader_prefix {signature : List Byte} (hsigned : Signed signature)
    (word30 word34 word38 version : ℕ) :
    let bytes := headerBytes signature word30 word34 word38 version
    ¬bytes.length < headerSize ∧ (∃ field, (slice bytes 0 15 : Exec GrfError (List Byte)) = .ok field ∧
      ((field.takeWhile (· ≠ 0)).map fun b : Byte => Char.ofNat b.toNat) ∈ headerSignatures) ∧
    (u32Le bytes 42 : Exec GrfError (BitVec 32)) = .ok (BitVec.ofNat 32 version) := by
  obtain ⟨hlen, hmem⟩ := hsigned
  have h30 := headerBytes_drop hlen word30 word34 word38 version
  have h34 := drop_of_drop_eq h30 (q := 34) (by simp)
  have h38 := drop_of_drop_eq h34 (q := 38) (by simp)
  have h42 := drop_of_drop_eq h38 (q := 42) (by simp)
  have hsize := length_headerBytes hlen word30 word34 word38 version
  have hfield : (headerBytes signature word30 word34 word38 version).take 15 =
      (signature ++ List.replicate (30 - signature.length) 0).take 15 := by
    rw [headerBytes, List.take_append_of_le_length]
    rw [List.length_append, List.length_replicate]
    omega
  refine ⟨by omega, ⟨_, ?_, hmem⟩, u32Le_of_drop h42⟩
  rw [← hfield, slice_eq (by omega) (by rw [hsize]; decide)]
  rfl

/-- **A header of the 0x102 or 0x200 layout is read back.** -/
lemma parseHeader_200 (version : ℕ) {signature : List Byte} (hsigned : Signed signature) {offset count : ℕ}
    (hoffset : offset < 2 ^ 32) (hcount : count + 7 < 2 ^ 32)
    (hversion : version = 0x102 ∨ version = 0x200) :
    parseHeader (headerBytes signature offset 0 (count + 7) version) =
      .ok ⟨BitVec.ofNat 32 version, offset + headerSize, count⟩ := by
  obtain ⟨hlen, ⟨field, hfield, hmem⟩, hword⟩ :=
    parseHeader_prefix hsigned offset 0 (count + 7) version
  have h200 := parse200_headerBytes hsigned.1 hoffset hcount version
  rw [parseHeader, if_neg hlen, hfield, ok_bind]
  simp only
  rw [if_neg (not_not.mpr hmem), hword, ok_bind]
  rcases hversion with rfl | rfl
  · rw [if_pos (by decide), h200]
    rfl
  · rw [if_neg (by decide), if_neg (by decide), if_pos (by decide), h200]
    rfl

/-- **A header of the 0x300 layout is read back.** -/
lemma parseHeader_300 {signature : List Byte} (hsigned : Signed signature) {offset count : ℕ}
    (hoffset : offset < 2 ^ 40) (hcount : count < 2 ^ 32) :
    parseHeader (headerBytes signature offset (offset >>> 32) count 0x300) =
      .ok ⟨0x300, offset + headerSize, count⟩ := by
  obtain ⟨hlen, ⟨field, hfield, hmem⟩, hword⟩ :=
    parseHeader_prefix hsigned offset (offset >>> 32) count 0x300
  have h30 := headerBytes_drop hsigned.1 offset (offset >>> 32) count 0x300
  have h34 := drop_of_drop_eq h30 (q := 34) (by simp)
  have h38 := drop_of_drop_eq h34 (q := 38) (by simp)
  have hshift : offset >>> 32 = offset / 2 ^ 32 := Nat.shiftRight_eq_div_pow _ _
  have hhigh : (BitVec.ofNat 32 (offset >>> 32)).toNat = offset >>> 32 :=
    toNat_ofNat_lt (by omega)
  -- The offset is below 2^40; a higher one would be taken for a seed of the 0x200 layout.
  have hsmall : ¬BitVec.ofNat 32 (offset >>> 32) >>> 8 ≠ 0 := by
    rw [not_not]
    apply BitVec.eq_of_toNat_eq
    rw [BitVec.toNat_ushiftRight, hhigh, Nat.shiftRight_eq_div_pow]
    simp only [BitVec.ofNat_eq_ofNat, BitVec.toNat_ofNat, Nat.zero_mod]
    omega
  have hsum : (BitVec.ofNat 32 (offset >>> 32)).toNat <<< 32 + (BitVec.ofNat 32 offset).toNat =
      offset := by
    rw [hhigh, BitVec.toNat_ofNat, Nat.shiftLeft_eq]
    omega
  rw [parseHeader, if_neg hlen, hfield, ok_bind]
  simp only
  rw [if_neg (not_not.mpr hmem), hword, ok_bind, if_neg (by decide), if_neg (by decide),
    if_neg (by decide), u32Le_of_drop h30, ok_bind, u32Le_of_drop h34, ok_bind, if_neg hsmall,
    add_eq (by rw [hsum]; omega), hsum, ok_bind,
    add_eq (by unfold headerSize; omega), ok_bind, u32Le_of_drop h38, ok_bind,
    toNat_ofNat_lt hcount]
  rfl

/-! ## Opening -/

/-- An archive whose header, table and key block are read as they were written opens with what
was placed. -/
lemma open_of_keyed_table (fileName : String) {file bytes data : List Byte} {version : BitVec 32}
    {offset count tablePos keyBlockLength : ℕ} {table : RawTable} {keys : ArchiveKeys}
    {qs : List Placed} {out : List (ByteRange × GrfEntry)}
    (hread : readAt file 0 headerSize = .ok bytes)
    (hparse : parseHeader bytes = .ok ⟨version, offset, count⟩) (hcount : count ≤ maxEntries)
    (hkey : keyBlockLengthOf file ⟨version, offset, count⟩ = .ok keyBlockLength)
    (hlimit : keyBlockLength ≤ 20 + 65535 * 64)
    (hpos : (add offset (if version = 0x300 then 4 else 0) : Exec GrfError ℕ) = .ok tablePos)
    (htable : readRawTable z version file tablePos = .ok table)
    (hkeys : readArchiveKeys C file tablePos table.compressedSize keyBlockLength = .ok keys)
    (hentries : readTable version table.data count = .ok (data, out)) (hwalk : Walk data qs out) :
    ∃ grf, openArchive T z C fileName file = .ok grf ∧ grf.handle = file ∧
      grf.size = file.length ∧ grf.archiveKeys = keys ∧
      grf.files = listing T C grf.stats.detectedEncoding qs := by
  obtain ⟨encoding, hencoding⟩ := chooseEncoding_walk (T := T) hwalk none
  obtain ⟨l, hl, hfiles⟩ := addEntries_placed (T := T) (C := C) encoding hwalk {}
  let stats : GrfStats :=
    ⟨l.files.length, l.badNameCount, l.nonUtf8NameCount, l.nonUtf8Samples, l.encryptedCount,
      l.protectedCount, encoding, table.compressedSize, table.realSize⟩
  refine ⟨⟨fileName, version, l.files, stats, file, file.length, keys⟩, ?_, rfl, rfl, rfl, hfiles⟩
  rw [openArchive, openWithEncoding, hread]
  simp only [mapErr, ok_bind, hparse]
  rw [if_neg (by omega), hkey, ok_bind, if_neg (by omega), hpos, ok_bind, htable, ok_bind, hkeys,
    ok_bind, hentries, ok_bind]
  simp only
  rw [hencoding, ok_bind, hl]
  rfl

/-- An archive whose header and table are read as they were written opens with the files
that were placed. -/
lemma open_of_table (fileName : String) {file bytes data : List Byte} {version : BitVec 32}
    {offset count tablePos : ℕ} {table : RawTable} {qs : List Placed}
    {out : List (ByteRange × GrfEntry)} (hread : readAt file 0 headerSize = .ok bytes)
    (hparse : parseHeader bytes = .ok ⟨version, offset, count⟩) (hcount : count ≤ maxEntries)
    (hkey : keyBlockLengthOf file ⟨version, offset, count⟩ = .ok 0)
    (hpos : (add offset (if version = 0x300 then 4 else 0) : Exec GrfError ℕ) = .ok tablePos)
    (htable : readRawTable z version file tablePos = .ok table)
    (hentries : readTable version table.data count = .ok (data, out))
    (hqs : ∀ q ∈ qs, q.Good z) (hwalk : Walk data qs out) :
    ∃ grf, openArchive T z C fileName file = .ok grf ∧ grf.handle = file ∧
      grf.size = file.length ∧ grf.files = listed T grf.stats.detectedEncoding qs := by
  obtain ⟨grf, hopen, hhandle, hsize, -, hfiles⟩ := open_of_keyed_table (T := T) (C := C)
    fileName hread hparse hcount hkey (Nat.zero_le _) hpos htable (if_pos rfl) hentries hwalk
  exact ⟨grf, hopen, hhandle, hsize, hfiles.trans (listing_eq _ hqs)⟩

/-- The files of an open archive are the items that were added, in order, each under its
decoded name and with its content. -/
def Holds (T : TextLib) (z : Flate) (C : Crypto) (grf : Grf) (items : List Item) : Prop :=
  List.Forall₂ (fun f item =>
    f.name = grf.stats.detectedEncoding.decode T item.name ∧
      readEntry z C grf f.entry = .ok item.data) grf.files (items.filter Item.isFile)

lemma holds_of_placed {grf : Grf} {file bytes rest : List Byte} {qs : List Placed}
    {items : List Item} (hhandle : grf.handle = file) (hsize : grf.size = file.length)
    (hfiles : grf.files = listed T grf.stats.detectedEncoding qs)
    (hfile : file = bytes ++ (bodyOf qs ++ rest)) (hbytes : bytes.length = headerSize)
    (hitems : qs.map Placed.item = items) (hoffsets : Offsets 0 qs)
    (hbody : (bodyOf qs).length < 2 ^ 63) (hqs : ∀ q ∈ qs, q.Good z) :
    Holds T z C grf items := by
  have hfilter : items.filter Item.isFile = (qs.filter fun q => q.item.isFile).map Placed.item := by
    rw [← hitems, List.filter_map]
    rfl
  rw [Holds, hfiles, hfilter, listed, List.forall₂_map_left_iff, List.forall₂_map_right_iff,
    List.forall₂_same]
  intro q hq
  obtain ⟨hq, hisFile⟩ := List.mem_filter.mp hq
  have hle := offset_le hoffsets hq
  obtain ⟨-, r, hr⟩ := bodyOf_drop hoffsets hq
  refine ⟨rfl, readEntry_placed (by rw [hsize, hhandle]) (hqs q hq) hisFile
    (by omega) (r ++ rest) ?_⟩
  rw [hhandle, hfile, Nat.add_comm, ← hbytes, ← List.drop_drop, List.drop_left,
    List.drop_append_of_le_length hle]
  rw [Nat.sub_zero] at hr
  rw [hr, List.append_assoc]

/-! ## The layouts -/

/-- A compressed table behind its sizes is read, whatever comes behind it. -/
lemma readPackedTable_of_drop (hz : z.Lawful) {file table rest : List Byte} {tablePos : ℕ}
    (htable : table ≠ []) (hmax : table.length ≤ maxFileTableBytes)
    (hdeflated : (z.deflate table).length < 2 ^ 32) (hpos : tablePos < 2 ^ 42)
    (h : file.drop tablePos =
      leBytes 4 (z.deflate table).length ++ leBytes 4 table.length ++ (z.deflate table ++ rest)) :
    readPackedTable z file tablePos =
      .ok ⟨table, BitVec.ofNat 32 (z.deflate table).length, BitVec.ofNat 32 table.length⟩ := by
  have hne := List.length_pos_iff.mpr (deflate_ne_nil hz table)
  have hpos' := List.length_pos_iff.mpr htable
  unfold maxFileTableBytes at hmax
  have hlen := le_length_of_drop h fun hnil => by
    have := congrArg List.length hnil
    rw [List.length_append, List.length_append, length_leBytes, List.length_nil] at this
    omega
  simp only [List.length_append, length_leBytes] at hlen
  have hsizes : leBytes 4 (z.deflate table).length ++ leBytes 4 table.length =
      leBytes 4 (z.deflate table).length ++ (leBytes 4 table.length ++ []) := by simp
  have hword0 : (u32Le (leBytes 4 (z.deflate table).length ++ leBytes 4 table.length) 0 :
      Exec GrfError (BitVec 32)) = .ok (BitVec.ofNat 32 (z.deflate table).length) :=
    u32Le_of_drop hsizes
  have hword4 : (u32Le (leBytes 4 (z.deflate table).length ++ leBytes 4 table.length) 4 :
      Exec GrfError (BitVec 32)) = .ok (BitVec.ofNat 32 table.length) :=
    u32Le_of_drop (drop_of_drop_eq (p := 0) hsizes (by simp))
  have hcompressed := toNat_ofNat_lt hdeflated
  have hreal : (BitVec.ofNat 32 table.length).toNat = table.length := toNat_ofNat_lt (by omega)
  -- Neither size is 0, even modulo 2^32: the table and its compressed form have bytes.
  have hzero : ¬(BitVec.ofNat 32 (z.deflate table).length = 0 ∨
      BitVec.ofNat 32 table.length = 0) := by
    rintro (heq | heq)
    · have := congrArg BitVec.toNat heq
      rw [hcompressed] at this
      simp only [BitVec.ofNat_eq_ofNat, BitVec.toNat_ofNat, Nat.zero_mod] at this
      omega
    · have := congrArg BitVec.toNat heq
      rw [hreal] at this
      simp only [BitVec.ofNat_eq_ofNat, BitVec.toNat_ofNat, Nat.zero_mod] at this
      omega
  have hbody : file.drop (tablePos + fileTableHeaderSize) = z.deflate table ++ rest :=
    drop_of_drop_eq h (by simp [fileTableHeaderSize])
  have hinflate := inflateExact_deflate hz table []
  rw [List.append_nil] at hinflate
  rw [readPackedTable, readAt_of_drop h (by simp [fileTableHeaderSize])]
  simp only [mapErr, ok_bind, hword0, hword4]
  rw [if_neg hzero, hreal, if_neg (by unfold maxFileTableBytes; omega), hcompressed,
    add_eq (by unfold fileTableHeaderSize; omega), ok_bind,
    add_eq (by unfold fileTableHeaderSize; omega), ok_bind,
    if_neg (by unfold fileTableHeaderSize; omega), readAt_of_drop hbody rfl]
  simp only [ok_bind, hinflate]
  rfl

/-- A table in the clear runs to the end of the archive. -/
lemma readClearTable_of_drop {file table : List Byte} {tablePos : ℕ} (htable : table ≠ [])
    (hmax : table.length ≤ maxFileTableBytes) (h : file.drop tablePos = table) :
    ∃ sizes : BitVec 32 × BitVec 32,
      readClearTable file tablePos = .ok ⟨table, sizes.1, sizes.2⟩ := by
  have hlen := le_length_of_drop h htable
  have hpos := List.length_pos_iff.mpr htable
  have hsub : file.length - tablePos = table.length := by omega
  have hread : readAt file tablePos table.length = .ok table :=
    readAt_of_drop (r := []) (by rw [h, List.append_nil]) rfl
  refine ⟨(BitVec.ofNat 32 table.length, BitVec.ofNat 32 table.length), ?_⟩
  rw [readClearTable, if_neg (by omega), sub_eq (by omega), ok_bind, hsub, if_neg (by omega),
    if_neg (by omega), hread]
  rfl

lemma items_ne_nil {qs : List Placed} {items : List Item} (hitems : qs.map Placed.item = items)
    (hne : items ≠ []) : qs ≠ [] := by
  rintro rfl
  exact hne hitems.symm

/-- A table of rows that are not empty is not empty. -/
lemma flatMap_ne_nil {f : Placed → List Byte} (hf : ∀ q, f q ≠ []) {qs : List Placed}
    (hqs : qs ≠ []) : qs.flatMap f ≠ [] := by
  intro hnil
  obtain ⟨q, hq⟩ := List.exists_mem_of_ne_nil qs hqs
  exact hf q (List.flatMap_eq_nil_iff.mp hnil q hq)

lemma modernRow_ne_nil (version : ℕ) (q : Placed) : modernRow version q ≠ [] := by
  simp [modernRow, tableRow]

lemma legacyRowOf_ne_nil (q : Placed) : legacyRowOf q ≠ [] := by
  intro hnil
  have := congrArg List.length hnil
  rw [length_legacyRowOf, List.length_nil] at this
  omega

/-- What the three layouts have in common: the placed entries and the sizes that fit. -/
structure Laid (z : Flate) (layout : Layout) (items : List Item) (row : Placed → List Byte)
    (qs : List Placed) : Prop where
  collect_eq : layout.collect z (items.map Item.entry) = .ok (bodyOf qs, qs.flatMap row)
  items_eq : qs.map Placed.item = items
  offsets : Offsets 0 qs
  good : ∀ q ∈ qs, q.Good z

/-- A 0x200 or 0x300 archive opens once its header does: behind the body stands a gap of the
size the version skips, and behind that the table. -/
lemma open_modern (hz : z.Lawful) (fileName : String) {layout : Layout} {items : List Item}
    (hne : items ≠ []) (hfits : Fits z layout items) (hlayout : layout ≠ .v102) {version : ℕ}
    (hversion : version = 0x200 ∨ version = 0x300) {qs : List Placed}
    (hlaid : Laid z layout items (modernRow version) qs)
    (hkinds : ∀ q ∈ qs, q.kind = q.item.kind.flags)
    (hbody : (bodyOf qs).length < if version = 0x300 then 2 ^ 40 else 2 ^ 32)
    {file bytes : List Byte} (gap : List Byte) (hbytes : bytes.length = headerSize)
    (hgap : gap.length = if version = 0x300 then 4 else 0)
    (hfile : file = bytes ++ (bodyOf qs ++ (gap ++
      (leBytes 4 (z.deflate (qs.flatMap (modernRow version))).length ++
        leBytes 4 (qs.flatMap (modernRow version)).length ++
        z.deflate (qs.flatMap (modernRow version))))))
    (hparse : parseHeader bytes =
      .ok ⟨BitVec.ofNat 32 version, (bodyOf qs).length + headerSize, items.length⟩)
    (hkey : keyBlockLengthOf file
      ⟨BitVec.ofNat 32 version, (bodyOf qs).length + headerSize, items.length⟩ = .ok 0) :
    ∃ grf, openArchive T z C fileName file = .ok grf ∧ Holds T z C grf items := by
  obtain ⟨hcollect, hitems, hoffsets, hgood⟩ := hlaid
  have htable := hfits.table_le _ _ hcollect
  have hdeflated := hfits.deflatedTable_lt _ _ hcollect hlayout
  have hcount := hfits.count_le
  have hlen : qs.length = items.length := by rw [← hitems, List.length_map]
  have hsmall : (bodyOf qs).length < 2 ^ 40 := by split at hbody <;> omega
  have hversionLt : version < 2 ^ 32 := by omega
  have hmajor : ¬BitVec.ofNat 32 version >>> 8 = 0x01 := by
    rcases hversion with rfl | rfl <;> decide
  have htableNe : qs.flatMap (modernRow version) ≠ [] :=
    flatMap_ne_nil (modernRow_ne_nil version) (items_ne_nil hitems hne)
  -- From here on the rows matter only through the table they make.
  generalize htbl : qs.flatMap (modernRow version) = table at *
  have hwhole : table.drop 0 = qs.flatMap (modernRow version) ++ [] := by
    rw [List.append_nil, htbl, List.drop_zero]
  obtain ⟨out, hout, hwalk⟩ := modernEntries_walk hversionLt
    (by unfold maxFileTableBytes at htable; omega) (fun q hq => ⟨hgood q hq, hkinds q hq⟩)
    (fun q hq => by
      have := offset_le hoffsets hq
      split at hbody <;> split <;> omega) 0 hwhole
  -- Past the header, the body and the gap.
  have hdrop : file.drop ((bodyOf qs).length + headerSize + gap.length) =
      leBytes 4 (z.deflate table).length ++ leBytes 4 table.length ++ (z.deflate table ++ []) := by
    rw [List.append_nil, hfile, Nat.add_comm (bodyOf qs).length, ← hbytes, ← List.drop_drop, ← List.drop_drop,
      List.drop_left, List.drop_left, List.drop_left]
  have hgapLe : gap.length ≤ 4 := by split at hgap <;> omega
  have hpos : (add ((bodyOf qs).length + headerSize)
      (if BitVec.ofNat 32 version = 0x300 then 4 else 0) : Exec GrfError ℕ) =
      .ok ((bodyOf qs).length + headerSize + gap.length) := by
    rw [if_congr (version_eq_iff hversionLt) rfl rfl, ← hgap]
    exact add_eq (by unfold headerSize; omega)
  have hraw : readRawTable z (BitVec.ofNat 32 version) file
      ((bodyOf qs).length + headerSize + gap.length) = .ok ⟨table,
        BitVec.ofNat 32 (z.deflate table).length, BitVec.ofNat 32 table.length⟩ := by
    rw [readRawTable, if_neg hmajor]
    exact readPackedTable_of_drop hz htableNe htable hdeflated (by unfold headerSize; omega) hdrop
  have hentries : readTable (BitVec.ofNat 32 version) table items.length = .ok (table, out) := by
    rw [readTable, if_neg hmajor, readModernTable, ← hlen, hout]
    rfl
  have hread : readAt file 0 headerSize = .ok bytes := by
    rw [hfile]
    exact readAt_of_drop List.drop_zero hbytes.symm
  obtain ⟨grf, hopen, hhandle, hsize, hfiles⟩ := open_of_table (T := T) (C := C)
    fileName hread hparse hcount hkey hpos hraw hentries hgood hwalk
  exact ⟨grf, hopen, holds_of_placed hhandle hsize hfiles hfile hbytes hitems hoffsets
    (by omega) hgood⟩

/-- **A 0x200 archive is read back.** -/
lemma open_v200 (hz : z.Lawful) (fileName : String) {items : List Item} (hne : items ≠ [])
    (hfits : Fits z .v200 items) {qs : List Placed}
    (hlaid : Laid z .v200 items (modernRow 0x200) qs)
    (hkinds : ∀ q ∈ qs, q.kind = q.item.kind.flags) :
    ∃ file grf, Layout.write z .v200 (items.map Item.entry) = .ok file ∧
      openArchive T z C fileName file = .ok grf ∧ Holds T z C grf items := by
  have hbody : (bodyOf qs).length < 2 ^ 32 := hfits.body_lt _ _ hlaid.collect_eq
  have hcount := hfits.count_le
  unfold maxEntries at hcount
  have hsigned := signed_signature .v200
  have hsize := length_headerBytes hsigned.1 (bodyOf qs).length 0 (items.length + 7) 0x200
  have hheader := headerOf_eq hsigned.1 (bodyOf qs).length 0 (items.length + 7) 0x200
  have hparse := parseHeader_200 0x200 hsigned hbody
    (show items.length + 7 < 2 ^ 32 by omega) (.inr rfl)
  have hfold : (items.map Item.entry).foldlM (addSigned z 0x200) ([], []) =
      .ok (bodyOf qs, qs.flatMap (modernRow 0x200)) := hlaid.collect_eq
  obtain ⟨grf, hopen, hholds⟩ := open_modern (T := T) (C := C) hz fileName hne hfits (by decide)
    (.inl rfl) hlaid hkinds hbody [] hsize rfl rfl hparse rfl
  refine ⟨_, grf, ?_, hopen, hholds⟩
  simp only [Layout.write, Layout.version, writeSigned]
  rw [hfold, ok_bind]
  simp only [List.length_map]
  rw [if_neg (by decide), hheader, ok_bind]
  simp only [List.append_assoc, List.nil_append]
  rfl

/-- **A 0x300 archive is read back**, under either signature. -/
lemma open_v300 (hz : z.Lawful) (fileName : String) {layout : Layout}
    (hlayout : layout = .v300 ∨ layout = .v300EventHorizon) {items : List Item} (hne : items ≠ [])
    (hfits : Fits z layout items) {qs : List Placed}
    (hlaid : Laid z layout items (modernRow 0x300) qs)
    (hkinds : ∀ q ∈ qs, q.kind = q.item.kind.flags) :
    ∃ file grf, layout.write z (items.map Item.entry) = .ok file ∧
      openArchive T z C fileName file = .ok grf ∧ Holds T z C grf items := by
  have hbody : (bodyOf qs).length < 2 ^ 40 := by
    have hlt := hfits.body_lt _ _ hlaid.collect_eq
    rcases hlayout with rfl | rfl <;> exact hlt
  have hcount := hfits.count_le
  unfold maxEntries at hcount
  have hsigned := signed_signature layout
  have hsize := length_headerBytes hsigned.1 (bodyOf qs).length ((bodyOf qs).length >>> 32)
    items.length 0x300
  have hheader := headerOf_eq hsigned.1 (bodyOf qs).length ((bodyOf qs).length >>> 32)
    items.length 0x300
  have hparse := parseHeader_300 hsigned hbody (show items.length < 2 ^ 32 by omega)
  have hfold : (items.map Item.entry).foldlM (addSigned z 0x300) ([], []) =
      .ok (bodyOf qs, qs.flatMap (modernRow 0x300)) := by
    have hcollect := hlaid.collect_eq
    rcases hlayout with rfl | rfl <;> exact hcollect
  generalize headerBytes layout.signature (bodyOf qs).length ((bodyOf qs).length >>> 32)
    items.length 0x300 = bytes at hsize hheader hparse
  let tail := leBytes 4 (z.deflate (qs.flatMap (modernRow 0x300))).length ++
    leBytes 4 (qs.flatMap (modernRow 0x300)).length ++ z.deflate (qs.flatMap (modernRow 0x300))
  -- The four bytes in front of a 0x300 table are 0: no key block follows it.
  have hkey : keyBlockLengthOf (bytes ++ (bodyOf qs ++ (leBytes 4 0 ++ tail)))
      ⟨0x300, (bodyOf qs).length + headerSize, items.length⟩ = .ok 0 := by
    have hdrop : (bytes ++ (bodyOf qs ++ (leBytes 4 0 ++ tail))).drop
        ((bodyOf qs).length + headerSize) = leBytes 4 0 ++ tail := by
      rw [Nat.add_comm, ← hsize, ← List.drop_drop, List.drop_left, List.drop_left]
    have hread : readAt (bytes ++ (bodyOf qs ++ (leBytes 4 0 ++ tail)))
        ((bodyOf qs).length + headerSize) 4 = .ok (leBytes 4 0) := readAt_of_drop hdrop rfl
    rw [keyBlockLengthOf, if_pos rfl]
    simp only
    rw [hread]
    rfl
  have hnot : layout ≠ .v102 := by rcases hlayout with rfl | rfl <;> decide
  obtain ⟨grf, hopen, hholds⟩ := open_modern (T := T) (C := C) hz fileName hne hfits hnot
    (.inr rfl) hlaid hkinds hbody (leBytes 4 0) hsize rfl rfl hparse hkey
  refine ⟨_, grf, ?_, hopen, hholds⟩
  have hwrite : layout.write z (items.map Item.entry) =
      writeSigned z (items.map Item.entry) 0x300 layout.signature := by
    rcases hlayout with rfl | rfl <;> rfl
  rw [hwrite, writeSigned, hfold, ok_bind]
  simp only [List.length_map]
  rw [if_pos trivial, hheader, ok_bind]
  simp only [List.append_assoc]
  rfl

/-- **A 0x102 archive is read back.** -/
lemma open_v102 (fileName : String) {items : List Item} (hne : items ≠ [])
    (hfits : Fits z .v102 items) {qs : List Placed} (hlaid : Laid z .v102 items legacyRowOf qs)
    (hlegacy : ∀ q ∈ qs, LegacyFits q) :
    ∃ file grf, Layout.write z .v102 (items.map Item.entry) = .ok file ∧
      openArchive T z C fileName file = .ok grf ∧ Holds T z C grf items := by
  obtain ⟨hcollect, hitems, hoffsets, hgood⟩ := hlaid
  have hbody : (bodyOf qs).length < 2 ^ 32 := hfits.body_lt _ _ hcollect
  have htable := hfits.table_le _ _ hcollect
  have hcount := hfits.count_le
  have hlen : qs.length = items.length := by rw [← hitems, List.length_map]
  have hsigned := signed_signature .v102
  have hsize := length_headerBytes hsigned.1 (bodyOf qs).length 0 (items.length + 7) 0x102
  have hheader : headerOf masterOfMagic (bodyOf qs).length 0 (items.length + 7) 0x102 = _ :=
    headerOf_eq hsigned.1 (bodyOf qs).length 0 (items.length + 7) 0x102
  have hparse := parseHeader_200 0x102 hsigned hbody
    (show items.length + 7 < 2 ^ 32 by unfold maxEntries at hcount; omega) (.inl rfl)
  generalize headerBytes (Layout.signature .v102) (bodyOf qs).length 0 (items.length + 7) 0x102 =
    bytes at hsize hheader hparse
  have htableNe : qs.flatMap legacyRowOf ≠ [] :=
    flatMap_ne_nil legacyRowOf_ne_nil (items_ne_nil hitems hne)
  have hfold : (items.map Item.entry).foldlM (addLegacy z) ([], []) =
      .ok (bodyOf qs, qs.flatMap legacyRowOf) := hcollect
  generalize htbl : qs.flatMap legacyRowOf = table at *
  have hwrite : Layout.write z .v102 (items.map Item.entry) =
      .ok (bytes ++ (bodyOf qs ++ table)) := by
    simp only [Layout.write, writeV102]
    rw [hfold, ok_bind]
    simp only [List.length_map]
    rw [hheader, ok_bind, List.append_assoc]
    rfl
  have hdrop : (bytes ++ (bodyOf qs ++ table)).drop ((bodyOf qs).length + headerSize) = table := by
    rw [Nat.add_comm, ← hsize, ← List.drop_drop, List.drop_left, List.drop_left]
  have hwhole : table.drop 0 = qs.flatMap legacyRowOf := by rw [htbl, List.drop_zero]
  -- Unlike the other layouts the table changes under the walk, as its names are decoded in place.
  obtain ⟨data, out, hout, -, -, hwalk⟩ := legacyEntries_walk
    (fun q hq => ⟨hgood q hq, hlegacy q hq⟩)
    (fun q hq => lt_of_le_of_lt (offset_le hoffsets hq) hbody) 0
    (by unfold maxFileTableBytes at htable; omega) hwhole
  obtain ⟨sizes, hclear⟩ := readClearTable_of_drop htableNe htable hdrop
  have hpos : (add ((bodyOf qs).length + headerSize)
      (if BitVec.ofNat 32 0x102 = 0x300 then 4 else 0) : Exec GrfError ℕ) =
      .ok ((bodyOf qs).length + headerSize) := by
    rw [if_neg (by decide)]
    exact add_eq (by unfold headerSize; omega)
  have hraw : readRawTable z (BitVec.ofNat 32 0x102) (bytes ++ (bodyOf qs ++ table))
      ((bodyOf qs).length + headerSize) = .ok ⟨table, sizes.1, sizes.2⟩ := by
    rw [readRawTable, if_pos (by decide), hclear]
  have hentries : readTable (BitVec.ofNat 32 0x102) table items.length = .ok (data, out) := by
    rw [readTable, if_pos (by decide), readLegacyTable, ← hlen, hout]
  obtain ⟨grf, hopen, hhandle, hgrfSize, hfiles⟩ := open_of_table (T := T) (C := C)
    fileName (readAt_of_drop List.drop_zero hsize.symm) hparse hcount rfl hpos hraw
    hentries hgood hwalk
  exact ⟨_, grf, hwrite, hopen, holds_of_placed hhandle hgrfSize hfiles rfl hsize hitems hoffsets
    (by omega) hgood⟩

lemma entry_data {item : Item} (h : item.isFile = true) : item.entry.data = item.data := by
  have hdir : item.kind ≠ .directory := by simpa [Item.isFile] using h
  exact if_neg hdir

/-- The writer of 0x200 and 0x300 lays its items out. -/
lemma laid_signed (hz : z.Lawful) {layout : Layout} (hlayout : layout ≠ .v102)
    {items : List Item} (hfits : Fits z layout items)
    (hdeflate : ∀ item ∈ items, layout.deflates item = true →
      (z.deflate item.data).length ≠ item.data.length) :
    ∃ qs, Laid z layout items (modernRow layout.version) qs ∧
      ∀ q ∈ qs, q.kind = q.item.kind.flags := by
  obtain ⟨qs, hfold, hitems, hoffsets, hqs⟩ := addSigned_placed hz layout.version
    hfits.deflated_lt (fun item hitem hfile hstored => by
      rw [entry_data hfile]
      exact hdeflate item hitem (by simp [Layout.deflates, hfile, hstored])) [] []
  have hcollect : layout.collect z (items.map Item.entry) =
      .ok (bodyOf qs, qs.flatMap (modernRow layout.version)) := by
    cases layout with
    | v102 => exact absurd rfl hlayout
    | v200 => exact hfold
    | v300 => exact hfold
    | v300EventHorizon => exact hfold
  exact ⟨qs, ⟨hcollect, hitems, hoffsets, fun q hq => (hqs q hq).1⟩, fun q hq => (hqs q hq).2⟩

/-- **What is written is read back**, in every layout: the archive opens, its files are
exactly the items that are not directories, in table order, and reading each one gives the
bytes that were added.  In 0x102, which records no mode, the extension has the say about it. -/
theorem open_write (T : TextLib) (C : Crypto) (hz : z.Lawful) (layout : Layout)
    {items : List Item} (hne : items ≠ []) (hfits : Fits z layout items)
    (hdeflate : ∀ item ∈ items, layout.deflates item = true →
      (z.deflate item.data).length ≠ item.data.length)
    (hmode : layout = .v102 → ∀ item ∈ items, item.ModeByExtension) (fileName : String) :
    ∃ file grf, layout.write z (items.map Item.entry) = .ok file ∧
      openArchive T z C fileName file = .ok grf ∧ Holds T z C grf items := by
  cases layout with
  | v200 =>
    obtain ⟨qs, hlaid, hkinds⟩ := laid_signed hz (by decide) hfits hdeflate
    exact open_v200 hz fileName hne hfits hlaid hkinds
  | v300 =>
    obtain ⟨qs, hlaid, hkinds⟩ := laid_signed hz (by decide) hfits hdeflate
    exact open_v300 hz fileName (.inl rfl) hne hfits hlaid hkinds
  | v300EventHorizon =>
    obtain ⟨qs, hlaid, hkinds⟩ := laid_signed hz (by decide) hfits hdeflate
    exact open_v300 hz fileName (.inr rfl) hne hfits hlaid hkinds
  | v102 =>
    obtain ⟨qs, hfold, hitems, hoffsets, hqs⟩ := addLegacy_placed hz hfits.deflated_lt
      (fun item hitem hfile => by
        rw [entry_data hfile]
        exact hdeflate item hitem (by simp [Layout.deflates, hfile])) (hfits.legacy rfl)
      (hmode rfl) [] []
    exact open_v102 fileName hne hfits ⟨hfold, hitems, hoffsets, fun q hq => (hqs q hq).1⟩
      fun q hq => (hqs q hq).2

/-! ## A sample archive -/

/-- The ciphers and hashes, which no entry of the sample asks for. -/
def noCrypto : Crypto where
  aesDecryptBlock := fun _ block => block
  sha256 := fun _ => Vector.replicate 32 0
  xxh32 := fun _ _ => 0
  xxh3_128 := fun _ => 0
  xxh3_128WithSeed := fun _ _ => 0
  lz4DecompressInto := fun _ _ => .error "no stream"

/-- A code that says before each byte that there is one more. -/
def unary : List Byte → List Byte
  | [] => [0]
  | b :: bs => 1 :: b :: unary bs

def ofUnary : List Byte → Option (List Byte)
  | [] => none
  | [b] => if b = 0 then some [] else none
  | b :: c :: bs => if b = 0 then some [] else if b = 1 then (ofUnary bs).map (c :: ·) else none

lemma ofUnary_unary (data padding : List Byte) : ofUnary (unary data ++ padding) = some data := by
  induction data with
  | nil => cases padding <;> rfl
  | cons b data ih =>
    have hcons : unary (b :: data) ++ padding = 1 :: b :: (unary data ++ padding) := rfl
    rw [hcons, ofUnary, if_neg (by decide), if_pos rfl, ih]
    rfl

/-- Contents with their zlib streams, none of which begins another. -/
structure Streams where
  known : List (List Byte × List Byte)
  header : ∀ s ∈ known, s.2.head? = some 120
  apart : ∀ s ∈ known, ∀ t ∈ known, s.2 <+: t.2 → s = t

namespace Streams

variable (S : Streams)

/-- The stream of a content that is known; the unary code of any other. -/
def deflate (data : List Byte) : List Byte :=
  match S.known.find? fun s => s.1 = data with
  | some s => s.2
  | none => unary data

def inflate (input : List Byte) : Option (List Byte) :=
  match S.known.find? fun s => s.2.isPrefixOf input with
  | some s => some s.1
  | none => ofUnary input

/-- zlib on the known contents. -/
def flate : Flate where
  deflate := S.deflate
  decompress := fun input room =>
    match S.inflate input with
    | none => .error "corrupt deflate stream"
    | some data =>
      if data.length < room then
        .ok ⟨.streamEnd, Vector.ofFn fun i => data.getD i.val 0, (S.deflate data).length,
          data.length⟩
      else .ok ⟨.bufError, Vector.replicate room 0, 0, 0⟩

variable {S}

/-- Two known streams that begin the same input are one. -/
lemma eq_of_prefix {s t : List Byte × List Byte} (hs : s ∈ S.known) (ht : t ∈ S.known)
    {input : List Byte} (hsi : s.2 <+: input) (hti : t.2 <+: input) : s = t := by
  rcases List.prefix_or_prefix_of_prefix hsi hti with h | h
  · exact S.apart s hs t ht h
  · exact (S.apart t ht s hs h).symm

/-- No known stream begins a unary code. -/
lemma not_prefix_unary {s : List Byte × List Byte} (hs : s ∈ S.known) (data padding : List Byte) :
    ¬s.2 <+: unary data ++ padding := by
  intro h
  have hhead := S.header s hs
  obtain ⟨rest, hrest⟩ := h
  have hcode : (unary data ++ padding).head? = some 120 := by
    rw [← hrest, List.head?_append, hhead, Option.some_or]
  cases data with
  | nil => exact absurd (Option.some.inj hcode) (by decide)
  | cons b data => exact absurd (Option.some.inj hcode) (by decide)

lemma inflate_known {s : List Byte × List Byte} (hs : s ∈ S.known) (padding : List Byte) :
    S.inflate (s.2 ++ padding) = some s.1 := by
  rw [inflate]
  cases hfind : S.known.find? fun t => t.2.isPrefixOf (s.2 ++ padding) with
  | some t =>
    have hprefix : t.2 <+: s.2 ++ padding := by simpa using List.find?_some hfind
    have hst := eq_of_prefix (List.mem_of_find?_eq_some hfind) hs hprefix (List.prefix_append _ _)
    show some t.1 = some s.1
    rw [hst]
  | none =>
    refine absurd (List.find?_eq_none.mp hfind s hs) (not_not.mpr ?_)
    exact List.isPrefixOf_iff_prefix.mpr (List.prefix_append _ _)

lemma inflate_unary (data padding : List Byte) : S.inflate (unary data ++ padding) = some data := by
  have hfind : (S.known.find? fun t => t.2.isPrefixOf (unary data ++ padding)) = none :=
    List.find?_eq_none.mpr fun s hs h =>
      not_prefix_unary hs data padding (List.isPrefixOf_iff_prefix.mp h)
  rw [inflate, hfind]
  exact ofUnary_unary data padding

lemma inflate_deflate (data padding : List Byte) :
    S.inflate (S.deflate data ++ padding) = some data := by
  rw [deflate]
  cases hfind : S.known.find? fun s => s.1 = data with
  | some s =>
    have hdata : s.1 = data := by simpa using List.find?_some hfind
    rw [← hdata]
    exact inflate_known (List.mem_of_find?_eq_some hfind) padding
  | none => exact inflate_unary data padding

/-- Inflating gives back what was deflated, and takes in its stream. -/
lemma flate_decompress (data padding : List Byte) {room : ℕ} (hroom : data.length < room) :
    ∃ r, S.flate.decompress (S.deflate data ++ padding) room = .ok r ∧ r.status = .streamEnd ∧
      r.totalIn = (S.deflate data).length ∧ r.totalOut = data.length ∧
      r.buffer.toList.take data.length = data := by
  refine ⟨⟨.streamEnd, Vector.ofFn fun i => data.getD i.val 0, (S.deflate data).length,
    data.length⟩, ?_, rfl, rfl, rfl, ?_⟩
  · simp only [flate, inflate_deflate, if_pos hroom]
  · apply List.ext_getElem
    · simp
      omega
    · intro i hi hi'
      simp [hi']

lemma flate_lawful (S : Streams) : S.flate.Lawful where
  inflates := by
    intro data padding room hroom
    obtain ⟨r, hr, hstatus, -, hout, hbuffer⟩ := flate_decompress (S := S) data padding hroom
    exact ⟨r, hr, hstatus, hout, hbuffer⟩

end Streams

/-- A content, the table of an archive with it, and their zlib streams. -/
def sampleContent : List Byte := [97, 98, 99]

def sampleTable : List Byte := [100, 0, 0, 0, 0, 0, 0, 0, 0, 0, 0, 0, 0, 0, 0, 0, 0, 0, 0,
  100, 92, 97, 0, 11, 0, 0, 0, 11, 0, 0, 0, 3, 0, 0, 0, 1, 0, 0, 0, 0]

def sampleContentStream : List Byte := [120, 156, 75, 76, 74, 6, 0, 2, 77, 1, 39]

def sampleTableStream : List Byte := [120, 156, 75, 97, 192, 0, 41, 49, 137, 12, 220, 64, 26, 132,
  153, 129, 152, 17, 36, 8, 0, 39, 201, 1, 160]

def sampleStreams : Streams where
  known := [(sampleContent, sampleContentStream), (sampleTable, sampleTableStream)]
  header := by decide
  apart := by decide

/-- zlib on the streams of the sample archive. -/
def sampleFlate : Flate := sampleStreams.flate

lemma sampleFlate_lawful : sampleFlate.Lawful := sampleStreams.flate_lawful

def sampleItems : List Item :=
  [⟨.directory, [100], [], by decide, by decide⟩,
    ⟨.file, [100, 92, 97], sampleContent, by decide, by decide⟩]

lemma sample_collect : Layout.collect sampleFlate .v200 (sampleItems.map Item.entry) =
    .ok (sampleContentStream, sampleTable) := by
  decide +kernel

lemma sample_fits : Fits sampleFlate .v200 sampleItems where
  count_le := by decide
  deflated_lt := by decide +kernel
  body_lt := by
    intro body table h
    rw [sample_collect] at h
    obtain ⟨rfl, rfl⟩ := Prod.mk.inj (Except.ok.inj h)
    decide
  table_le := by
    intro body table h
    rw [sample_collect] at h
    obtain ⟨rfl, rfl⟩ := Prod.mk.inj (Except.ok.inj h)
    decide
  deflatedTable_lt := by
    intro body table h _
    rw [sample_collect] at h
    obtain ⟨rfl, rfl⟩ := Prod.mk.inj (Except.ok.inj h)
    decide +kernel
  legacy := by
    intro h
    exact absurd h (by decide)

/-- The items for 0x102, of which every file is encrypted. -/
def legacyItems : List Item :=
  sampleItems ++ [⟨.encryptedFile true, [100, 92, 98], sampleContent, by decide, by decide⟩,
    ⟨.encryptedFile false, [100, 92, 99, 46, 103, 97, 116], sampleContent, by decide, by decide⟩]

lemma legacy_collect : (Layout.collect sampleFlate .v102 (legacyItems.map Item.entry)).toOption.map
    (fun x => (x.1.length, x.2.length)) = some (48, 140) := by
  decide +kernel

lemma legacy_sizes {body table : List Byte}
    (h : Layout.collect sampleFlate .v102 (legacyItems.map Item.entry) = .ok (body, table)) :
    body.length = 48 ∧ table.length = 140 := by
  have hcollect := legacy_collect
  rw [h] at hcollect
  exact Prod.mk.inj (Option.some.inj hcollect)

lemma legacy_fits : Fits sampleFlate .v102 legacyItems where
  count_le := by decide
  deflated_lt := by decide +kernel
  body_lt := by
    intro body table h
    rw [(legacy_sizes h).1]
    decide
  table_le := by
    intro body table h
    rw [(legacy_sizes h).2]
    decide
  deflatedTable_lt := by
    intro body table _ h
    exact absurd rfl h
  legacy := fun _ => by decide +kernel

/-- A directory and a deflated file, written as 0x200 and read back; and as 0x102 with files
encrypted in both modes. -/
theorem open_write_sample :
    (∃ file grf, Layout.write sampleFlate .v200 (sampleItems.map Item.entry) = .ok file ∧
      openArchive TextLib.ascii sampleFlate noCrypto "sample.grf" file = .ok grf ∧
      Holds TextLib.ascii sampleFlate noCrypto grf sampleItems) ∧
    ∃ file grf, Layout.write sampleFlate .v102 (legacyItems.map Item.entry) = .ok file ∧
      openArchive TextLib.ascii sampleFlate noCrypto "sample.grf" file = .ok grf ∧
      Holds TextLib.ascii sampleFlate noCrypto grf legacyItems :=
  ⟨open_write TextLib.ascii noCrypto sampleFlate_lawful .v200 (by decide) sample_fits
      (by decide +kernel) (fun h => absurd h (by decide)) "sample.grf",
    open_write TextLib.ascii noCrypto sampleFlate_lawful .v102 (by decide) legacy_fits
      (by decide +kernel) (fun _ => by decide) "sample.grf"⟩

/-! ## The mixed mode against the extension -/

/-- A content that zlib stores, and its stream of 24 blocks. -/
def gatContent : List Byte :=
  (List.range 176).map fun i => BitVec.ofNat 8 (i * i * 7 + i * 13 + i * i * i / 5)

def gatStreams : Streams where
  known := [(gatContent, [120, 156, 1, 176, 0, 79, 255] ++ gatContent ++ [244, 206, 81, 251])]
  header := by decide
  apart := by
    intro s hs t ht _
    rw [List.mem_singleton.mp hs, List.mem_singleton.mp ht]

lemma gatContent_le : gatContent.length ≤ maxFileUncompressedBytes := by
  decide +kernel

def gatItems : List Item :=
  [⟨.encryptedFile true, [99, 46, 103, 97, 116], gatContent, by decide, gatContent_le⟩]

/-- Why `open_write` asks for the mode of the extension: the 0x102 writer encrypts the header of a
.gat file only, and leaves the bit of the mixed mode that was asked for.  The reader looks at that
bit first, and what it decrypts is no stream. -/
lemma mixed_gat_not_read : ((Layout.write gatStreams.flate .v102 (gatItems.map Item.entry)
    ).toOption.bind fun file =>
      (openArchive TextLib.ascii gatStreams.flate noCrypto "sample.grf" file).toOption.map
        fun grf => grf.files.map fun f =>
          (readEntry gatStreams.flate noCrypto grf f.entry).toOption) = some [none] := by
  decide +kernel

end Writer
end Grf
end RemoteClient
