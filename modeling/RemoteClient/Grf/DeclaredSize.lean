/-
# Reads of another size than declared

What is inflated and what is protected is checked against the declared size
(`inflateExact_length`, `decodeEntry_length`).  Two exits of the reader are not: an entry that
declares no bytes in the archive is empty whatever its content should be, and a stored entry
is cut to its size but never found too short.  `ShortRead` are the entries these exits return
too little for; every other read returns as many bytes as declared.
-/
import RemoteClient.Grf.RoundTrip

namespace RemoteClient
namespace Grf

open Exec Bytes

variable {T : TextLib} {z : Flate} {C : Crypto}

/-! ## The exits that check the size -/

lemma inflateExact_length {data out : List Byte} {expected : ℕ}
    (h : inflateExact z data expected = .ok out) : out.length = expected := by
  unfold inflateExact at h
  split at h
  · exact absurd h (by simp [fail])
  · split at h
    · exact absurd h (by simp [fail])
    · rw [← Except.ok.inj h, List.length_take, Vector.length_toList]
      omega

namespace Protected

lemma expandBody_length {compression : Byte} {body out : List Byte} {expected : ℕ}
    (h : expandBody z C compression body expected = .ok out) : out.length = expected := by
  unfold expandBody at h
  split at h
  · split at h
    · exact absurd h (by simp [fail])
    · next hlen =>
      rw [← Except.ok.inj h]
      exact not_not.mp hlen
  · split at h
    · split at h
      · exact absurd h (by simp [fail])
      · split at h
        · exact absurd h (by simp [fail])
        · rw [← Except.ok.inj h, List.length_take, Vector.length_toList]
          omega
    · split at h
      · split at h
        · exact absurd h (by simp [fail])
        · split at h
          · exact absurd h (by simp [fail])
          · rw [← Except.ok.inj h, Vector.length_toList]
      · exact absurd h (by simp [crash])

/-- A protected entry has the size the table declares, or is an error. -/
lemma decodeEntry_length {payload out : List Byte} {nameHash seededNameHash : Vector Byte 16}
    {realSize : BitVec 32} {keys : ArchiveKeys}
    (h : decodeEntry z C payload nameHash seededNameHash realSize keys = .ok out) :
    out.length = realSize.toNat := by
  unfold decodeEntry at h
  obtain ⟨header, -, h⟩ := bind_eq_ok.mp h
  obtain ⟨padded, -, h⟩ := bind_eq_ok.mp h
  obtain ⟨compressed, -, h⟩ := bind_eq_ok.mp h
  obtain ⟨outputSize, -, h⟩ := bind_eq_ok.mp h
  split at h
  · exact absurd h (by simp [fail])
  next hsize =>
  have hreal : realSize = outputSize := by
    by_contra hne
    exact hsize (Or.inr hne)
  obtain ⟨room, -, h⟩ := bind_eq_ok.mp h
  split at h
  · exact absurd h (by simp [fail])
  obtain ⟨idBytes, -, h⟩ := bind_eq_ok.mp h
  simp only at h
  split at h
  · exact absurd h (by simp [fail])
  obtain ⟨compression, -, h⟩ := bind_eq_ok.mp h
  obtain ⟨flags, -, h⟩ := bind_eq_ok.mp h
  split at h
  · exact absurd h (by simp [fail])
  split at h
  · exact absurd h (by simp [fail])
  obtain ⟨keyId, -, h⟩ := bind_eq_ok.mp h
  obtain ⟨material, -, h⟩ := bind_eq_ok.mp h
  obtain ⟨outputHash, -, h⟩ := bind_eq_ok.mp h
  obtain ⟨stop, -, h⟩ := bind_eq_ok.mp h
  obtain ⟨body, -, h⟩ := bind_eq_ok.mp h
  -- Whether a tail was decrypted or not, the output is expanded to the declared size.
  have hend : ∀ body' : List Byte,
      (expandBody z C compression (body'.take compressed.toNat) outputSize.toNat >>=
        fun output => if filenameHash C output ≠ outputHash then
          fail (invalidData "Protected GRF output hash mismatch") else pure output) = .ok out →
      out.length = realSize.toNat := by
    intro body' h
    obtain ⟨output, houtput, h⟩ := bind_eq_ok.mp h
    split at h
    · exact absurd h (by simp [fail])
    · rw [← Except.ok.inj h, expandBody_length houtput, hreal]
  split at h
  · obtain ⟨body', -, h⟩ := bind_eq_ok.mp h
    exact hend body' h
  · exact hend body h

end Protected

/-! ## What is opened -/

/-- An open archive reads from the file it was opened from. -/
lemma openWithEncoding_file {fileName : String} {file : List Byte}
    {forced : Option FilenameEncoding} {grf : Grf}
    (h : openWithEncoding T z C fileName file forced = .ok grf) :
    grf.handle = file ∧ grf.size = file.length := by
  unfold openWithEncoding at h
  obtain ⟨headerBytes, -, h⟩ := bind_eq_ok.mp h
  obtain ⟨header, -, h⟩ := bind_eq_ok.mp h
  split at h
  · exact absurd h (by simp [fail])
  obtain ⟨keyBlockLength, -, h⟩ := bind_eq_ok.mp h
  split at h
  · exact absurd h (by simp [fail])
  obtain ⟨tablePos, -, h⟩ := bind_eq_ok.mp h
  obtain ⟨table, -, h⟩ := bind_eq_ok.mp h
  obtain ⟨archiveKeys, -, h⟩ := bind_eq_ok.mp h
  obtain ⟨⟨data, entries⟩, -, h⟩ := bind_eq_ok.mp h
  obtain ⟨encoding, -, h⟩ := bind_eq_ok.mp h
  obtain ⟨l, -, h⟩ := bind_eq_ok.mp h
  rw [← Except.ok.inj h]
  exact ⟨rfl, rfl⟩

/-! ## The exits that do not -/

/-- An entry that is read too short: it is not protected, declares fewer bytes in the archive
than its content has, and either declares none or is stored and lies within the file. -/
structure ShortRead (grf : Grf) (entry : GrfEntry) : Prop where
  plain : entry.isProtected = false
  size_le : entry.realSize.toNat ≤ maxFileUncompressedBytes
  short : entry.lengthAligned.toNat < entry.realSize.toNat
  exit : entry.lengthAligned = 0 ∨ entry.realSize = entry.compressedSize ∧
    entry.offset.toNat + headerSize + entry.lengthAligned.toNat < wordSize ∧
    entry.offset.toNat + headerSize + entry.lengthAligned.toNat ≤ grf.size

lemma decryptBody_ok (entry : GrfEntry) (data : List Byte) :
    ∃ out, decryptBody entry data = .ok out ∧ out.length = data.length := by
  unfold decryptBody
  split
  · obtain ⟨out, hout, hlen⟩ := Des.decodeFull_ok data entry.lengthAligned.toNat
      entry.compressedSize
    exact ⟨out, by rw [hout]; rfl, hlen⟩
  · split
    · obtain ⟨out, hout, hlen, -⟩ := Des.decodeHeader_decodeHeader data entry.lengthAligned.toNat
      exact ⟨out, by rw [hout]; rfl, hlen⟩
    · exact ⟨data, rfl, rfl⟩

lemma decryptBody_length {entry : GrfEntry} {data out : List Byte}
    (h : decryptBody entry data = .ok out) : out.length = data.length := by
  obtain ⟨out', hout, hlen⟩ := decryptBody_ok entry data
  rw [hout] at h
  rw [← Except.ok.inj h, hlen]

lemma readAt_length {file out : List Byte} {offset len : ℕ}
    (h : readAt file offset len = .ok out) : out.length = len := by
  unfold readAt at h
  simp only at h
  split at h
  · next hlen =>
    rw [← Except.ok.inj h]
    exact hlen
  · exact absurd h (by simp [fail])

/-- The size of what is read, exit by exit. -/
lemma readEntry_length {grf : Grf} {entry : GrfEntry} {data : List Byte}
    (h : readEntry z C grf entry = .ok data) :
    data.length = entry.realSize.toNat ∨
      ShortRead grf entry ∧ data.length = entry.lengthAligned.toNat := by
  unfold readEntry at h
  split at h
  · exact absurd h (by simp [fail])
  next hlimit =>
  split at h
  · next hnone =>
    -- Nothing in the archive: the read is empty, which is right for an empty content only.
    obtain ⟨hzero, hplain⟩ := hnone
    rw [← Except.ok.inj h, hzero]
    by_cases hreal : entry.realSize.toNat = 0
    · exact Or.inl hreal.symm
    · refine Or.inr ⟨⟨by simpa using hplain, by omega, ?_, Or.inl hzero⟩, rfl⟩
      rw [hzero]
      exact Nat.pos_of_ne_zero hreal
  next hsome =>
  split at h
  · exact absurd h (by simp [readEntry.pastEnd, fail])
  next stop hstop =>
  obtain ⟨start, hstart, hstop⟩ := Option.bind_eq_some_iff.mp hstop
  obtain ⟨hword, rfl⟩ := checkedAdd_eq_some.mp hstop
  obtain ⟨-, rfl⟩ := checkedAdd_eq_some.mp hstart
  split at h
  · exact absurd h (by simp [readEntry.pastEnd, fail])
  next hin =>
  split at h
  · -- A protected entry is checked by its own decoder.
    unfold readProtected at h
    split at h
    · exact absurd h (by simp [fail])
    · obtain ⟨start, -, h⟩ := bind_eq_ok.mp h
      obtain ⟨payload, -, h⟩ := bind_eq_ok.mp h
      exact Or.inl (Protected.decodeEntry_length h)
  next hprotected =>
  obtain ⟨start, -, h⟩ := bind_eq_ok.mp h
  obtain ⟨body, hbody, h⟩ := bind_eq_ok.mp h
  unfold decodeBody at h
  obtain ⟨body', hdecrypt, h⟩ := bind_eq_ok.mp h
  have hlen : body'.length = entry.lengthAligned.toNat := by
    rw [decryptBody_length hdecrypt, readAt_length hbody]
  split at h
  · next hstored =>
    -- A stored entry is cut to its size, and never found too short.
    rw [← Except.ok.inj h, List.length_take, hlen]
    by_cases hshort : entry.lengthAligned.toNat < entry.realSize.toNat
    · refine Or.inr ⟨⟨by simpa using hprotected, by omega, hshort, ?_⟩, by omega⟩
      exact Or.inr ⟨hstored, hword, by omega⟩
    · exact Or.inl (by omega)
  · exact Or.inl (inflateExact_length h)

/-- An entry of that kind is read, and short. -/
lemma readEntry_short {grf : Grf} {entry : GrfEntry} (hsize : grf.size = grf.handle.length)
    (h : ShortRead grf entry) :
    ∃ data, readEntry z C grf entry = .ok data ∧ data.length = entry.lengthAligned.toNat := by
  obtain ⟨hplain, hlimit, hshort, hexit⟩ := h
  unfold readEntry
  rw [if_neg (by omega)]
  by_cases hzero : entry.lengthAligned = 0
  · rw [if_pos ⟨hzero, by simp [hplain]⟩, hzero]
    exact ⟨[], rfl, rfl⟩
  rw [if_neg fun hnone => hzero hnone.1]
  rcases hexit with hnone | ⟨hstored, hword, hin⟩
  · exact absurd hnone hzero
  unfold wordSize at hword
  have hrange : ((checkedAdd entry.offset.toNat headerSize).bind fun start =>
      checkedAdd start entry.lengthAligned.toNat) =
      some (entry.offset.toNat + headerSize + entry.lengthAligned.toNat) := by
    rw [checkedAdd_eq (by omega), Option.bind_some, checkedAdd_eq hword]
  have hread : ∃ body, readAt grf.handle (entry.offset.toNat + headerSize)
      entry.lengthAligned.toNat = .ok body := by
    refine ⟨_, if_pos ?_⟩
    rw [List.length_take, List.length_drop]
    omega
  obtain ⟨body, hbody⟩ := hread
  obtain ⟨body', hdecrypt, hlen⟩ := decryptBody_ok entry body
  rw [readAt_length hbody] at hlen
  refine ⟨body'.take entry.realSize.toNat, ?_, by rw [List.length_take]; omega⟩
  simp only [hrange]
  rw [if_neg (by omega), if_neg (by simp [hplain]), add_eq (by omega), ok_bind, hbody, ok_bind,
    decodeBody, hdecrypt, ok_bind, if_pos hstored]
  rfl

/-- **When a read has the declared size**: for every entry that is not a `ShortRead`, and for
no other one. -/
theorem reads_declared_size_iff {fileName : String} {file : List Byte}
    {forced : Option FilenameEncoding} {grf : Grf}
    (hopen : openWithEncoding T z C fileName file forced = .ok grf) (entry : GrfEntry) :
    (∀ data, readEntry z C grf entry = .ok data → data.length = entry.realSize.toNat) ↔
      ¬ ShortRead grf entry := by
  obtain ⟨hhandle, hsize⟩ := openWithEncoding_file hopen
  constructor
  · intro hall hshort
    obtain ⟨data, hread, hlen⟩ := readEntry_short (by rw [hsize, hhandle]) hshort
    have hfull := hall data hread
    have hless := hshort.short
    omega
  · intro hno data hread
    rcases readEntry_length hread with hlen | ⟨hshort, -⟩
    · exact hlen
    · exact absurd hshort hno

/-- A 0x102 archive of two stored files of five bytes; the table says that the archive holds
none of the first and three of the second. -/
def shortArchive : List Byte :=
  -- The signature, a key, and the four words.
  [77, 97, 115, 116, 101, 114, 32, 111, 102, 32, 77, 97, 103, 105, 99] ++
    List.replicate 15 0 ++ [0, 0, 0, 0, 0, 0, 0, 0, 9, 0, 0, 0, 2, 1, 0, 0] ++
  [7, 0, 0, 0, 0, 0, 97, 0, 0, 0, 0, 0xD5, 2, 0, 0, 0xCB, 0x92, 0, 0, 5, 0, 0, 0, 1, 0, 0, 0, 0] ++
  [7, 0, 0, 0, 0, 0, 98, 0, 0, 0, 0, 0xD5, 2, 0, 0, 0xCE, 0x92, 0, 0, 5, 0, 0, 0, 1, 0, 0, 0, 0]

lemma shortArchive_reads :
    (openArchive TextLib.ascii Writer.sampleFlate Writer.noCrypto "short.grf"
      shortArchive).toOption.map (fun grf => grf.files.map fun f =>
        ((readEntry Writer.sampleFlate Writer.noCrypto grf f.entry).toOption.map List.length,
          f.entry.realSize.toNat)) = some [(some 0, 5), (some 3, 5)] := by
  decide +kernel

/-- **Files that are read too short.**  The archive opens, and its two files of five bytes are
read without an error, as no bytes and as three. -/
theorem short_files_are_read :
    ∃ grf, openArchive TextLib.ascii Writer.sampleFlate Writer.noCrypto "short.grf"
        shortArchive = .ok grf ∧
      ∀ n ∈ [0, 3], ∃ f ∈ grf.files, ∃ data,
        readEntry Writer.sampleFlate Writer.noCrypto grf f.entry = .ok data ∧
          data.length = n ∧ f.entry.realSize.toNat = 5 := by
  obtain ⟨grf, hopen, hfiles⟩ := Option.map_eq_some_iff.mp shortArchive_reads
  refine ⟨grf, toOption_eq_some hopen, ?_⟩
  intro n hn
  have hmem : (some n, 5) ∈ grf.files.map fun f =>
      ((readEntry Writer.sampleFlate Writer.noCrypto grf f.entry).toOption.map List.length,
        f.entry.realSize.toNat) := by
    rw [hfiles]
    rcases List.mem_cons.mp hn with rfl | hn
    · simp
    · obtain rfl := List.mem_singleton.mp hn
      simp
  obtain ⟨f, hf, heq⟩ := List.mem_map.mp hmem
  obtain ⟨hread, hreal⟩ := Prod.mk.inj heq
  obtain ⟨data, hdata, hlen⟩ := Option.map_eq_some_iff.mp hread
  exact ⟨f, hf, data, toOption_eq_some hdata, hlen, hreal⟩

/-- In that archive, too, exactly the entries that are no `ShortRead` are read in full. -/
theorem reads_declared_size_sample :
    ∃ grf, openWithEncoding TextLib.ascii Writer.sampleFlate Writer.noCrypto "short.grf"
        shortArchive none = .ok grf ∧
      ∀ f ∈ grf.files,
        (∀ data, readEntry Writer.sampleFlate Writer.noCrypto grf f.entry = .ok data →
          data.length = f.entry.realSize.toNat) ↔ ¬ ShortRead grf f.entry := by
  obtain ⟨grf, hopen, -⟩ := Option.map_eq_some_iff.mp shortArchive_reads
  have hok := toOption_eq_some hopen
  exact ⟨grf, hok, fun f _ => reads_declared_size_iff hok f.entry⟩

end Grf
end RemoteClient
