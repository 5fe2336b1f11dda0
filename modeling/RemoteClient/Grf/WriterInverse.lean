/-
# The reader undoes what the writer does to a body and to a name

A body that was deflated, padded and encrypted by its flags is decrypted, its padding is
ignored by the inflater, and its content comes back (`pack_decodes`, `packLegacy_decodes`).
A 0x102 name that was padded and obfuscated is decoded in place (`decodeFilename_encoded`),
and the reader guesses the mode the writer chose (`isFullEncrypt_eq`).
-/
import RemoteClient.Grf.Archive
import RemoteClient.Grf.DesInverse
import RemoteClient.Grf.Writer

namespace RemoteClient
namespace Grf
namespace Writer

open Exec Bytes Blocks

variable {z : Flate}

/-! ## Padding -/

lemma not_seven : ∀ i : Fin 32, (~~~(7 : BitVec 32))[i] = !decide (i.val < 3) := by decide

lemma and_not_seven (m : BitVec 32) : m &&& ~~~(7 : BitVec 32) = (m >>> 3) <<< 3 := by
  ext i hi
  have h7 : (~~~(7 : BitVec 32))[i] = !decide (i < 3) := not_seven ⟨i, hi⟩
  rw [BitVec.getElem_and, h7]
  by_cases h3 : i < 3
  · simp [h3]
  · simp [h3, show 3 + (i - 3) = i by omega, hi]

lemma alignUp_toNat {n : BitVec 32} (h : n.toNat + 7 < 2 ^ 32) :
    (alignUp n).toNat = (n.toNat + 7) / 8 * 8 := by
  have hsum : (n + 7).toNat = n.toNat + 7 := by
    rw [BitVec.toNat_add]
    exact Nat.mod_eq_of_lt h
  unfold alignUp
  rw [and_not_seven, BitVec.toNat_shiftLeft, BitVec.toNat_ushiftRight, hsum, Nat.shiftLeft_eq,
    Nat.shiftRight_eq_div_pow]
  exact Nat.mod_eq_of_lt (by omega)

lemma toNat_ofNat_length {l : List Byte} (h : l.length + 7 < 2 ^ 32) :
    (BitVec.ofNat 32 l.length).toNat = l.length := by
  rw [BitVec.toNat_ofNat]
  exact Nat.mod_eq_of_lt (by omega)

/-- A padded body is the body and zeros behind it. -/
lemma resize_alignUp {l : List Byte} (h : l.length + 7 < 2 ^ 32) :
    ∃ padding, resize l (alignUp (BitVec.ofNat 32 l.length)).toNat = l ++ padding ∧
      (l ++ padding).length = (alignUp (BitVec.ofNat 32 l.length)).toNat := by
  have hlen := toNat_ofNat_length h
  have halign := alignUp_toNat (n := BitVec.ofNat 32 l.length) (by omega)
  refine ⟨List.replicate ((alignUp (BitVec.ofNat 32 l.length)).toNat - l.length) 0, ?_, ?_⟩
  · rw [resize, List.take_of_length_le (by omega)]
  · rw [List.length_append, List.length_replicate]
    omega

/-! ## Bodies -/

/-- A zlib stream is never empty: an empty one would be followed by any other. -/
lemma deflate_ne_nil (hz : z.Lawful) (data : List Byte) : z.deflate data ≠ [] := by
  intro hnil
  obtain ⟨r, hr, -, hout, -⟩ := hz.inflates data (z.deflate (data ++ [0])) (data.length + 2)
    (by omega)
  obtain ⟨r', hr', -, hout', -⟩ := hz.inflates (data ++ [0]) [] (data.length + 2)
    (by rw [List.length_append, List.length_singleton]; omega)
  rw [hnil, List.nil_append] at hr
  rw [List.append_nil, hr] at hr'
  obtain rfl := Except.ok.inj hr'
  rw [hout, List.length_append, List.length_singleton] at hout'
  omega

/-- A deflated body inflates to its content, whatever follows it. -/
lemma inflateExact_deflate (hz : z.Lawful) (data padding : List Byte) :
    inflateExact z (z.deflate data ++ padding) data.length = .ok data := by
  obtain ⟨r, hr, hstatus, hout, hbuf⟩ := hz.inflates data padding (data.length + 1) (by omega)
  rw [inflateExact, hr]
  simp only [hstatus, hout, ne_eq, not_true_eq_false, or_self, if_false, hbuf]

/-- What the table entry of a body says, and that the body decodes to `data`. -/
structure Decodes (z : Flate) (p : Packed) (kind : Byte) (data : List Byte) : Prop where
  length_payload : p.payload.length = p.lengthAligned.toNat
  toNat_realSize : p.realSize.toNat = data.length
  eq_nil : p.lengthAligned = 0 → data = []
  decodeBody_eq : ∀ entry : GrfEntry, entry.kind = kind →
    entry.compressedSize = p.compressedSize → entry.lengthAligned = p.lengthAligned →
    entry.realSize = p.realSize → decodeBody z entry p.payload = .ok data

lemma decryptBody_plain {entry : GrfEntry} {data : List Byte}
    (h : entry.kind &&& (filelistTypeEncryptMixed ||| filelistTypeEncryptHeader) = 0) :
    decryptBody entry data = .ok data := by
  have hbits : ∀ k : Byte, k &&& (filelistTypeEncryptMixed ||| filelistTypeEncryptHeader) = 0 →
      k &&& filelistTypeEncryptMixed = 0 ∧ k &&& filelistTypeEncryptHeader = 0 := by decide
  obtain ⟨hmixed, hheader⟩ := hbits entry.kind h
  rw [decryptBody, if_neg (by rw [hmixed]; simp), if_neg (by rw [hheader]; simp)]

lemma encodeFull_decrypts (payload : List Byte) (compressedSize lengthAligned : BitVec 32) :
    ∃ enc, Des.encodeFull payload lengthAligned.toNat compressedSize = .ok enc ∧
      enc.length = payload.length ∧ ∀ entry : GrfEntry,
        entry.kind &&& filelistTypeEncryptMixed ≠ 0 → entry.compressedSize = compressedSize →
        entry.lengthAligned = lengthAligned → decryptBody entry enc = .ok payload := by
  obtain ⟨enc, henc, hlen, hdec⟩ :=
    Des.decodeFull_encodeFull payload lengthAligned.toNat compressedSize
  refine ⟨enc, henc, hlen, fun entry hkind hc ha => ?_⟩
  rw [decryptBody, if_pos hkind, hc, ha, hdec, lift_ok]

lemma encodeHeader_decrypts (payload : List Byte) (lengthAligned : BitVec 32) :
    ∃ enc, Des.encodeHeader payload lengthAligned.toNat = .ok enc ∧
      enc.length = payload.length ∧ ∀ entry : GrfEntry,
        entry.kind &&& filelistTypeEncryptMixed = 0 →
        entry.kind &&& filelistTypeEncryptHeader ≠ 0 →
        entry.lengthAligned = lengthAligned → decryptBody entry enc = .ok payload := by
  obtain ⟨enc, henc, hlen, hdec⟩ := Des.decodeHeader_decodeHeader payload lengthAligned.toNat
  refine ⟨enc, henc, hlen, fun entry hmixed hheader ha => ?_⟩
  rw [decryptBody, if_neg (by rw [hmixed]; simp), if_pos hheader, ha, hdec, lift_ok]

/-- Whichever mode the flags pick, decrypting by the same flags undoes it. -/
lemma encryptBody_decrypts (flags : Byte) (payload : List Byte)
    (compressedSize lengthAligned : BitVec 32)
    (hflags : flags &&& filelistTypeEncryptMixed = 0 → flags &&& filelistTypeEncryptHeader ≠ 0) :
    ∃ enc, encryptBody flags payload compressedSize lengthAligned = .ok enc ∧
      enc.length = payload.length ∧ ∀ entry : GrfEntry, entry.kind = flags →
        entry.compressedSize = compressedSize → entry.lengthAligned = lengthAligned →
        decryptBody entry enc = .ok payload := by
  unfold encryptBody
  by_cases hmixed : flags &&& filelistTypeEncryptMixed = 0
  · obtain ⟨enc, henc, hlen, hdec⟩ := encodeHeader_decrypts payload lengthAligned
    refine ⟨enc, ?_, hlen, fun entry hk _ ha => hdec entry ?_ ?_ ha⟩
    · rw [if_neg (by rw [hmixed]; simp), henc]
    · rw [hk, hmixed]
    · rw [hk]; exact hflags hmixed
  · obtain ⟨enc, henc, hlen, hdec⟩ := encodeFull_decrypts payload compressedSize lengthAligned
    refine ⟨enc, ?_, hlen, fun entry hk hc ha => hdec entry ?_ hc ha⟩
    · rw [if_pos hmixed, henc]
    · rw [hk]; exact hmixed

/-- A deflated body decodes when decrypting it gives the zlib stream and some padding. -/
lemma deflated_decodes (hz : z.Lawful) {data payload : List Byte} (padding : List Byte) {kind : Byte}
    {lengthAligned : BitVec 32} (hpacked : (z.deflate data).length + 7 < 2 ^ 32)
    (hdata : data.length ≤ maxFileUncompressedBytes)
    (hne : (z.deflate data).length ≠ data.length)
    (hlen : payload.length = (z.deflate data ++ padding).length)
    (haligned : (z.deflate data ++ padding).length = lengthAligned.toNat)
    (hdec : ∀ entry : GrfEntry, entry.kind = kind →
      entry.compressedSize = BitVec.ofNat 32 (z.deflate data).length →
      entry.lengthAligned = lengthAligned →
      decryptBody entry payload = .ok (z.deflate data ++ padding)) :
    Decodes z ⟨payload, BitVec.ofNat 32 (z.deflate data).length, lengthAligned,
      BitVec.ofNat 32 data.length⟩ kind data := by
  unfold maxFileUncompressedBytes at hdata
  have hreal := toNat_ofNat_length (l := data) (by omega)
  have hsize := toNat_ofNat_length hpacked
  refine ⟨by simp only; omega, hreal, fun hzero => ?_, fun entry hkind hc ha hr => ?_⟩
  · have hpos := List.length_pos_iff.mpr (deflate_ne_nil hz data)
    have hnat := congrArg BitVec.toNat hzero
    simp only [BitVec.ofNat_eq_ofNat, BitVec.toNat_ofNat, Nat.zero_mod] at hnat
    rw [List.length_append] at haligned
    omega
  · simp only at hc ha hr ⊢
    rw [decodeBody, hdec entry hkind hc ha, ok_bind, if_neg, hr, hreal,
      inflateExact_deflate hz]
    intro heq
    have hnat := congrArg BitVec.toNat heq
    rw [hr, hc, hreal, hsize] at hnat
    exact hne hnat.symm

lemma stored_decodes {data : List Byte} {kind : Byte}
    (hdata : data.length ≤ maxFileUncompressedBytes)
    (hplain : kind &&& (filelistTypeEncryptMixed ||| filelistTypeEncryptHeader) = 0) :
    Decodes z ⟨data, BitVec.ofNat 32 data.length, BitVec.ofNat 32 data.length,
      BitVec.ofNat 32 data.length⟩ kind data := by
  unfold maxFileUncompressedBytes at hdata
  have hreal := toNat_ofNat_length (l := data) (by omega)
  refine ⟨hreal.symm, hreal, fun hzero => ?_, fun entry hkind hc ha hr => ?_⟩
  · have hnat := congrArg BitVec.toNat hzero
    simp only at hnat
    rw [hreal] at hnat
    exact List.eq_nil_of_length_eq_zero hnat
  · simp only at hc hr ⊢
    rw [decodeBody, decryptBody_plain (by rw [hkind]; exact hplain), ok_bind,
      if_pos (hr.trans hc.symm), hr, hreal, List.take_of_length_le le_rfl]
    rfl

/-- **A body that was packed decodes to its content**, in each of the ways to add a file. -/
lemma pack_decodes (hz : z.Lawful) {kind : EntryKind} (hkind : kind ≠ .directory)
    (name : List Byte) {data : List Byte} (hdata : data.length ≤ maxFileUncompressedBytes)
    (hpacked : (z.deflate data).length + 7 < 2 ^ 32)
    (hne : kind.stored = false → (z.deflate data).length ≠ data.length) :
    ∃ p, pack z (Entry.ofKind kind name data) = .ok p ∧ Decodes z p kind.flags data := by
  cases kind with
  | file =>
    have hflags : ¬(EntryKind.file.flags &&&
        (filelistTypeEncryptMixed ||| filelistTypeEncryptHeader) ≠ 0) := by decide
    have hpack : pack z (Entry.ofKind .file name data) =
        .ok ⟨z.deflate data, BitVec.ofNat 32 (z.deflate data).length,
          BitVec.ofNat 32 (z.deflate data).length, BitVec.ofNat 32 data.length⟩ := if_neg hflags
    -- Nothing is appended to a body that is not encrypted.
    refine ⟨_, hpack, deflated_decodes hz [] hpacked hdata (hne rfl)
      (by rw [List.append_nil]) ?_ fun entry hk _ _ => ?_⟩
    · rw [List.append_nil, toNat_ofNat_length hpacked]
    · rw [decryptBody_plain (by rw [hk]; decide), List.append_nil]
  | storedFile =>
    have hflags : ¬(EntryKind.storedFile.flags &&&
        (filelistTypeEncryptMixed ||| filelistTypeEncryptHeader) ≠ 0) := by decide
    have hpack : pack z (Entry.ofKind .storedFile name data) =
        .ok ⟨data, BitVec.ofNat 32 data.length, BitVec.ofNat 32 data.length,
          BitVec.ofNat 32 data.length⟩ := if_neg hflags
    exact ⟨_, hpack, stored_decodes hdata (by decide)⟩
  | encryptedFile mixed =>
    obtain ⟨padding, hresize, hpad⟩ := resize_alignUp hpacked
    obtain ⟨enc, henc, hlen, hdec⟩ := encryptBody_decrypts
      (EntryKind.encryptedFile mixed).flags (z.deflate data ++ padding)
      (BitVec.ofNat 32 (z.deflate data).length) (alignUp (BitVec.ofNat 32 (z.deflate data).length))
      (by cases mixed <;> decide)
    refine ⟨_, ?_, deflated_decodes hz padding hpacked hdata (hne rfl) hlen hpad hdec⟩
    have hflags : (EntryKind.encryptedFile mixed).flags &&&
        (filelistTypeEncryptMixed ||| filelistTypeEncryptHeader) ≠ 0 := by
      cases mixed <;> decide
    have hpack : pack z (Entry.ofKind (.encryptedFile mixed) name data) = (do
        let payload ← encryptBody (EntryKind.encryptedFile mixed).flags
          (resize (z.deflate data) (alignUp (BitVec.ofNat 32 (z.deflate data).length)).toNat)
          (BitVec.ofNat 32 (z.deflate data).length)
          (alignUp (BitVec.ofNat 32 (z.deflate data).length))
        return ⟨payload, BitVec.ofNat 32 (z.deflate data).length,
          alignUp (BitVec.ofNat 32 (z.deflate data).length), BitVec.ofNat 32 data.length⟩) :=
      if_pos hflags
    rw [hpack, hresize, henc]
    rfl
  | directory => exact absurd rfl hkind

lemma flags_file {kind : EntryKind} (h : kind ≠ .directory) :
    kind.flags &&& filelistTypeFile ≠ 0 := by
  cases kind with
  | directory => exact absurd rfl h
  | encryptedFile mixed => cases mixed <;> decide
  | file => decide
  | storedFile => decide

lemma flags_unprotected (kind : EntryKind) : kind.flags &&& filelistTypeProtected = 0 := by
  cases kind with
  | encryptedFile mixed => cases mixed <;> decide
  | file => decide
  | storedFile => decide
  | directory => decide

/-- The flag of the encryption mode the extension of a name picks. -/
def modeOf (name : List Byte) : Byte :=
  if fullEncrypt name then filelistTypeEncryptMixed else filelistTypeEncryptHeader

/-- **A body that was packed for 0x102 decodes to its content**, whatever the flags of its
entry, unless these ask for the mode the extension excludes. -/
lemma packLegacy_decodes (hz : z.Lawful) {kind : EntryKind} (hkind : kind ≠ .directory)
    {name data : List Byte} (hdata : data.length ≤ maxFileUncompressedBytes)
    (hpacked : (z.deflate data).length + 7 < 2 ^ 32)
    (hne : (z.deflate data).length ≠ data.length)
    (hmode : kind = .encryptedFile true → fullEncrypt name = true) :
    ∃ p, packLegacy z (Entry.ofKind kind name data) = .ok (p, kind.flags ||| modeOf name) ∧
      Decodes z p (kind.flags ||| modeOf name) data := by
  obtain ⟨padding, hresize, hpad⟩ := resize_alignUp hpacked
  generalize hsize : BitVec.ofNat 32 (z.deflate data).length = size at hresize hpad
  -- Both modes encrypt the same padded bytes, so what is left is that decryption returns them.
  have hdecodes : ∀ payload : List Byte, payload.length = (z.deflate data ++ padding).length →
      (∀ entry : GrfEntry, entry.kind = kind.flags ||| modeOf name →
        entry.compressedSize = size → entry.lengthAligned = alignUp size →
        decryptBody entry payload = .ok (z.deflate data ++ padding)) →
      Decodes z ⟨payload, size, alignUp size, BitVec.ofNat 32 data.length⟩
        (kind.flags ||| modeOf name) data := by
    intro payload hlen hdec
    subst hsize
    exact deflated_decodes hz padding hpacked hdata hne hlen hpad hdec
  have hentry : Entry.ofKind kind name data = ⟨name, data, kind.flags, kind.stored⟩ := by
    rw [Entry.ofKind, if_neg hkind]
  unfold packLegacy
  simp only [hentry, hsize, hresize, if_pos (flags_file hkind)]
  by_cases hfull : fullEncrypt name = true
  · obtain ⟨enc, henc, hlen, hdec⟩ :=
      encodeFull_decrypts (z.deflate data ++ padding) size (alignUp size)
    have hm : modeOf name = filelistTypeEncryptMixed := if_pos hfull
    rw [if_pos hfull, henc, ok_bind, hm]
    rw [hm] at hdecodes
    refine ⟨_, rfl, hdecodes enc hlen fun entry hk hc ha => hdec entry ?_ hc ha⟩
    have hbit : ∀ k : Byte, (k ||| filelistTypeEncryptMixed) &&& filelistTypeEncryptMixed ≠ 0 := by
      decide
    rw [hk]
    exact hbit _
  · obtain ⟨enc, henc, hlen, hdec⟩ := encodeHeader_decrypts (z.deflate data ++ padding) (alignUp size)
    have hm : modeOf name = filelistTypeEncryptHeader := if_neg hfull
    rw [if_neg hfull, henc, ok_bind, hm]
    rw [hm] at hdecodes
    refine ⟨_, rfl, hdecodes enc hlen fun entry hk _ ha => hdec entry ?_ ?_ ha⟩
    -- The reader tests for the mixed mode first, so that bit has to be clear.
    · rw [hk]
      cases kind with
      | file => decide
      | storedFile => decide
      | directory => exact absurd rfl hkind
      | encryptedFile mixed =>
        cases mixed with
        | false => decide
        | true => exact absurd (hmode rfl) hfull
    · have hbit : ∀ k : Byte,
          (k ||| filelistTypeEncryptHeader) &&& filelistTypeEncryptHeader ≠ 0 := by decide
      rw [hk]
      exact hbit _

/-! ## The mode -/

/-- A dot. -/
def dot : Byte := BitVec.ofNat 8 '.'.toNat

lemma asciiLower_eq_dot : ∀ b : Byte, asciiLower b = dot ↔ b = dot := by decide

lemma headerOnly_shape : ∀ ext ∈ headerOnly,
    ext.map asciiLower = ext ∧ ext = dot :: ext.tail ∧ dot ∉ ext.tail := by
  decide

lemma rposition_append {p : Byte → Bool} {pre post : List Byte} {a : Byte} (ha : p a = true)
    (hpost : ∀ b ∈ post, p b = false) : rposition p (pre ++ a :: post) = some pre.length := by
  have hnone : post.reverse.findIdx? p = none := by
    rw [List.findIdx?_eq_none_iff]
    intro b hb
    exact hpost b (List.mem_reverse.mp hb)
  rw [rposition, List.reverse_append, List.reverse_cons, List.append_assoc, List.findIdx?_append,
    hnone]
  simp [List.findIdx?_cons, ha]

lemma rposition_eq_none {p : Byte → Bool} {l : List Byte} (h : ∀ b ∈ l, p b = false) :
    rposition p l = none := by
  rw [rposition, Option.map_eq_none_iff, List.findIdx?_eq_none_iff]
  intro b hb
  exact h b (List.mem_reverse.mp hb)

/-- A list with an item of a kind has a last one. -/
lemma exists_last_split {p : Byte → Bool} {l : List Byte} (h : ∃ b ∈ l, p b = true) :
    ∃ pre a post, l = pre ++ a :: post ∧ p a = true ∧ ∀ b ∈ post, p b = false := by
  induction l with
  | nil => obtain ⟨b, hb, -⟩ := h; exact absurd hb (by simp)
  | cons x l ih =>
    by_cases hl : ∃ b ∈ l, p b = true
    · obtain ⟨pre, a, post, rfl, ha, hpost⟩ := ih hl
      exact ⟨x :: pre, a, post, rfl, ha, hpost⟩
    · have hnone : ∀ b ∈ l, p b = false := fun b hb => by
        cases hb' : p b with
        | false => rfl
        | true => exact absurd ⟨b, hb, hb'⟩ hl
      obtain ⟨b, hb, hpb⟩ := h
      rcases List.mem_cons.mp hb with rfl | hb
      · exact ⟨[], b, l, rfl, hpb, hnone⟩
      · rw [hnone b hb] at hpb
        exact absurd hpb (by simp)

/-- Comparing an extension letter by letter without regard to case. -/
lemma matches_iff (a b : List Byte) :
    (a.length == b.length && (a.zip b).all fun ab => eqIgnoreAsciiCase ab.1 ab.2) = true ↔
      a.map asciiLower = b.map asciiLower := by
  induction a generalizing b with
  | nil => cases b <;> simp
  | cons x a ih =>
    cases b with
    | nil => simp
    | cons y b =>
      have hih := ih b
      simp only [Bool.and_eq_true, beq_iff_eq] at hih
      simp only [List.length_cons, List.zip_cons_cons, List.all_cons, Bool.and_eq_true, beq_iff_eq,
        List.map_cons, List.cons.injEq, eqIgnoreAsciiCase, Nat.add_right_cancel_iff]
      rw [← hih]
      tauto

/-- An extension is a suffix of a name exactly when it is what stands from the last dot on. -/
lemma suffix_iff {ext pre post : List Byte} (hext : ext = dot :: ext.tail) (htail : dot ∉ ext.tail)
    (hpost : dot ∉ post) : ext <:+ pre ++ dot :: post ↔ ext = dot :: post := by
  constructor
  · intro h
    rcases List.suffix_or_suffix_of_suffix h (List.suffix_append pre (dot :: post)) with h | h
    · rcases List.suffix_cons_iff.mp h with h | h
      · exact h
      · exact absurd (h.subset (by rw [hext]; simp)) hpost
    · rw [hext] at h
      rcases List.suffix_cons_iff.mp h with h | h
      · rw [hext, h]
      · exact absurd (h.subset (by simp)) htail
  · intro h
    rw [h]
    exact List.suffix_append pre _

lemma dot_mem_map {l : List Byte} : dot ∈ l.map asciiLower ↔ dot ∈ l := by
  rw [List.mem_map]
  constructor
  · rintro ⟨b, hb, heq⟩
    rwa [(asciiLower_eq_dot b).mp heq] at hb
  · intro h
    exact ⟨dot, h, (asciiLower_eq_dot dot).mpr rfl⟩

/-- **The reader guesses the mode the writer chose**, for every name. -/
lemma isFullEncrypt_eq (name : List Byte) : isFullEncrypt name = .ok (fullEncrypt name) := by
  have hwriter : fullEncrypt name = !headerOnly.any fun ext => ext.isSuffixOf (name.map asciiLower) :=
    rfl
  have hdot : ∀ b : Byte, (b == BitVec.ofNat 8 '.'.toNat) = true ↔ b = dot := fun b => beq_iff_eq
  rw [hwriter]
  by_cases hname : dot ∈ name
  -- With a dot both look at what stands behind the last one.
  · obtain ⟨pre, a, post, rfl, ha, hpost⟩ :=
      exists_last_split (p := (· == BitVec.ofNat 8 '.'.toNat)) ⟨dot, hname, by simp [dot]⟩
    obtain rfl := (hdot a).mp ha
    have hpost' : dot ∉ post := fun h => by
      have := hpost dot h
      rw [(hdot dot).mpr rfl] at this
      exact absurd this (by simp)
    have hpos : rposition (· == BitVec.ofNat 8 '.'.toNat) (pre ++ dot :: post) = some pre.length :=
      rposition_append ha hpost
    have hslice : (slice (pre ++ dot :: post) pre.length (pre ++ dot :: post).length :
        Exec GrfError (List Byte)) = .ok (dot :: post) := by
      rw [slice_eq (by simp) le_rfl, List.drop_left, List.take_of_length_le (by simp)]
    rw [isFullEncrypt, hpos]
    simp only [hslice, ok_bind]
    refine congrArg Except.ok (congrArg _ ?_)
    rw [Bool.eq_iff_iff, List.any_eq_true, List.any_eq_true]
    refine exists_congr fun ext => and_congr_right fun hext => ?_
    obtain ⟨hlower, hshape, htail⟩ := headerOnly_shape ext hext
    rw [matches_iff, List.isSuffixOf_iff_suffix, hlower, List.map_append, List.map_cons,
      (asciiLower_eq_dot dot).mpr rfl, suffix_iff hshape htail
        (fun h => hpost' (dot_mem_map.mp h))]
    exact eq_comm
  -- Without a dot neither finds an extension, as each starts with one.
  · have hpos : rposition (· == BitVec.ofNat 8 '.'.toNat) name = none := by
      refine rposition_eq_none fun b hb => ?_
      rw [← Bool.not_eq_true]
      intro h
      rw [(hdot b).mp h] at hb
      exact hname hb
    rw [isFullEncrypt, hpos]
    refine congrArg Except.ok ?_
    symm
    rw [Bool.not_eq_true', List.any_eq_false]
    intro ext hext hsuffix
    obtain ⟨-, hshape, -⟩ := headerOnly_shape ext hext
    have hmem : dot ∈ ext := by rw [hshape]; simp
    exact hname (dot_mem_map.mp ((List.isSuffixOf_iff_suffix.mp hsuffix).subset hmem))

/-! ## Names -/

lemma swapNibbles_swapNibbles : ∀ b : Byte, swapNibbles (swapNibbles b) = b := by decide

/-- What the writer does to a block of a name. -/
def encodeNameBlock (b : Block) : Block := (Des.cipher b).map swapNibbles

/-- What the reader does to one. -/
def decodeNameBlock (b : Block) : Block := Des.cipher (b.map swapNibbles)

lemma decode_encodeNameBlock (b : Block) : decodeNameBlock (encodeNameBlock b) = b := by
  have hswap : ((Des.cipher b).map swapNibbles).map swapNibbles = Des.cipher b := by
    apply Vector.ext
    intro i hi
    simp [swapNibbles_swapNibbles]
  rw [decodeNameBlock, encodeNameBlock, hswap, Des.cipher_cipher]

/-- Mode 1 on eight bytes is the transform of one block. -/
lemma decodeHeader_block (b : Block) : Des.decodeHeader b.toList 8 = .ok (Des.cipher b).toList := by
  have hcount : Des.blockCount b.toList 8 = 1 := by
    rw [Des.blockCount, Vector.length_toList]
    rfl
  have hflat : b.toList = flat [b] ++ [] := by simp
  rw [Des.decodeHeader, hcount, hflat, Des.leadBlocks_flat [] (by simp) id]
  simp [Des.runSchedule, Des.leadSchedule, Des.applyOp]

lemma encodeBlocks_flat (done todo : List Block) :
    encodeBlocks ((done ++ todo).length * 8) (flat (done ++ todo)) (done.length * 8) =
      .ok (flat (done ++ todo.map encodeNameBlock)) := by
  induction todo generalizing done with
  | nil =>
    unfold encodeBlocks
    rw [dif_neg (by simp)]
    simp
  | cons b todo ih =>
    have hi : done.length < (done ++ b :: todo).length := by simp
    have hblock : (done ++ b :: todo)[done.length] = b := by simp
    have hslice := slice_flat (ε := Empty) (t := []) hi rfl rfl
    have hsplice := splice_flat (t := []) (encodeNameBlock b) hi rfl
    rw [List.append_nil, hblock] at hslice
    rw [List.append_nil, List.append_nil, List.set_append_right _ _ le_rfl, Nat.sub_self,
      List.set_cons_zero] at hsplice
    have hmap : ((Des.cipher b).toList.map fun c => c.rotateRight 4) =
        (encodeNameBlock b).toList := (Vector.toList_map ..).symm
    have hnext := ih (done ++ [encodeNameBlock b])
    unfold encodeBlocks
    rw [dif_pos (by simp; omega), hslice, ok_bind, Des.encodeHeader, decodeHeader_block, ok_bind,
      hmap, hsplice]
    simpa [Nat.succ_mul] using hnext

lemma decodeFilename_flat (done todo : List Block) (t : List Byte) :
    decodeFilename (flat (done ++ todo) ++ t) ((done ++ todo).length * 8) (done.length * 8) =
      .ok (flat (done ++ todo.map decodeNameBlock) ++ t) := by
  induction todo generalizing done with
  | nil =>
    unfold decodeFilename
    rw [dif_neg (by simp)]
    simp
  | cons b todo ih =>
    have hi : done.length < (done ++ b :: todo).length := by simp
    have hblock : (done ++ b :: todo)[done.length] = b := by simp
    have hslice := slice_flat (ε := Empty) (t := t) hi rfl rfl
    have hsplice := splice_flat (t := t) (decodeNameBlock b) hi rfl
    rw [hblock] at hslice
    rw [List.set_append_right _ _ le_rfl, Nat.sub_self, List.set_cons_zero] at hsplice
    have hmap : b.toList.map swapNibbles = (b.map swapNibbles).toList := (Vector.toList_map ..).symm
    have hnext := ih (done ++ [decodeNameBlock b])
    unfold decodeFilename
    rw [dif_pos (by simp), hslice, ok_bind, hmap, decodeHeader_block, ok_bind]
    change decodeFilename (splice _ _ (decodeNameBlock b).toList) _ _ = _
    rw [hsplice]
    simpa [Nat.succ_mul] using hnext

lemma length_paddedName (name : List Byte) : (paddedName name).length % 8 = 0 ∧
    name.length + 1 ≤ (paddedName name).length ∧ (paddedName name).length ≤ name.length + 8 := by
  simp only [paddedName, List.length_append, List.length_singleton, List.length_replicate]
  omega

/-- **A name that was obfuscated is decoded in place**, with whatever follows it untouched. -/
lemma decodeFilename_encoded (name : List Byte) :
    ∃ enc, encodeFilename (paddedName name) = .ok enc ∧
      enc.length = (paddedName name).length ∧
      ∀ t, decodeFilename (enc ++ t) enc.length 0 = .ok (paddedName name ++ t) := by
  obtain ⟨hmod, -, -⟩ := length_paddedName name
  obtain ⟨bs, t, hbs, hlen⟩ := exists_flat (w := 8) (paddedName name)
    (n := (paddedName name).length / 8) (Nat.div_mul_le_self _ _)
  have ht : t = [] := by
    have hlength := congrArg List.length hbs
    rw [List.length_append, length_flat, hlen] at hlength
    exact List.eq_nil_of_length_eq_zero (by omega)
  rw [ht, List.append_nil] at hbs
  have henc := encodeBlocks_flat [] bs
  rw [List.nil_append, List.nil_append] at henc
  refine ⟨flat (bs.map encodeNameBlock), ?_, ?_, fun t => ?_⟩
  · rw [encodeFilename, hbs, length_flat]
    exact henc
  · rw [hbs, length_flat, length_flat, List.length_map]
  · have hdec := decodeFilename_flat [] (bs.map encodeNameBlock) t
    rw [List.nil_append, List.map_map] at hdec
    have hid : decodeNameBlock ∘ encodeNameBlock = id := funext decode_encodeNameBlock
    rw [hid, List.map_id, List.nil_append, ← hbs] at hdec
    rw [length_flat]
    exact hdec

end Writer
end Grf
end RemoteClient
