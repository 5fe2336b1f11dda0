/-
# Protected entries come back

What the script encodes decodes to the output it was given: the header under each of its
four types, the body under each of its five ciphers, stored or compressed, at every length.
The parts are undone one by one, and the header tells the decoder where each of them is.
-/
import RemoteClient.Grf.CipherInverse

namespace RemoteClient
namespace Grf

open Exec Bytes Blocks Ciphers

variable {z : Flate} {C : Crypto} {E : Generate.Encoders}

/-! ## The header -/

namespace Generate

/-- The 96 bytes of a header behind its checksum. -/
def headerFields (o : EntryOptions) (padded size outSize : ℕ) (hash : Vector Byte 16)
    (param : Vector Byte 60) : List Byte :=
  leBytes 2 o.cid.toNat ++ ([o.comp, o.flags] ++ (leBytes 4 padded ++ (leBytes 4 size ++
    (leBytes 4 outSize ++ (hash.toList ++ (leBytes 4 o.kid.toNat ++ param.toList))))))

lemma length_headerFields (o : EntryOptions) (padded size outSize : ℕ) (hash : Vector Byte 16)
    (param : Vector Byte 60) : (headerFields o padded size outSize hash param).length = 96 := by
  simp [headerFields]

/-- A header before it is encrypted: version, type, checksum and fields. -/
def plainHeader (C : Crypto) (kind : Byte) (fields : List Byte) : List Byte :=
  [1, kind, 0, 0] ++ (leBytes 4 (C.xxh32 fields 0).toNat ++ fields)

lemma writeChecksum_eq (kind : Byte) (checksum : List Byte) {fields : List Byte}
    (hc : checksum.length = 4) (hf : fields.length = 96) :
    writeChecksum C ([1, kind, 0, 0] ++ (checksum ++ fields)) = plainHeader C kind fields := by
  have hfields : (([1, kind, 0, 0] ++ (checksum ++ fields)).take 104).drop 8 = fields := by
    rw [List.take_of_length_le (by simp [hc, hf]), ← List.append_assoc]
    exact List.drop_left' (by simp [hc])
  have hcopy := splice_append (x := [1, kind, 0, 0]) (y := checksum) (t := fields)
    (s := leBytes 4 (C.xxh32 fields 0).toNat) rfl (by rw [hc, length_leBytes])
  rw [writeChecksum, hfields]
  exact hcopy

lemma length_plainHeader (kind : Byte) {fields : List Byte} (hf : fields.length = 96) :
    (plainHeader C kind fields).length = 104 := by
  rw [plainHeader, List.length_append, List.length_append, length_leBytes, hf]
  rfl

/-- A cursor behind the checksum, and one at the hash of the output. -/
lemma plainHeader_drop (kind : Byte) (o : EntryOptions) (padded size outSize : ℕ)
    (hash : Vector Byte 16) (param : Vector Byte 60) :
    (plainHeader C kind (headerFields o padded size outSize hash param)).drop 8 =
      leBytes 2 o.cid.toNat ++ ([o.comp, o.flags] ++ (leBytes 4 padded ++ (leBytes 4 size ++
        (leBytes 4 outSize ++ (hash.toList ++ (leBytes 4 o.kid.toNat ++ param.toList)))))) ∧
    (plainHeader C kind (headerFields o padded size outSize hash param)).drop 24 =
      hash.toList ++ (leBytes 4 o.kid.toNat ++ param.toList) := by
  have d8 : (plainHeader C kind (headerFields o padded size outSize hash param)).drop 8 =
      headerFields o padded size outSize hash param := by
    rw [plainHeader, ← List.append_assoc]
    exact List.drop_left' (by simp)
  refine ⟨d8, ?_⟩
  have d10 := drop_of_drop_eq (q := 10) d8 (by rw [length_leBytes])
  have d12 := drop_of_drop_eq (q := 12) d10 rfl
  have d16 := drop_of_drop_eq (q := 16) d12 (by rw [length_leBytes])
  have d20 := drop_of_drop_eq (q := 20) d16 (by rw [length_leBytes])
  exact drop_of_drop_eq (q := 24) d20 (by rw [length_leBytes])

/-- Writing to a buffer of zeros, `k` bytes behind what is written so far. -/
lemma splice_zeros {x s : List Byte} {n k m p : ℕ} (hp : p = x.length + k)
    (hn : n = k + s.length + m) :
    splice (x ++ List.replicate n 0) p s =
      (x ++ (List.replicate k 0 ++ s)) ++ List.replicate m 0 := by
  have hm : n - (k + s.length) = m := by omega
  rw [splice, hp, List.take_length_add_append, Nat.add_assoc, List.drop_length_add_append,
    List.take_replicate, List.drop_replicate, Nat.min_eq_left (by omega), hm]
  simp only [List.append_assoc]

lemma packWord_eq {n : ℕ} (h : n < 2 ^ 32) : packWord n = .ok (leBytes 4 n) := if_pos h

lemma makeHeader_eq (param : Vector Byte 60) {out : List Byte} (packed : List Byte)
    {o : EntryOptions} (hedits : o.edits = []) (hpacked : packed.length < 2 ^ 32)
    (hout : out.length < 2 ^ 32) :
    makeHeader C param out packed o = .ok (plainHeader C o.kind
      (headerFields o packed.length packed.length out.length (xxh128Native C out) param)) := by
  generalize hfields : leBytes 2 o.cid.toNat ++ [o.comp, o.flags] ++ leBytes 4 packed.length ++
    leBytes 4 packed.length ++ leBytes 4 out.length = fields
  have hlen : fields.length = 16 := by simp [← hfields]
  have hhash : (xxh128Native C out).toList.length = 16 := Vector.length_toList
  -- The header is written from its front, with a gap for the checksum.
  have h0 : splice (List.replicate 104 0) 0 [1, o.kind] =
      ([] ++ (List.replicate 0 0 ++ [1, o.kind])) ++ List.replicate 102 0 :=
    splice_zeros (x := []) (n := 104) (k := 0) (m := 102) rfl rfl
  have h8 : splice ([1, o.kind] ++ List.replicate 102 0) 8 fields =
      ([1, o.kind] ++ (List.replicate 6 0 ++ fields)) ++ List.replicate 80 0 :=
    splice_zeros rfl (by omega)
  generalize hx : [1, o.kind] ++ (List.replicate 6 0 ++ fields) = x at h8
  have hxlen : x.length = 24 := by simp [← hx, hlen]
  have h24 : splice (x ++ List.replicate 80 0) 24 (xxh128Native C out).toList =
      (x ++ (List.replicate 0 0 ++ (xxh128Native C out).toList)) ++ List.replicate 64 0 :=
    splice_zeros hxlen.symm (by omega)
  have h40 : splice (x ++ (xxh128Native C out).toList ++ List.replicate 64 0) 40
      (leBytes 4 o.kid.toNat) =
      (x ++ (xxh128Native C out).toList ++ (List.replicate 0 0 ++ leBytes 4 o.kid.toNat)) ++
        List.replicate 60 0 :=
    splice_zeros (by rw [List.length_append]; omega) (by rw [length_leBytes])
  have h44 : splice (x ++ (xxh128Native C out).toList ++ leBytes 4 o.kid.toNat ++
        List.replicate 60 0) 44 param.toList =
      (x ++ (xxh128Native C out).toList ++ leBytes 4 o.kid.toNat ++
        (List.replicate 0 0 ++ param.toList)) ++ List.replicate 0 0 :=
    splice_zeros (by simp [hxlen]) (by rw [Vector.length_toList])
  simp only [List.nil_append, List.replicate_zero, List.append_nil] at h0 h24 h40 h44
  have hsum := writeChecksum_eq (C := C) o.kind [0, 0, 0, 0] rfl
    (length_headerFields o packed.length packed.length out.length (xxh128Native C out) param)
  rw [makeHeader, packWord_eq hpacked, ok_bind, packWord_eq hout, ok_bind, hedits]
  simp only [List.foldl_nil, hfields, h0, h8, h24, h40, h44]
  rw [← hsum, ← hx, ← hfields, headerFields]
  simp only [List.append_assoc]
  rfl

end Generate

lemma header_cancel (hE : E.Lawful z C) (name : List Byte) {kind : Byte}
    (hkind : kind = 1 ∨ kind = 2 ∨ kind = 15 ∨ kind = 0x71) {front fields : List Byte}
    (hfront : front.length = 8) (hindex : front[1]? = some kind) (hfields : fields.length = 96) :
    ∃ enc, enc.length = 96 ∧
      Generate.headerEncrypt C E (front ++ fields) name = .ok (front ++ enc) ∧
      Protected.decryptHeader C (front ++ enc) (Protected.filenameHash C name) =
        .ok (front ++ fields) := by
  have htake : (front ++ fields).take 8 = front := List.take_left' hfront
  have hbody : ((front ++ fields).take 104).drop 8 = fields := by
    rw [List.take_of_length_le (by rw [List.length_append]; omega)]
    exact List.drop_left' hfront
  have hread : ∀ {ε : Type} (l : List Byte), (index (front ++ l) 1 : Exec ε Byte) = .ok kind := by
    intro ε l
    apply index_eq_of_getElem?
    rw [List.getElem?_append_left (by omega), hindex]
  have hslice : ∀ l : List Byte, (slice (front ++ l) 8 (front ++ l).length : Exec IoError _) =
      .ok l := by
    intro l
    exact slice_back l hfront (by rw [List.length_append, hfront])
  have hsalt : ∀ l : List Byte, (slice (front ++ l) 4 8 : Exec IoError _) = .ok (front.drop 4) := by
    intro l
    refine slice_of_drop (r := l) ?_ ?_ ?_
    · rw [List.drop_append_of_le_length (by omega)]
    · rw [List.length_drop, hfront]
    · rw [List.length_append]
      omega
  have hcopy : ∀ enc : List Byte, enc.length = 96 →
      splice (front ++ enc) 8 fields = front ++ fields := by
    intro enc henc
    exact splice_back hfront.symm (henc.trans hfields.symm)
  -- Header type 0x71 is 3-Way in CFB mode; the others are AES in CBC mode and differ in the vector.
  by_cases h71 : kind = 0x71
  · obtain ⟨enc, s', henc, hlen, hdec⟩ := mapChunks_cancel (ε := Empty)
      (f := fun previous block =>
        (xorBlocks (Ciphers.threewayEncrypt Generate.threewayKey previous) block,
          xorBlocks (Ciphers.threewayEncrypt Generate.threewayKey previous) block))
      (g := fun previous block =>
        (xorBlocks block (Ciphers.threewayEncrypt Generate.threewayKey previous), block))
      (fun s block => by
        simp only [xorBlocks_comm (Ciphers.threewayEncrypt Generate.threewayKey s),
          xorBlocks_cancel])
      8 Generate.threewayIv (l := fields) hfields.ge
    have hthreeway : threewayCfbDecrypt enc Protected.threewayHeaderKey Protected.threewayHeaderIv =
        .ok fields := by
      rw [threewayCfbDecrypt, hlen, hfields]
      exact bind_eq_ok.mpr ⟨_, hdec, rfl⟩
    refine ⟨enc, hlen.trans hfields, ?_, ?_⟩
    · rw [Generate.headerEncrypt, hread, ok_bind, if_pos h71, hbody, htake]
      simp only [Generate.threewayEncrypt_eq, henc, ok_bind]
      rfl
    · rw [Protected.decryptHeader, hread, ok_bind, hslice, ok_bind,
        if_neg (by rw [h71]; decide), if_pos h71, hthreeway, lift_ok, ok_bind,
        hcopy enc (hlen.trans hfields)]
      rfl
  · have hkinds : kind = 1 ∨ kind = 2 ∨ kind = 15 := by
      rcases hkind with h | h | h | h
      · exact Or.inl h
      · exact Or.inr (Or.inl h)
      · exact Or.inr (Or.inr h)
      · exact absurd h h71
    have hiv : (if kind = 1 then Protected.aesHeaderIv
        else if kind = 2 then Protected.filenameHash C name
        else Protected.filenameHash C (front.drop 4)) =
      (if kind = 1 then Generate.aesIv
        else Generate.xxh128Native C (if kind = 2 then name else front.drop 4)) := by
      by_cases h1 : kind = 1
      · rw [if_pos h1, if_pos h1]
        rfl
      · by_cases h2 : kind = 2
        · rw [if_neg h1, if_neg h1, if_pos h2, if_pos h2]
          rfl
        · rw [if_neg h1, if_neg h1, if_neg h2, if_neg h2]
          rfl
    obtain ⟨enc, henc, hlen, hdec⟩ := aesCbc_cancel hE fields Generate.aesKey
      (if kind = 1 then Generate.aesIv
        else Generate.xxh128Native C (if kind = 2 then name else front.drop 4))
      (by rw [hfields])
    refine ⟨enc, hlen.trans hfields, ?_, ?_⟩
    · rw [Generate.headerEncrypt, hread, ok_bind, if_neg h71, hbody, htake]
      simp only [henc, ok_bind]
      rfl
    · rw [Protected.decryptHeader, hread, ok_bind, hslice, ok_bind, if_pos hkinds, hsalt, ok_bind]
      simp only [hiv]
      have hkey : Protected.aesHeaderKey = Generate.aesKey := rfl
      rw [hkey, hdec, lift_ok, ok_bind, hcopy enc (hlen.trans hfields)]
      rfl

/-- The header that was encrypted is the one the decoder works with. -/
lemma decodeHeader_ok (hE : E.Lawful z C) (name : List Byte) {kind : Byte}
    (hkind : kind = 1 ∨ kind = 2 ∨ kind = 15 ∨ kind = 0x71) {fields : List Byte}
    (hfields : fields.length = 96) :
    ∃ header, header.length = 104 ∧
      Generate.headerEncrypt C E (Generate.plainHeader C kind fields) name = .ok header ∧
      ∀ body, Protected.decodeHeader C (header ++ body) (Protected.filenameHash C name) =
        .ok (Generate.plainHeader C kind fields) := by
  generalize hsum : (C.xxh32 fields 0).toNat = sum
  generalize hfront : [1, kind, 0, 0] ++ leBytes 4 sum = front
  have hflen : front.length = 8 := by simp [← hfront]
  have hplain : Generate.plainHeader C kind fields = front ++ fields := by
    rw [Generate.plainHeader, hsum, ← hfront, List.append_assoc]
  obtain ⟨enc, henc, hencrypt, hdecrypt⟩ := header_cancel hE name hkind hflen
    (by rw [← hfront]; rfl) hfields
  have hlen : (front ++ enc).length = 104 := by
    rw [List.length_append]
    omega
  rw [hplain]
  refine ⟨front ++ enc, hlen, hencrypt, fun body => ?_⟩
  have hversion : (index (front ++ enc ++ body) 0 : Exec IoError Byte) = .ok 1 := by
    rw [← hfront]
    rfl
  have hcut : (slice (front ++ enc ++ body) 0 104 : Exec IoError (List Byte)) =
      .ok (front ++ enc) :=
    slice_front body hlen
  have hread : (slice (front ++ fields) 8 (front ++ fields).length : Exec IoError (List Byte)) =
      .ok fields :=
    slice_back fields hflen (by rw [List.length_append, hflen])
  -- The checksum stands in bytes 4 to 8, in front of the fields it is taken over.
  have hchecksum : (u32Le (front ++ fields) 4 : Exec IoError (BitVec 32)) =
      .ok (BitVec.ofNat 32 sum) := by
    refine u32Le_of_drop (r := fields) ?_
    rw [← hfront, List.append_assoc]
    rfl
  rw [Protected.decodeHeader, if_neg (by rw [List.length_append]; omega), hversion, ok_bind,
    if_neg (by decide), hcut, ok_bind, hdecrypt, ok_bind, hread, ok_bind, hchecksum, ok_bind,
    ← hsum, BitVec.ofNat_toNat, BitVec.setWidth_eq, if_neg (by simp)]
  rfl

/-! ## The body -/

/-- The tail of every cipher comes back, in front of what the padding left behind. -/
lemma tail_cancel (hE : E.Lawful z C) {cid : BitVec 16}
    (hcid : cid = 1 ∨ cid = 5 ∨ cid = 7 ∨ cid = 128 ∨ cid = 133) (params : Vector Byte 64)
    (name : List Byte) (outSize : BitVec 32) (outputHash : Vector Byte 16) (tail : List Byte) :
    ∃ enc junk, Generate.encryptTail C E cid params name outSize.toNat outputHash tail = .ok enc ∧
      enc.length = tail.length + junk.length ∧ junk.length ≤ 16 ∧
      (¬(cid = 5 ∨ cid = 7) → junk = []) ∧
      Protected.decryptTail C cid params (Protected.filenameHash C name)
        (Protected.seededFilenameHash C name outSize) outputHash enc (128 + tail.length) =
        .ok (tail ++ junk) := by
  obtain ⟨iv, hiv⟩ := subarray_vector params 49 57 (by decide) (by decide)
  have hname : Generate.xxh128Native C name = Protected.filenameHash C name := rfl
  have hsub : (sub (128 + tail.length) 128 : Exec IoError ℕ) = .ok tail.length := by
    rw [sub_eq (by omega), Nat.add_sub_cancel_left]
  by_cases h57 : cid = 5 ∨ cid = 7
  · obtain ⟨enc, junk, henc, hlen, hjunk, hdec⟩ := legacy_tail hE cid params
      (Protected.filenameHash C name) outputHash tail
    have hne : ∀ c : BitVec 16, c ≠ 5 → c ≠ 7 → cid ≠ c := by
      intro c h5 h7 h
      rcases h57 with h57 | h57
      · exact h5 (h.symm.trans h57)
      · exact h7 (h.symm.trans h57)
    refine ⟨enc, junk, ?_, hlen, hjunk, fun h => absurd h57 h, ?_⟩
    · rw [Generate.encryptTail, hiv, ok_bind, if_neg (hne 128 (by decide) (by decide)),
        if_neg (hne 133 (by decide) (by decide)), if_pos h57]
      exact henc
    · rw [Protected.decryptTail, if_neg (hne 1 (by decide) (by decide)), if_pos h57, hsub,
        ok_bind, hdec]
  · have hcid : cid = 1 ∨ cid = 128 ∨ cid = 133 := by
      rcases hcid with h | h | h | h | h
      · exact Or.inl h
      · exact absurd (Or.inl h) h57
      · exact absurd (Or.inr h) h57
      · exact Or.inr (Or.inl h)
      · exact Or.inr (Or.inr h)
    -- The other ciphers keep the length: nothing is left behind.
    suffices h : ∃ enc,
        Generate.encryptTail C E cid params name outSize.toNat outputHash tail = .ok enc ∧
          enc.length = tail.length ∧
          Protected.decryptTail C cid params (Protected.filenameHash C name)
            (Protected.seededFilenameHash C name outSize) outputHash enc (128 + tail.length) =
            .ok tail by
      obtain ⟨enc, henc, hlen, hdec⟩ := h
      exact ⟨enc, [], henc, hlen, by simp, fun _ => rfl, by rw [hdec, List.append_nil]⟩
    rcases hcid with rfl | rfl | rfl
    · obtain ⟨enc, henc, hlen, hdec⟩ := cham_tail (C := C) params name outSize outputHash tail
      refine ⟨enc, ?_, hlen, ?_⟩
      · rw [Generate.encryptTail, hiv, ok_bind]
        exact henc
      · rw [Protected.decryptTail, if_pos rfl, hdec, lift_ok]
    · obtain ⟨enc, henc, hlen, hdec⟩ := aes_tail hE params (Protected.filenameHash C name)
        outputHash tail (hiv Empty)
      refine ⟨enc, ?_, hlen, ?_⟩
      · rw [Generate.encryptTail, hiv, ok_bind, if_pos rfl, if_pos rfl, Generate.bodyMask_eq,
          hname]
        exact henc
      · rw [Protected.decryptTail, if_neg (by decide), if_neg (by decide), hdec, lift_ok]
    · obtain ⟨enc, henc, hlen, hdec⟩ := rc6_tail (C := C) params (Protected.filenameHash C name)
        outputHash tail (hiv Empty)
      refine ⟨enc, ?_, hlen, ?_⟩
      · have h128 : ¬(133 : BitVec 16) = 128 := by decide
        rw [Generate.encryptTail, hiv, ok_bind, if_neg h128, if_neg h128, if_pos rfl,
          Generate.bodyMask_eq, hname]
        exact henc
      · rw [Protected.decryptTail, if_neg (by decide), if_neg (by decide), hdec, lift_ok]

/-- A body with its 128 clear bytes goes through the script and back, at every length. -/
lemma body_cancel (hE : E.Lawful z C) {cid : BitVec 16}
    (hcid : cid = 1 ∨ cid = 5 ∨ cid = 7 ∨ cid = 128 ∨ cid = 133) (params : Vector Byte 64)
    (name : List Byte) (outSize : BitVec 32) (outputHash : Vector Byte 16) (packed : List Byte) :
    ∃ body b,
      (if packed.drop 128 = [] then pure packed
        else (do
          let encrypted ← Generate.encryptTail C E cid params name outSize.toNat outputHash
            (packed.drop 128)
          pure (packed.take 128 ++ encrypted)) : Exec Empty (List Byte)) = .ok body ∧
      packed.length ≤ body.length ∧ body.length ≤ packed.length + 16 ∧
      (¬(cid = 5 ∨ cid = 7) → body.length = packed.length) ∧
      (if 128 < packed.length then (do
          let tail ← slice body 128 body.length
          let tail ← Protected.decryptTail C cid params (Protected.filenameHash C name)
            (Protected.seededFilenameHash C name outSize) outputHash tail packed.length
          pure (splice body 128 tail))
        else pure body : Exec IoError (List Byte)) = .ok b ∧ b.take packed.length = packed := by
  by_cases hlong : 128 < packed.length
  · have hdrop : packed.drop 128 ≠ [] := by
      intro h
      have hlen := congrArg List.length h
      rw [List.length_drop, List.length_nil] at hlen
      omega
    obtain ⟨enc, junk, henc, hlen, hjunk, hnone, hdec⟩ := tail_cancel hE hcid params name outSize
      outputHash (packed.drop 128)
    have hclear : (packed.take 128).length = 128 := by
      rw [List.length_take]
      omega
    rw [List.length_drop] at hlen hdec
    have htotal : 128 + (packed.length - 128) = packed.length := by omega
    rw [htotal] at hdec
    have hslice : (slice (packed.take 128 ++ enc) 128 (packed.take 128 ++ enc).length :
        Exec IoError (List Byte)) = .ok enc :=
      slice_back enc hclear (by rw [List.length_append, hclear])
    have hcopy : splice (packed.take 128 ++ enc) 128 (packed.drop 128 ++ junk) =
        packed ++ junk := by
      have hback : enc.length = (packed.drop 128 ++ junk).length := by
        rw [List.length_append, List.length_drop, hlen]
      rw [splice_back hclear.symm hback, ← List.append_assoc, List.take_append_drop]
    refine ⟨packed.take 128 ++ enc, packed ++ junk, ?_, ?_, ?_, ?_, ?_, List.take_left⟩
    · rw [if_neg hdrop, henc]
      rfl
    · rw [List.length_append]
      omega
    · rw [List.length_append]
      omega
    · intro h
      rw [hnone h, List.length_nil] at hlen
      rw [List.length_append]
      omega
    · rw [if_pos hlong, hslice, ok_bind, hdec, ok_bind, hcopy]
      rfl
  · -- The body lies within the clear bytes.
    refine ⟨packed, packed, ?_, le_rfl, by omega, fun _ => rfl, ?_, List.take_length⟩
    · rw [if_pos (List.drop_eq_nil_of_le (by omega))]
      rfl
    · rw [if_neg hlong]
      rfl

/-- What was compressed expands to what it was. -/
lemma expandBody_compress (hE : E.Lawful z C) {comp : Byte} (hcomp : comp = 0 ∨ comp = 1 ∨ comp = 2)
    (out : List Byte) :
    Protected.expandBody z C comp (Generate.compress E comp out) out.length = .ok out := by
  rcases hcomp with rfl | rfl | rfl
  · rw [Protected.expandBody, if_pos rfl, Generate.compress, if_pos rfl, if_neg (by simp)]
  · obtain ⟨r, hz, hstatus, hout, hin, htake⟩ := hE.zlib out (out.length + 1) (by omega)
    rw [Protected.expandBody, if_neg (by decide), if_pos rfl, Generate.compress,
      if_neg (by decide), if_pos rfl, hz]
    simp only [hstatus, hout, hin, htake]
    rw [if_neg (by simp)]
  · obtain ⟨buffer, hlz4, hbuffer⟩ := hE.lz4 out
    rw [Protected.expandBody, if_neg (by decide), if_neg (by decide), if_pos rfl,
      Generate.compress, if_neg (by decide), if_neg (by decide), hlz4]
    simp only [hbuffer]
    rw [if_neg (by simp)]

/-! ## The entry -/

/-- Both sides mask the key material under the same flags. -/
lemma masked_eq {flags : Byte} (hflags : flags = 0 ∨ flags = 1) (x : Byte) :
    (if flags &&& 1 ≠ 0 then x else 0) = if flags = 1 then x else 0 := by
  rcases hflags with rfl | rfl
  · rfl
  · rfl

/-- What the decoder does behind a header it has decrypted. -/
lemma decodeEntry_eq (keys : ArchiveKeys) (payload nameHash seededNameHash : _)
    {o : Generate.EntryOptions} {padded size outSize : ℕ} {hash : Vector Byte 16}
    {param : Vector Byte 60} {body : List Byte}
    (hcid : o.cid = 1 ∨ o.cid = 5 ∨ o.cid = 7 ∨ o.cid = 128 ∨ o.cid = 133)
    (hcomp : o.comp = 0 ∨ o.comp = 1 ∨ o.comp = 2) (hflags : o.flags = 0 ∨ o.flags = 1)
    (hkey : o.kid = 0 ∨ keys.lookup o.kid = some param)
    (hheader : Protected.decodeHeader C payload nameHash = .ok (Generate.plainHeader C o.kind
      (Generate.headerFields o padded size outSize hash param)))
    (hpayload : payload.drop 104 = body) (hlen : payload.length = 104 + body.length)
    (hpadded : padded = body.length) (hfit : padded < 2 ^ 32) (hsize : size ≤ padded)
    (hout : outSize ≤ Protected.maxOutputSize) :
    Protected.decodeEntry z C payload nameHash seededNameHash (BitVec.ofNat 32 outSize) keys =
      (do
        let body ←
          if 128 < size then (do
            let tail ← slice body 128 body.length
            let tail ← Protected.decryptTail C o.cid
              ((Vector.ofFn fun i : Fin 60 =>
                param.get i ^^^ (if o.flags = 1 then hash.get (Fin.ofNat 16 i.val) else 0)) ++
                (Vector.replicate 4 0 : Vector Byte 4)) nameHash seededNameHash hash tail size
            pure (splice body 128 tail))
          else pure body
        let output ← Protected.expandBody z C o.comp (body.take size) outSize
        if Protected.filenameHash C output ≠ hash then
          fail (invalidData "Protected GRF output hash mismatch")
        else return output) := by
  have hHlen : (Generate.plainHeader C o.kind
      (Generate.headerFields o padded size outSize hash param)).length = 104 :=
    Generate.length_plainHeader o.kind (Generate.length_headerFields ..)
  obtain ⟨d8, d24⟩ := Generate.plainHeader_drop (C := C) o.kind o padded size outSize hash param
  generalize Generate.plainHeader C o.kind
    (Generate.headerFields o padded size outSize hash param) = header at hheader hHlen d8 d24
  -- A cursor walks over the fields.
  have d10 := drop_of_drop_eq (q := 10) d8 (by rw [length_leBytes])
  have d11 := drop_of_drop_eq (l := [o.comp]) (q := 11) d10 rfl
  have d12 := drop_of_drop_eq (q := 12) d10 rfl
  have d16 := drop_of_drop_eq (q := 16) d12 (by rw [length_leBytes])
  have d20 := drop_of_drop_eq (q := 20) d16 (by rw [length_leBytes])
  have d40 := drop_of_drop_eq (q := 40) d24 (by rw [Vector.length_toList])
  have d44 := drop_of_drop_eq (q := 44) d40 (by rw [length_leBytes])
  have hword : ∀ n : ℕ, n < 2 ^ 32 → (BitVec.ofNat 32 n).toNat = n := by
    intro n hn
    rw [BitVec.toNat_ofNat]
    exact Nat.mod_eq_of_lt hn
  have hmax : Protected.maxOutputSize = 268435456 := rfl
  have hid : BitVec.ofNat 16 (leNat (leBytes 2 o.cid.toNat)) = o.cid := by
    rw [leNat_leBytes (by simpa using o.cid.isLt), BitVec.ofNat_toNat, BitVec.setWidth_eq]
  have hkid : BitVec.ofNat 32 o.kid.toNat = o.kid := by
    rw [BitVec.ofNat_toNat, BitVec.setWidth_eq]
  have hknown : ¬(o.cid ≠ 1 ∧ o.cid ≠ 5 ∧ o.cid ≠ 7 ∧ o.cid ≠ 128 ∧ o.cid ≠ 133) := by
    rintro ⟨h1, h5, h7, h128, h133⟩
    rcases hcid with h | h | h | h | h
    · exact h1 h
    · exact h5 h
    · exact h7 h
    · exact h128 h
    · exact h133 h
  have hcomp' : ¬2 < o.comp.toNat := by
    rcases hcomp with h | h | h
    · rw [h]; decide
    · rw [h]; decide
    · rw [h]; decide
  have hflags' : ¬o.flags &&& ~~~1 ≠ 0 := by
    rcases hflags with h | h
    · rw [h]; decide
    · rw [h]; decide
  have hmaterial : Protected.keyMaterial header o.kid keys = .ok param := by
    unfold Protected.keyMaterial
    by_cases h0 : o.kid = 0
    · rw [if_pos h0]
      have hdrop : header.drop 44 = param.toList ++ [] := by rw [d44, List.append_nil]
      exact subarray_of_drop (a := 44) (b := 104) param hdrop (by decide) (by omega)
    · rcases hkey with h | h
      · exact absurd h h0
      · rw [if_neg h0, h]
  have hhash : (subarray header 24 40 : Exec IoError (Vector Byte 16)) = .ok hash :=
    subarray_of_drop (a := 24) (b := 40) hash d24 (by decide) (by omega)
  have hbody : (slice payload 104 (104 + padded) : Exec IoError (List Byte)) = .ok body :=
    slice_of_drop (r := []) (by rw [List.append_nil]; exact hpayload) (by rw [hpadded])
      (by omega)
  rw [Protected.decodeEntry, hheader, ok_bind, u32Le_of_drop d12, ok_bind, u32Le_of_drop d16,
    ok_bind, u32Le_of_drop d20, ok_bind]
  simp only [hword padded hfit, hword size (by omega), hword outSize (by omega)]
  rw [if_neg (by simp; omega), sub_eq (by omega), ok_bind, if_neg (by omega),
    slice_of_drop d8 (by rw [length_leBytes]) (by omega), ok_bind, hid, if_neg hknown,
    index_of_drop d10, ok_bind, index_of_drop d11, ok_bind, if_neg hcomp', if_neg hflags',
    u32Le_of_drop d40, ok_bind, hkid, hmaterial, ok_bind, hhash, ok_bind,
    add_eq (by omega), ok_bind, hbody, ok_bind]
  simp only [masked_eq hflags]
  rfl

/-- The length field of the padded body is written over the old one. -/
lemma patch_padded (o : Generate.EntryOptions) (checksum : List Byte) (hc : checksum.length = 4)
    (old new size outSize : ℕ) (hash : Vector Byte 16) (param : Vector Byte 60) :
    splice ([1, o.kind, 0, 0] ++
      (checksum ++ Generate.headerFields o old size outSize hash param)) 12 (leBytes 4 new) =
      [1, o.kind, 0, 0] ++ (checksum ++ Generate.headerFields o new size outSize hash param) := by
  generalize hrest : leBytes 4 size ++ (leBytes 4 outSize ++ (hash.toList ++
    (leBytes 4 o.kid.toNat ++ param.toList))) = rest
  have hcut : ∀ padded, [1, o.kind, 0, 0] ++
      (checksum ++ Generate.headerFields o padded size outSize hash param) =
      ([1, o.kind, 0, 0] ++ checksum ++ leBytes 2 o.cid.toNat ++ [o.comp, o.flags]) ++
        (leBytes 4 padded ++ rest) := by
    intro padded
    rw [Generate.headerFields, hrest]
    simp only [List.append_assoc]
  rw [hcut, hcut, splice_append (by simp [hc]) (by simp)]

/-- The script returns the encrypted header and the body, when the lengths fit their fields. -/
lemma makeEntry_eq (name : List Byte) (param : Vector Byte 60) {out body : List Byte}
    {o : Generate.EntryOptions} (hedits : o.edits = []) (hoverride : o.packedOverride = none)
    (hout : out.length < 2 ^ 32) (hpacked : (Generate.compress E o.comp out).length < 2 ^ 32)
    (hbody : (if (Generate.compress E o.comp out).drop 128 = [] then
        pure (Generate.compress E o.comp out)
      else (do
        let encrypted ← Generate.encryptTail C E o.cid
          ((Vector.ofFn fun i : Fin 60 =>
            param.get i ^^^ (if o.flags = 1 then
              (Generate.xxh128Native C out).get (Fin.ofNat 16 i.val) else 0)) ++
            (Vector.replicate 4 0 : Vector Byte 4)) name out.length (Generate.xxh128Native C out)
          ((Generate.compress E o.comp out).drop 128)
        pure ((Generate.compress E o.comp out).take 128 ++ encrypted)) : Exec Empty (List Byte)) =
      .ok body)
    (hsame : ¬(o.cid = 5 ∨ o.cid = 7) → body.length = (Generate.compress E o.comp out).length) :
    Generate.makeEntry C E name param out o =
      (Generate.packWord body.length >>= fun _ =>
        Generate.headerEncrypt C E (Generate.plainHeader C o.kind
          (Generate.headerFields o body.length (Generate.compress E o.comp out).length out.length
            (Generate.xxh128Native C out) param)) name >>= fun header => .ok (header ++ body)) := by
  generalize hhash : Generate.xxh128Native C out = hash at hbody
  generalize hpack : Generate.compress E o.comp out = packed at hpacked hbody hsame
  have hread : ∀ fields : List Byte, fields.length = 96 →
      Generate.writeChecksum C (Generate.plainHeader C o.kind fields) =
        Generate.plainHeader C o.kind fields := by
    intro fields hlen
    exact Generate.writeChecksum_eq o.kind _ (length_leBytes ..) hlen
  -- The padded length is patched in afterwards, and the checksum written once more.
  have hpatch : ∀ padded, Generate.writeChecksum C (splice (Generate.plainHeader C o.kind
      (Generate.headerFields o packed.length packed.length out.length hash param)) 12
        (leBytes 4 padded)) =
      Generate.plainHeader C o.kind
        (Generate.headerFields o padded packed.length out.length hash param) := by
    intro padded
    rw [Generate.plainHeader, patch_padded o _ (length_leBytes ..)]
    exact Generate.writeChecksum_eq o.kind _ (length_leBytes ..) (Generate.length_headerFields ..)
  have hmake := Generate.makeHeader_eq (C := C) param packed hedits hpacked hout
  rw [hhash] at hmake
  have hcut : (subarray (Generate.plainHeader C o.kind
      (Generate.headerFields o packed.length packed.length out.length hash param)) 24 40 :
        Exec Empty (Vector Byte 16)) = .ok hash := by
    refine subarray_of_drop (a := 24) (b := 40) hash
      (Generate.plainHeader_drop o.kind o _ _ _ hash param).2 (by decide) ?_
    rw [Generate.length_plainHeader o.kind (Generate.length_headerFields ..)]
    decide
  rw [Generate.makeEntry, hoverride, Option.getD_none, hpack]
  simp only [hmake, ok_bind, hcut]
  rw [ite_bind_eq hbody]
  -- Only the padded ciphers change the length.
  by_cases h57 : o.cid = 5 ∨ o.cid = 7
  · rw [if_pos h57]
    by_cases hfit : body.length < 2 ^ 32
    · rw [Generate.packWord_eq hfit]
      simp only [ok_bind, pure_bind, hpatch]
      rfl
    · rw [Generate.packWord, if_neg hfit]
      rfl
  · rw [if_neg h57, hsame h57, Generate.packWord_eq hpacked]
    simp only [ok_bind, pure_bind, hread _ (Generate.length_headerFields ..)]
    rfl

/-- What the script can be asked for and the decoder knows: a header type, a cipher, a
compression and flags of the format, nothing overridden, and key material that the decoder
finds in the header or among the keys of the archive. -/
structure Generate.EntryOptions.Known (o : Generate.EntryOptions) (param : Vector Byte 60)
    (keys : ArchiveKeys) : Prop where
  kind : o.kind = 1 ∨ o.kind = 2 ∨ o.kind = 15 ∨ o.kind = 0x71
  cid : o.cid = 1 ∨ o.cid = 5 ∨ o.cid = 7 ∨ o.cid = 128 ∨ o.cid = 133
  comp : o.comp = 0 ∨ o.comp = 1 ∨ o.comp = 2
  flags : o.flags = 0 ∨ o.flags = 1
  key : o.kid = 0 ∨ keys.lookup o.kid = some param
  edits : o.edits = []
  packedOverride : o.packedOverride = none

/-- The payload the script returns decodes, and it returns one when the lengths fit. -/
lemma makeEntry_decodes (hE : E.Lawful z C) (name : List Byte) {param : Vector Byte 60}
    {out : List Byte} {keys : ArchiveKeys} {o : Generate.EntryOptions} (ho : o.Known param keys)
    (hout : out.length ≤ Protected.maxOutputSize)
    (hpacked : (Generate.compress E o.comp out).length < 2 ^ 32) :
    ∃ body payload : List Byte, body.length ≤ (Generate.compress E o.comp out).length + 16 ∧
      Generate.makeEntry C E name param out o =
        (Generate.packWord body.length >>= fun _ => .ok payload) ∧
      (body.length < 2 ^ 32 → Protected.decodeEntry z C payload (Protected.filenameHash C name)
        (Protected.seededFilenameHash C name (BitVec.ofNat 32 out.length))
        (BitVec.ofNat 32 out.length) keys = .ok out) := by
  have hmax : Protected.maxOutputSize = 268435456 := rfl
  have hsize : (BitVec.ofNat 32 out.length).toNat = out.length := by
    rw [BitVec.toNat_ofNat]
    exact Nat.mod_eq_of_lt (by omega)
  obtain ⟨body, b, hbody, hle, hpad, hsame, hdec, htake⟩ := body_cancel hE ho.cid
    ((Vector.ofFn fun i : Fin 60 =>
      param.get i ^^^ (if o.flags = 1 then
        (Generate.xxh128Native C out).get (Fin.ofNat 16 i.val) else 0)) ++
      (Vector.replicate 4 0 : Vector Byte 4)) name (BitVec.ofNat 32 out.length)
    (Generate.xxh128Native C out) (Generate.compress E o.comp out)
  rw [hsize] at hbody
  obtain ⟨header, hlen, hencrypt, hheader⟩ := decodeHeader_ok hE name ho.kind
    (Generate.length_headerFields o body.length (Generate.compress E o.comp out).length out.length
      (Generate.xxh128Native C out) param)
  refine ⟨body, header ++ body, hpad, ?_, fun hfit => ?_⟩
  · rw [makeEntry_eq name param ho.edits ho.packedOverride (by omega) hpacked hbody hsame,
      hencrypt]
    rfl
  · rw [decodeEntry_eq keys (header ++ body) _ _ ho.cid ho.comp ho.flags ho.key (hheader body)
      (List.drop_left' hlen) (by rw [List.length_append, hlen]) rfl hfit hle hout,
      ite_bind_eq hdec]
    simp only [htake, expandBody_compress hE ho.comp, ok_bind]
    have hhash : Protected.filenameHash C out = Generate.xxh128Native C out := rfl
    rw [hhash, if_neg (by simp)]
    rfl

/-- **Protected entries decode back to what was encoded**: whatever payload the script builds
from an output of at most 256 MiB, the decoder returns exactly that output.  The script
builds one whenever the packed length fits its header field. -/
theorem encoded_entries_decode (hE : E.Lawful z C) (name : List Byte) {param : Vector Byte 60}
    {out : List Byte} {keys : ArchiveKeys} {o : Generate.EntryOptions} (ho : o.Known param keys)
    (hout : out.length ≤ Protected.maxOutputSize) :
    (∀ payload, Generate.makeEntry C E name param out o = .ok payload →
      Protected.decodeEntry z C payload (Protected.filenameHash C name)
        (Protected.seededFilenameHash C name (BitVec.ofNat 32 out.length))
        (BitVec.ofNat 32 out.length) keys = .ok out) ∧
    ((Generate.compress E o.comp out).length + 16 < 2 ^ 32 →
      ∃ payload, Generate.makeEntry C E name param out o = .ok payload) := by
  constructor
  · intro payload hmake
    have hpacked : (Generate.compress E o.comp out).length < 2 ^ 32 := by
      by_contra hlong
      -- `struct.pack` raises an exception.
      rw [Generate.makeEntry, ho.packedOverride, Option.getD_none, Generate.makeHeader,
        Generate.packWord, if_neg hlong] at hmake
      exact absurd hmake (by simp [crash, bind, Except.bind])
    obtain ⟨body, payload', hpad, hbuild, hdec⟩ := makeEntry_decodes hE name ho hout hpacked
    rw [hbuild] at hmake
    obtain ⟨size, hpack, hmake⟩ := bind_eq_ok.mp hmake
    rw [← Except.ok.inj hmake]
    apply hdec
    by_contra hlong
    rw [Generate.packWord, if_neg hlong] at hpack
    exact absurd hpack (by simp [crash])
  · intro hfit
    obtain ⟨body, payload, hpad, hbuild, -⟩ := makeEntry_decodes hE name ho hout (by omega)
    exact ⟨payload, by rw [hbuild, Generate.packWord_eq (by omega), ok_bind]⟩

/-! ## A fixture -/

/-- The name and the key material that the script encodes with. -/
def fixtureName : List Byte :=
  [100, 97, 116, 97, 92, 199, 209, 177, 219, 92, 112, 114, 111, 116, 101, 99, 116, 101, 100, 46,
  116, 120, 116]

def fixtureParam : Vector Byte 60 := Vector.ofFn fun i => BitVec.ofNat 8 (i.val * 31 + 7)

/-- A fixture of 143 bytes, so that its tail is a part of a block, and its payload. -/
def fixtureOutput : List Byte :=
  [2, 190, 3, 120, 134, 207, 170, 213, 58, 203, 108, 24, 147, 228, 12, 188, 89, 155, 96, 132, 140,
  24, 208, 202, 167, 15, 33, 76, 13, 220, 45, 194, 87, 134, 114, 238, 124, 165, 140, 148, 249,
  150, 196, 34, 190, 198, 151, 175, 113, 238, 169, 36, 190, 134, 112, 178, 74, 218, 94, 117, 245,
  232, 230, 38, 9, 193, 38, 219, 130, 171, 87, 238, 244, 168, 199, 9, 18, 42, 131, 39, 235, 42,
  151, 173, 37, 23, 173, 20, 50, 141, 26, 146, 4, 228, 39, 160, 1, 120, 180, 23, 11, 177, 65, 172,
  14, 233, 42, 180, 45, 147, 4, 174, 214, 149, 224, 48, 153, 249, 222, 220, 133, 181, 234, 108,
  61, 87, 246, 111, 91, 59, 194, 38, 94, 167, 108, 0, 159, 51, 17, 150, 199, 85, 243]

def fixturePayload : List Byte :=
  [1, 113, 0, 0, 222, 243, 138, 23, 43, 94, 145, 133, 192, 0, 251, 172, 166, 138, 121, 217, 218,
  34, 133, 69, 97, 124, 105, 45, 248, 65, 23, 173, 173, 162, 225, 79, 46, 127, 103, 92, 214, 32,
  87, 229, 33, 144, 112, 127, 225, 232, 66, 230, 108, 143, 243, 209, 195, 195, 18, 69, 161, 101,
  208, 143, 128, 58, 232, 49, 160, 51, 24, 20, 231, 201, 84, 246, 34, 237, 191, 124, 73, 219, 25,
  32, 58, 122, 234, 197, 83, 136, 147, 164, 94, 41, 209, 102, 79, 117, 194, 57, 60, 29, 188, 239,
  2, 190, 3, 120, 134, 207, 170, 213, 58, 203, 108, 24, 147, 228, 12, 188, 89, 155, 96, 132, 140,
  24, 208, 202, 167, 15, 33, 76, 13, 220, 45, 194, 87, 134, 114, 238, 124, 165, 140, 148, 249,
  150, 196, 34, 190, 198, 151, 175, 113, 238, 169, 36, 190, 134, 112, 178, 74, 218, 94, 117, 245,
  232, 230, 38, 9, 193, 38, 219, 130, 171, 87, 238, 244, 168, 199, 9, 18, 42, 131, 39, 235, 42,
  151, 173, 37, 23, 173, 20, 50, 141, 26, 146, 4, 228, 39, 160, 1, 120, 180, 23, 11, 177, 65, 172,
  14, 233, 42, 180, 45, 147, 4, 174, 214, 149, 224, 48, 153, 249, 222, 220, 133, 181, 234, 108,
  61, 87, 246, 111, 148, 247, 50, 186, 155, 74, 150, 236, 167, 13, 183, 23, 244, 150, 98]

/-- The hashes of the fixture; it asks for no block of AES and no compression. -/
def fixtureCrypto : Crypto where
  aesDecryptBlock := fun _ block => block
  sha256 := fun _ => Vector.replicate 32 0
  xxh32 := fun _ _ => 0x178af3de
  xxh3_128 := fun data =>
    if data = fixtureName then 0x1cd73dfac8ff1c5d6161175b0ebb4ce4
    else 0xd1138dea1b9f6c2fe278bc6c8bc2bccb
  xxh3_128WithSeed := fun _ _ => 0
  lz4DecompressInto := fun body room =>
    if h : body.length = room then .ok (⟨body.toArray, by simpa using h⟩, room)
    else .error "no stream"

def fixtureFlate : Flate where
  deflate := fun data => data
  decompress := fun input room =>
    if input.length < room then
      .ok ⟨.streamEnd, Vector.ofFn fun i => input.getD i.val 0, input.length, input.length⟩
    else .error "no stream"

def fixtureEncoders : Generate.Encoders where
  aesEncryptBlock := fun _ block => block
  zlibCompress := fun data => data
  lz4Compress := fun data => data

lemma fixture_lawful : fixtureEncoders.Lawful fixtureFlate fixtureCrypto where
  aes := fun _ _ => rfl
  zlib := by
    intro data room hroom
    refine ⟨⟨.streamEnd, Vector.ofFn fun i => data.getD i.val 0, data.length, data.length⟩,
      if_pos hroom, rfl, rfl, rfl, ?_⟩
    apply List.ext_getElem
    · simp
      omega
    · intro i hi hi'
      simp [hi']
  lz4 := by
    intro data
    refine ⟨⟨data.toArray, by simp⟩, dif_pos rfl, by simp⟩

/-- A header under 3-Way and a body under cipher 133. -/
def fixtureOptions : Generate.EntryOptions := { kind := 0x71, cid := 133 }

/-- The script writes the fixture, byte for byte. -/
lemma makeEntry_fixture : Generate.makeEntry fixtureCrypto fixtureEncoders fixtureName fixtureParam
    fixtureOutput fixtureOptions = .ok fixturePayload := by
  decide +kernel

/-- The fixture comes back, with its key material in the header. -/
theorem encoded_entries_decode_fixture :
    Protected.decodeEntry fixtureFlate fixtureCrypto fixturePayload
      (Protected.filenameHash fixtureCrypto fixtureName)
      (Protected.seededFilenameHash fixtureCrypto fixtureName
        (BitVec.ofNat 32 fixtureOutput.length)) (BitVec.ofNat 32 fixtureOutput.length) [] =
      .ok fixtureOutput :=
  (encoded_entries_decode fixture_lawful fixtureName
    ⟨by decide, by decide, by decide, by decide, Or.inl rfl, rfl, rfl⟩
    (by decide +kernel)).1 fixturePayload makeEntry_fixture

end Grf
end RemoteClient
