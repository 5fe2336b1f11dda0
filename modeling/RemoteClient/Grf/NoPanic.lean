/-
# No archive can crash the reader

Every call of the reader returns a value or an error, whatever bytes it is given: each index
and each slice is in range, no length subtraction goes below zero and no sum of offsets
passes 64 bits.  One lemma for each function; what a lemma says of the value returned is
what the next function's bounds rest on.  `reader_ends` is the result.
-/
import RemoteClient.Grf.DesInverse
import RemoteClient.Grf.Archive

namespace RemoteClient
namespace Grf

open Exec Bytes Blocks Ciphers

/-- No slice of the program is longer than this. -/
def maxSlice : ℕ := 2 ^ 63

/-! ## Words and sums -/

lemma ends_add {ε : Type} {a b : ℕ} {P : ℕ → Prop} (h : a + b < 2 ^ 64) (hP : P (a + b)) :
    Ends (add a b : Exec ε ℕ) P :=
  Ends.of_eq_ok (add_eq h) hP

lemma ends_sub {ε : Type} {a b : ℕ} {P : ℕ → Prop} (h : b ≤ a) (hP : P (a - b)) :
    Ends (sub a b : Exec ε ℕ) P :=
  Ends.of_eq_ok (sub_eq h) hP

lemma word_lt (w : BitVec 32) : w.toNat < 2 ^ 32 := w.isLt

/-- The two halves of a 64-bit offset add up within a word when the upper one is a 32-bit
word. -/
lemma shifted_lt (high low : BitVec 32) : high.toNat <<< 32 + low.toNat < 2 ^ 64 := by
  have hh := word_lt high
  have hl := word_lt low
  rw [Nat.shiftLeft_eq]
  omega

/-! ## The header -/

lemma ends_parse200 {bytes : List Byte} (h : 46 ≤ bytes.length) :
    Ends (parse200 bytes) fun r => r.1 < 2 ^ 33 := by
  unfold parse200
  rw [ends_bind]
  refine ends_u32Le (by omega) fun low => ?_
  have hlow := word_lt low
  rw [ends_bind]
  refine ends_add (by unfold headerSize; omega) ?_
  rw [ends_bind]
  refine ends_u32Le (by omega) fun reserved => ?_
  rw [ends_bind]
  refine ends_u32Le (by omega) fun total => ?_
  rw [ends_pure]
  unfold headerSize
  omega

/-- The header never panics, and the table offset it gives is far from overflowing. -/
lemma ends_parseHeader (bytes : List Byte) :
    Ends (parseHeader bytes) fun h => h.fileTableOffset < 2 ^ 41 := by
  unfold parseHeader
  split
  · exact ends_fail
  · next hlen =>
    unfold headerSize at hlen
    have h200 : ∀ v : BitVec 32, Ends (parse200 bytes >>= fun r => pure (⟨v, r.1, r.2⟩ : Header))
        fun h => h.fileTableOffset < 2 ^ 41 := by
      intro v
      rw [ends_bind]
      refine (ends_parse200 (by omega)).mono fun r hr => ?_
      rw [ends_pure]
      simp only
      omega
    rw [ends_bind]
    refine ends_slice (by omega) (by omega) fun field _ => ?_
    simp only
    split
    · exact ends_fail
    · rw [ends_bind]
      refine ends_u32Le (by omega) fun version => ?_
      split
      · exact h200 version
      · split
        · exact ends_fail
        · split
          · exact h200 version
          · rw [ends_bind]
            refine ends_u32Le (by omega) fun low => ?_
            rw [ends_bind]
            refine ends_u32Le (by omega) fun high => ?_
            split
            · exact h200 _
            · next hhigh =>
              -- The upper three bytes of the high word are zero here.
              have hlow := word_lt low
              have hhigh' : high.toNat < 256 := by
                have hzero := congrArg BitVec.toNat (not_not.mp hhigh)
                rw [BitVec.toNat_ushiftRight, Nat.shiftRight_eq_div_pow] at hzero
                simp only [BitVec.ofNat_eq_ofNat, BitVec.toNat_ofNat, Nat.zero_mod] at hzero
                omega
              have hsum : high.toNat <<< 32 + low.toNat < 2 ^ 40 := by
                rw [Nat.shiftLeft_eq]; omega
              rw [ends_bind]
              refine ends_add (shifted_lt high low) ?_
              rw [ends_bind]
              refine ends_add (by unfold headerSize; omega) ?_
              rw [ends_bind]
              refine ends_u32Le (by omega) fun count => ?_
              rw [ends_pure]
              unfold headerSize
              simp only
              omega

/-! ## The 0x200 and 0x300 table -/

lemma ends_nameEnd (data : List Byte) (p : ℕ) (hp : p ≤ data.length) :
    Ends (nameEnd data p) fun stop => p ≤ stop ∧ stop ≤ data.length := by
  induction p using nameEnd.induct data with
  | case1 p h ih =>
    unfold nameEnd
    rw [dif_pos h, ends_bind]
    refine ends_index h fun b => ?_
    split
    · exact (ih h).mono fun stop hstop => ⟨by omega, hstop.2⟩
    · exact ⟨le_rfl, hp⟩
  | case2 p h =>
    unfold nameEnd
    rw [dif_neg h]
    exact ⟨le_rfl, hp⟩

lemma ends_modernEntry {data : List Byte} {version : BitVec 32} {p : ℕ}
    (h : p + entryDataSize version ≤ data.length) :
    Ends (modernEntry data version p) fun _ => True := by
  unfold entryDataSize at h
  have hp : p + 17 ≤ data.length := by split at h <;> omega
  have hoffset : Ends (modernOffset data version (p + 13)) fun _ => True := by
    unfold modernOffset
    rw [ends_bind]
    refine ends_u32Le (by omega) fun low => ?_
    split
    · next hv =>
      rw [if_pos hv] at h
      rw [ends_bind]
      exact ends_u32Le (by omega) fun high => ends_add (shifted_lt high low) trivial
    · trivial
  unfold modernEntry
  rw [ends_bind]
  refine ends_u32Le (by omega) fun _ => ?_
  rw [ends_bind]
  refine ends_u32Le (by omega) fun _ => ?_
  rw [ends_bind]
  refine ends_u32Le (by omega) fun _ => ?_
  rw [ends_bind]
  refine ends_index (by omega) fun _ => ?_
  rw [ends_bind]
  exact hoffset.mono fun _ _ => trivial

/-- The ranges of a table walk are ranges of the table. -/
def RangesIn (data : List Byte) (entries : List (ByteRange × GrfEntry)) : Prop :=
  ∀ item ∈ entries, item.1.start ≤ item.1.stop ∧ item.1.stop ≤ data.length

lemma ends_modernEntries {data : List Byte} (hdata : data.length < maxSlice)
    (version : BitVec 32) (n i p : ℕ) :
    Ends (modernEntries data version n i p) (RangesIn data) := by
  induction n generalizing i p with
  | zero => exact fun item hitem => absurd hitem (by simp)
  | succ n ih =>
    unfold maxSlice at hdata
    unfold modernEntries
    split
    · exact ends_fail
    · next hp =>
      rw [ends_bind]
      refine (ends_nameEnd data p (by omega)).mono fun stop hstop => ?_
      rw [ends_bind]
      refine ends_add (by omega) ?_
      rw [ends_bind]
      refine ends_add (by unfold entryDataSize; split <;> omega) ?_
      split
      · exact ends_fail
      · next hrest =>
        rw [ends_bind]
        refine (ends_modernEntry (by omega)).mono fun entry _ => ?_
        rw [ends_bind]
        refine (ih _ _).mono fun out hout => ?_
        rw [ends_pure]
        intro item hitem
        rcases List.mem_cons.mp hitem with rfl | hitem
        · exact hstop
        · exact hout item hitem

lemma ends_readModernTable {data : List Byte} (hdata : data.length < maxSlice) (fileCount : ℕ)
    (version : BitVec 32) : Ends (readModernTable data fileCount version) (RangesIn data) :=
  ends_modernEntries hdata version fileCount 0 0

/-! ## The 0x1xx table -/

lemma ends_desHeader (src : List Byte) (length : ℕ) :
    Ends (Des.decodeHeader src length) fun out => out.length = src.length := by
  obtain ⟨enc, henc, hlen, -⟩ := Des.decodeHeader_decodeHeader src length
  exact Ends.of_eq_ok henc hlen

lemma ends_desFull (src : List Byte) (length : ℕ) (entryLength : BitVec 32) :
    Ends (Des.decodeFull src length entryLength) fun out => out.length = src.length := by
  obtain ⟨out, hout, hlen⟩ := Des.decodeFull_ok src length entryLength
  exact Ends.of_eq_ok hout hlen

lemma ends_decodeFilename (buf : List Byte) (len off : ℕ) :
    Ends (decodeFilename buf len off) fun out => out.length = buf.length := by
  induction buf, off using decodeFilename.induct len with
  | case1 buf off h ih =>
    unfold decodeFilename
    rw [dif_pos h, ends_bind]
    refine ends_slice (by omega) h.2 fun block hblock => ?_
    rw [ends_bind]
    refine (ends_desHeader _ 8).mono fun out hout => ?_
    have hout' : out.length = 8 := by rw [hout, List.length_map, hblock]; omega
    refine (ih out).mono fun rest hrest => ?_
    rw [hrest]
    exact length_splice (by omega)
  | case2 buf off h =>
    unfold decodeFilename
    rw [dif_neg h]
    exact rfl

lemma rposition_lt {p : Byte → Bool} {l : List Byte} {k : ℕ} (h : rposition p l = some k) :
    k < l.length := by
  unfold rposition at h
  obtain ⟨j, hj, rfl⟩ := Option.map_eq_some_iff.mp h
  have hlt := (List.findIdx?_eq_some_iff_getElem.mp hj).1
  rw [List.length_reverse] at hlt
  omega

lemma ends_isFullEncrypt (name : List Byte) : Ends (isFullEncrypt name) fun _ => True := by
  unfold isFullEncrypt
  split
  · next dot hdot =>
    rw [ends_bind]
    exact ends_slice (rposition_lt hdot).le le_rfl fun _ _ => trivial
  · trivial

lemma ends_legacyKind {data : List Byte} {name : ByteRange} (kind : Byte)
    (compressedSize lengthAligned : ℤ) (hstart : name.start ≤ name.stop)
    (hstop : name.stop ≤ data.length) :
    Ends (legacyKind data name kind compressedSize lengthAligned) fun _ => True := by
  unfold legacyKind
  split
  · trivial
  · split
    · rw [ends_bind]
      refine ends_slice hstart hstop fun raw _ => ?_
      rw [ends_bind]
      exact (ends_isFullEncrypt raw).mono fun _ _ => trivial
    · trivial

lemma legacyNameEnd_mem (name : List Byte) (nameStart : ℕ) :
    nameStart ≤ legacyNameEnd name nameStart ∧
      legacyNameEnd name nameStart ≤ nameStart + name.length := by
  unfold legacyNameEnd
  split
  · next k hk =>
    have hlt := (List.findIdx?_eq_some_iff_getElem.mp hk).1
    omega
  · omega

/-- One entry of a 0x1xx table keeps the length of the table, and its name lies in it. -/
lemma ends_legacyEntry {data : List Byte} {i p : ℕ} (hdata : data.length < maxSlice)
    (hp : p ≤ data.length) :
    Ends (legacyEntry data i p) fun r =>
      r.1.length = data.length ∧ r.2.1.1.start ≤ r.2.1.1.stop ∧
        r.2.1.1.stop ≤ data.length ∧ r.2.2 ≤ data.length := by
  unfold maxSlice at hdata
  unfold legacyEntry
  rw [ends_bind]
  -- Each position is bounded by the tests before it: `hstart`, `hmeta`, `hstop` and `hname`.
  refine ends_add (by omega) ?_
  split
  · exact ends_fail
  · next hstart =>
    rw [ends_bind]
    refine ends_u32Le (by omega) fun blockLen => ?_
    have hblockLen := word_lt blockLen
    rw [ends_bind]
    refine ends_index (by omega) fun lenByte => ?_
    have hlenByte : lenByte.toNat < 256 := lenByte.isLt
    split
    · exact ends_fail
    · next metaPos hmeta =>
      have hsum : metaPos = p + 4 + blockLen.toNat := by
        obtain ⟨off, hoff, hmeta⟩ := Option.bind_eq_some_iff.mp hmeta
        rw [(checkedAdd_eq_some.mp hmeta).2, (checkedAdd_eq_some.mp hoff).2]
      rw [ends_bind]
      refine ends_add (by unfold legacyEntryDataSize; omega) ?_
      split
      · exact ends_fail
      · next hstop =>
        unfold legacyEntryDataSize at hstop
        rw [ends_bind]
        refine ends_add (by omega) ?_
        rw [ends_bind]
        refine ends_add (by omega) ?_
        split
        · exact ends_fail
        · next hname =>
          rw [ends_bind]
          refine ends_slice (by omega) (by omega) fun block hblock => ?_
          rw [ends_bind, ends_lift]
          refine (ends_decodeFilename block _ 0).mono fun decoded hdecoded => ?_
          -- The name is decoded in place, so the table keeps its length.
          have hlen : (splice data (p + 6) decoded).length = data.length :=
            length_splice (by omega)
          rw [ends_bind]
          refine ends_slice (by omega) (by omega) fun name hnameLen => ?_
          obtain ⟨hend1, hend2⟩ := legacyNameEnd_mem name (p + 6)
          rw [ends_bind]
          refine ends_u32Le (by omega) fun realSize => ?_
          rw [ends_bind]
          refine ends_u32Le (by omega) fun packed => ?_
          rw [ends_bind]
          refine ends_u32Le (by omega) fun aligned => ?_
          rw [ends_bind]
          refine ends_index (by omega) fun kind => ?_
          rw [ends_bind]
          refine (ends_legacyKind kind _ _ hend1 (by simp only; omega)).mono fun kind _ => ?_
          rw [ends_bind]
          refine ends_u32Le (by omega) fun offset => ?_
          rw [ends_pure]
          unfold legacyEntryDataSize
          exact ⟨hlen, hend1, by simp only; omega, by simp only; omega⟩

lemma ends_legacyEntries {n i p : ℕ} {data : List Byte} (hdata : data.length < maxSlice)
    (hp : p ≤ data.length) :
    Ends (legacyEntries n i p data) fun r =>
      r.1.length = data.length ∧ RangesIn data r.2 := by
  induction n generalizing i p data with
  | zero => exact ⟨rfl, fun item hitem => absurd hitem (by simp)⟩
  | succ n ih =>
    unfold legacyEntries
    rw [ends_bind]
    refine (ends_legacyEntry hdata hp).mono ?_
    rintro ⟨data', entry, p'⟩ ⟨hlen, hstart, hstop, hp'⟩
    simp only at hlen hstart hstop hp'
    rw [ends_bind]
    refine (ih (by omega) (by omega)).mono ?_
    rintro ⟨data'', out⟩ ⟨hlen', hout⟩
    refine ⟨by simp only at hlen' ⊢; omega, ?_⟩
    intro item hitem
    rcases List.mem_cons.mp hitem with rfl | hitem
    · exact ⟨hstart, hstop⟩
    · rw [← hlen]; exact hout item hitem

lemma ends_readLegacyTable {data : List Byte} (hdata : data.length < maxSlice)
    (fileCount : ℕ) :
    Ends (readLegacyTable data fileCount) fun r =>
      r.1.length = data.length ∧ RangesIn data r.2 :=
  ends_legacyEntries hdata (Nat.zero_le _)

/-! ## The ciphers -/

variable (T : TextLib) (z : Flate) (C : Crypto)

/-- Whole chunks of a list fit in it. -/
lemma chunks_le (n w : ℕ) : n / w * w ≤ n := Nat.div_mul_le_self n w

lemma ends_cbcDecrypt (decrypt : Vector Byte 16 → Vector Byte 16) (data : List Byte)
    (iv : Vector Byte 16) :
    Ends (cbcDecrypt decrypt data iv) fun out => out.length = data.length := by
  unfold cbcDecrypt
  rw [ends_bind]
  exact ends_mapChunks _ _ _ (chunks_le _ _)

lemma ends_threewayCfbDecrypt (data : List Byte) (key iv : Vector Byte 12) :
    Ends (threewayCfbDecrypt data key iv) fun out => out.length = data.length := by
  unfold threewayCfbDecrypt
  rw [ends_bind]
  exact ends_mapChunks _ _ _ (chunks_le _ _)

lemma ends_decryptBodyTail (cipherId : BitVec 16) (parameters : Vector Byte 64)
    (filenameHash outputHash : Vector Byte 16) (tail : List Byte) :
    Ends (decryptBodyTail C cipherId parameters filenameHash outputHash tail)
      fun out => out.length = tail.length := by
  have hparams : parameters.toList.length = 64 := parameters.length_toList
  unfold decryptBodyTail
  rw [ends_bind]
  refine ends_subarray (by omega) (by omega) fun maskIv => ?_
  simp only
  split
  -- The two ranges of cipher 128 go through the same steps.
  · have hrange : ∀ start size : ℕ, start + size ≤ tail.length → Ends (do
        let key : Vector Byte 16 ← subarray parameters.toList 44 60
        let iv : Vector Byte 16 ← subarray parameters.toList 28 44
        let block ← slice tail start (start + size)
        let block ← aesCbcDecrypt C block key iv
        return xorMask (ideaMask outputHash filenameHash maskIv) (splice tail start block))
        fun out => out.length = tail.length := by
      intro start size hsize
      rw [ends_bind]
      refine ends_subarray (by omega) (by omega) fun key => ?_
      rw [ends_bind]
      refine ends_subarray (by omega) (by omega) fun iv => ?_
      rw [ends_bind]
      refine ends_slice (by omega) hsize fun block hblock => ?_
      rw [ends_bind]
      refine (ends_cbcDecrypt _ block iv).mono fun out hout => ?_
      rw [ends_pure, length_xorMask, length_splice (by omega)]
    split
    · exact hrange 0 _ (by have := chunks_le tail.length 16; omega)
    · exact hrange 2048 1024 (by omega)
  · rw [ends_bind]
    refine ends_subarray (by omega) (by omega) fun key => ?_
    rw [ends_bind]
    refine ends_subarray (by omega) (by omega) fun previous => ?_
    rw [ends_bind]
    have hsize := chunks_le tail.length 16
    refine ends_slice (by omega) (by omega) fun block hblock => ?_
    rw [ends_bind]
    refine (ends_mapChunks _ _ _ (chunks_le _ _)).mono fun out hout => ?_
    rw [ends_pure, length_xorMask, length_splice (by omega)]

lemma ends_legacyMaterial (cipherId : BitVec 16) (parameters : Vector Byte 64)
    (filenameHash outputHash : Vector Byte 16) :
    Ends (legacyMaterial cipherId parameters filenameHash outputHash) fun _ => True := by
  have hparams : parameters.toList.length = 64 := parameters.length_toList
  unfold legacyMaterial
  split
  all_goals
    rw [ends_bind]
    refine ends_subarray (by omega) (by omega) fun key => ?_
    rw [ends_bind]
    refine ends_subarray (by omega) (by omega) fun iv => ?_
    rw [ends_bind]
    exact ends_subarray (by omega) (by omega) fun maskIv => trivial

/-- The suffix behind a padded prefix fits behind what the prefix carries. -/
lemma ends_removePadding (mask : Vector Byte 16) (length encryptedLength compressedLength : ℕ)
    (tail : List Byte) (henc : encryptedLength ≤ tail.length)
    (hlength : length ≤ encryptedLength) (hle : length ≤ compressedLength)
    (hsuffix : tail.length - encryptedLength = compressedLength - length)
    (hpad : encryptedLength ≤ length + 16) (hsixteen : 16 ≤ encryptedLength) :
    Ends (removePadding mask length encryptedLength compressedLength tail)
      fun out => out.length = tail.length := by
  unfold removePadding
  rw [ends_bind]
  refine ends_sub (by omega) ?_
  rw [ends_bind]
  -- The last byte of the prefix counts the padding.
  refine ends_index (by omega) fun lastByte => ?_
  simp only
  split
  · exact ends_fail
  · next hpadding =>
    rw [ends_bind]
    refine ends_sub (by omega) ?_
    split
    · exact ends_fail
    · rw [ends_bind]
      refine ends_slice (by omega) (by omega) fun pad _ => ?_
      split
      · exact ends_fail
      · rw [ends_bind]
        refine ends_slice (by omega) (by omega) fun moved hmoved => ?_
        rw [ends_bind]
        refine ends_sub (by omega) ?_
        split
        -- `copy_within` has room: the suffix is what `hsuffix` says.
        · omega
        · have hlen : (splice tail length moved).length = tail.length :=
            length_splice (by omega)
          rw [ends_bind]
          refine ends_slice hle (by omega) fun rest hrest => ?_
          rw [ends_pure, length_splice (by rw [length_xorMask]; omega), hlen]

lemma ends_decryptLegacyTail (cipherId : BitVec 16) (parameters : Vector Byte 64)
    (filenameHash outputHash : Vector Byte 16) (tail : List Byte) (compressedLength : ℕ) :
    Ends (decryptLegacyTail C cipherId parameters filenameHash outputHash tail compressedLength)
      fun out => out.length = tail.length := by
  unfold decryptLegacyTail
  simp only
  split
  · exact ends_fail
  · next htail =>
    rw [ends_bind]
    refine ends_sub (by omega) ?_
    rw [ends_bind]
    refine ends_sub (by omega) ?_
    split
    · exact ends_fail
    · next hleft =>
      rw [ends_bind]
      refine (ends_legacyMaterial cipherId parameters filenameHash outputHash).mono ?_
      rintro ⟨key, iv, mask⟩ -
      rw [ends_bind]
      refine ends_slice (by omega) (by omega) fun block hblock => ?_
      rw [ends_bind, ends_lift]
      refine (ends_cbcDecrypt _ block iv).mono fun out hout => ?_
      have hlen : (splice tail 0 out).length = tail.length := length_splice (by omega)
      have hends := ends_removePadding mask (min compressedLength 1024)
        ((min compressedLength 1024 / 16 + 1) * 16) compressedLength (splice tail 0 out)
        (by omega) (by omega) (by omega) (by omega) (by omega) (by omega)
      rwa [hlen] at hends

lemma ends_decryptChamTail (parameters : Vector Byte 64)
    (seededNameHash outputHash : Vector Byte 16) (tail : List Byte) :
    Ends (decryptChamTail C parameters seededNameHash outputHash tail)
      fun out => out.length = tail.length := by
  have hparams : parameters.toList.length = 64 := parameters.length_toList
  have hseeded : seededNameHash.toList.length = 16 := seededNameHash.length_toList
  have hfull := chunks_le tail.length 16
  unfold decryptChamTail
  rw [ends_bind]
  refine ends_subarray (by omega) (by omega) fun high => ?_
  rw [ends_bind]
  refine ends_slice (by omega) (by omega) fun material _ => ?_
  rw [ends_bind]
  refine ends_slice (by omega) (by omega) fun block hblock => ?_
  rw [ends_bind]
  refine (ends_cbcDecrypt _ block outputHash).mono fun out hout => ?_
  have hlen : (splice tail 0 out).length = tail.length := length_splice (by omega)
  rw [ends_bind]
  refine ends_slice (by omega) (by omega) fun full hfullLen => ?_
  rw [ends_bind]
  refine (ends_mapChunks _ _ _ (chunks_le _ _)).mono ?_
  rintro ⟨full', previous⟩ hfull'
  simp only at hfull' ⊢
  have hlen' : (splice (splice tail 0 out) 0 full').length = tail.length := by
    rw [length_splice (by omega), hlen]
  rw [ends_bind]
  -- What lies behind the last full block is shorter than the hashes it is masked with.
  refine ends_slice (by omega) le_rfl fun rest hrest => ?_
  rw [ends_bind]
  refine (ends_mapM ?_).mono fun rest' hrest' => ?_
  · rintro ⟨value, i⟩ hmem
    obtain ⟨-, hi, -⟩ := List.mem_zipIdx hmem
    rw [ends_bind]
    refine ends_index (by omega) fun name => ?_
    rw [ends_bind]
    refine ends_index ?_ fun chained => trivial
    rw [Vector.length_toList]
    omega
  · rw [ends_pure, length_splice, hlen']
    rw [hrest', List.length_zipIdx]
    omega

/-! ## Protected entries -/

lemma ends_addRecords (n : ℕ) {l : List Byte} (h : n * 64 ≤ l.length) (keys : ArchiveKeys) :
    Ends (Protected.addRecords n l keys) fun _ => True := by
  induction n generalizing l keys with
  | zero => trivial
  | succ n ih =>
    rw [Nat.succ_mul] at h
    have hrecord : (l.take 64).length = 64 := by rw [List.length_take]; omega
    unfold Protected.addRecords
    simp only
    rw [ends_bind]
    refine ends_u32Le (by omega) fun id => ?_
    split
    · exact ends_fail
    · rw [ends_bind]
      refine ends_subarray (by omega) (by omega) fun key => ?_
      exact ih (by rw [List.length_drop]; omega) _

/-- A key block of any length and content is decoded or refused. -/
lemma ends_decodeArchiveKeys (raw : List Byte) :
    Ends (Protected.decodeArchiveKeys C raw) fun _ => True := by
  have hdigest : (C.sha256 Protected.keyBlockSecret).toList.length = 32 := Vector.length_toList
  unfold Protected.decodeArchiveKeys
  split
  · trivial
  · split
    · exact ends_fail
    · rw [ends_bind]
      refine ends_slice (by omega) (by omega) fun version _ => ?_
      split
      · exact ends_fail
      · rw [ends_bind]
        refine ends_u32Le (by omega) fun bodySize => ?_
        rw [ends_bind]
        refine ends_sub (by omega) ?_
        split
        · exact ends_fail
        · rw [ends_bind]
          refine ends_slice (by omega) (by omega) fun body _ => ?_
          rw [ends_bind]
          refine ends_subarray (by omega) (by omega) fun key => ?_
          rw [ends_bind]
          refine ends_subarray (by omega) (by omega) fun iv => ?_
          rw [ends_bind, ends_lift]
          refine (ends_cbcDecrypt _ body iv).mono fun decoded _ => ?_
          rw [ends_bind]
          refine ends_u32Le (by omega) fun checksum => ?_
          split
          · exact ends_fail
          · exact ends_addRecords _ (chunks_le _ _) _

lemma ends_decryptHeader {header : List Byte} (h : header.length = 104)
    (nameHash : Vector Byte 16) :
    Ends (Protected.decryptHeader C header nameHash) fun out => out.length = 104 := by
  unfold Protected.decryptHeader
  rw [ends_bind]
  refine ends_index (by omega) fun kind => ?_
  rw [ends_bind]
  refine ends_slice (by omega) (by omega) fun body hbody => ?_
  split
  · rw [ends_bind]
    refine ends_slice (by omega) (by omega) fun salt _ => ?_
    rw [ends_bind, ends_lift]
    refine (ends_cbcDecrypt _ body _).mono fun out hout => ?_
    rw [ends_pure, length_splice (by omega), h]
  · split
    · rw [ends_bind, ends_lift]
      refine (ends_threewayCfbDecrypt body _ _).mono fun out hout => ?_
      rw [ends_pure, length_splice (by omega), h]
    · exact ends_fail

lemma ends_decodeHeader (payload : List Byte) (nameHash : Vector Byte 16) :
    Ends (Protected.decodeHeader C payload nameHash)
      fun header => header.length = 104 ∧ 104 ≤ payload.length := by
  unfold Protected.decodeHeader
  split
  · exact ends_fail
  · next hlen =>
    rw [ends_bind]
    refine ends_index (by omega) fun version => ?_
    split
    · exact ends_fail
    · rw [ends_bind]
      refine ends_slice (by omega) (by omega) fun header hheader => ?_
      rw [ends_bind]
      refine (ends_decryptHeader C (by omega) nameHash).mono fun header hheader => ?_
      rw [ends_bind]
      refine ends_slice (by omega) (by omega) fun body _ => ?_
      rw [ends_bind]
      refine ends_u32Le (by omega) fun checksum => ?_
      split
      · exact ends_fail
      · exact ⟨hheader, by omega⟩

lemma ends_decryptTail (cipherId : BitVec 16) (parameters : Vector Byte 64)
    (nameHash seededNameHash outputHash : Vector Byte 16) (tail : List Byte)
    {compressedSize : ℕ} (h : 128 < compressedSize) :
    Ends (Protected.decryptTail C cipherId parameters nameHash seededNameHash outputHash tail
      compressedSize) fun out => out.length = tail.length := by
  unfold Protected.decryptTail
  split
  · rw [ends_lift]
    exact ends_decryptChamTail C _ _ _ _
  · split
    · rw [ends_bind]
      exact ends_sub h.le (ends_decryptLegacyTail C _ _ _ _ _ _)
    · rw [ends_lift]
      exact ends_decryptBodyTail C _ _ _ _ _

lemma ends_expandBody {compression : Byte} (h : compression.toNat ≤ 2) (body : List Byte)
    (expected : ℕ) : Ends (Protected.expandBody z C compression body expected)
      fun _ => True := by
  unfold Protected.expandBody
  split
  · split
    · exact ends_fail
    · trivial
  · split
    · split
      · exact ends_fail
      · split
        · exact ends_fail
        · trivial
    · split
      · split
        · exact ends_fail
        · split
          · exact ends_fail
          · trivial
      · next h0 h1 h2 => exact absurd h (by bv_omega)

lemma ends_keyMaterial {header : List Byte} (h : header.length = 104) (keyId : BitVec 32)
    (keys : ArchiveKeys) : Ends (Protected.keyMaterial header keyId keys) fun _ => True := by
  unfold Protected.keyMaterial
  split
  · exact ends_subarray (by omega) (by omega) fun _ => trivial
  · split
    · trivial
    · exact ends_fail

/-- A protected payload of any length and content is decoded or refused. -/
lemma ends_decodeEntry (payload : List Byte) (nameHash seededNameHash : Vector Byte 16)
    (realSize : BitVec 32) (keys : ArchiveKeys) :
    Ends (Protected.decodeEntry z C payload nameHash seededNameHash realSize keys)
      fun _ => True := by
  unfold Protected.decodeEntry
  rw [ends_bind]
  refine (ends_decodeHeader C payload nameHash).mono ?_
  rintro header ⟨hheader, hpayload⟩
  rw [ends_bind]
  refine ends_u32Le (by omega) fun paddedSize => ?_
  have hpadded := word_lt paddedSize
  simp only
  rw [ends_bind]
  refine ends_u32Le (by omega) fun compressedSize => ?_
  rw [ends_bind]
  refine ends_u32Le (by omega) fun outputSize => ?_
  split
  · exact ends_fail
  · rw [ends_bind]
    refine ends_sub hpayload ?_
    split
    · exact ends_fail
    · next hsizes =>
      -- The sizes were tested once, and `hsizes` bounds every slice from here on.
      rw [ends_bind]
      refine ends_slice (by omega) (by omega) fun idBytes _ => ?_
      split
      · exact ends_fail
      · rw [ends_bind]
        refine ends_index (by omega) fun compression => ?_
        rw [ends_bind]
        refine ends_index (by omega) fun flags => ?_
        split
        · exact ends_fail
        · next hcompression =>
          split
          · exact ends_fail
          · rw [ends_bind]
            refine ends_u32Le (by omega) fun keyId => ?_
            rw [ends_bind]
            refine (ends_keyMaterial hheader keyId keys).mono fun material _ => ?_
            rw [ends_bind]
            refine ends_subarray (by omega) (by omega) fun outputHash => ?_
            rw [ends_bind]
            refine ends_add (by omega) ?_
            rw [ends_bind]
            refine ends_slice (by omega) (by omega) fun body hbody => ?_
            -- Clear and encrypted bodies end with the same expansion and hash.
            have hrest : ∀ body : List Byte, Ends (do
                let output ← Protected.expandBody z C compression
                  (body.take compressedSize.toNat) outputSize.toNat
                if Protected.filenameHash C output ≠ outputHash then
                  fail (invalidData "Protected GRF output hash mismatch")
                else return output) fun _ => True := by
              intro body
              rw [ends_bind]
              refine (ends_expandBody z C (by omega) _ _).mono fun output _ => ?_
              split
              · exact ends_fail
              · trivial
            split
            · next hcompressed =>
              rw [ends_bind, ends_bind]
              refine ends_slice (by omega) le_rfl fun tail htail => ?_
              rw [ends_bind]
              refine (ends_decryptTail C _ _ _ _ _ tail hcompressed).mono fun out hout => ?_
              exact hrest _
            · exact hrest _

/-! ## Opening and reading -/

lemma ends_inflateExact (data : List Byte) (expected : ℕ) :
    Ends (inflateExact z data expected) fun out => out.length ≤ expected := by
  unfold inflateExact
  split
  · exact ends_fail
  · split
    · exact ends_fail
    · exact List.length_take_le _ _

/-- A table in the clear is at most as long as the reader allows. -/
lemma ends_readClearTable (file : List Byte) (tablePos : ℕ) :
    Ends (readClearTable file tablePos) fun t => t.data.length < maxSlice := by
  unfold readClearTable
  split
  · exact ends_fail
  · next hpos =>
    rw [ends_bind]
    refine ends_sub (by omega) ?_
    split
    · exact ends_fail
    · split
      · exact ends_fail
      · next hmax =>
        rw [ends_bind, ends_mapErr]
        refine ends_readAt fun data hdata => ?_
        rw [ends_pure]
        unfold maxFileTableBytes at hmax
        unfold maxSlice
        simp only
        omega

lemma ends_readPackedTable (file : List Byte) {tablePos : ℕ} (h : tablePos < 2 ^ 42) :
    Ends (readPackedTable z file tablePos) fun t => t.data.length < maxSlice := by
  unfold readPackedTable
  rw [ends_bind, ends_mapErr]
  refine ends_readAt fun tableHeader hlen => ?_
  unfold fileTableHeaderSize at hlen ⊢
  rw [ends_bind]
  refine ends_u32Le (by omega) fun compressedSize => ?_
  have hcompressed := word_lt compressedSize
  rw [ends_bind]
  refine ends_u32Le (by omega) fun realSize => ?_
  split
  · exact ends_fail
  · split
    · exact ends_fail
    · next hmax =>
      rw [ends_bind]
      -- A position below 2^42 leaves room for both sums.
      refine ends_add (by omega) ?_
      rw [ends_bind]
      refine ends_add (by omega) ?_
      split
      · exact ends_fail
      · rw [ends_bind, ends_mapErr]
        refine ends_readAt fun compressed _ => ?_
        rw [ends_bind, ends_mapErr]
        refine (ends_inflateExact z compressed _).mono fun data hdata => ?_
        rw [ends_pure]
        unfold maxFileTableBytes at hmax
        unfold maxSlice
        simp only
        omega

lemma ends_readRawTable (version : BitVec 32) (file : List Byte) {tablePos : ℕ}
    (h : tablePos < 2 ^ 42) :
    Ends (readRawTable z version file tablePos) fun t => t.data.length < maxSlice := by
  unfold readRawTable
  split
  · exact ends_readClearTable file tablePos
  · exact ends_readPackedTable z file h

lemma ends_readArchiveKeys (file : List Byte) {tablePos keyBlockLength : ℕ}
    (compressedSize : BitVec 32) (hpos : tablePos < 2 ^ 42) (hlen : keyBlockLength < 2 ^ 32) :
    Ends (readArchiveKeys C file tablePos compressedSize keyBlockLength) fun _ => True := by
  have hcompressed := word_lt compressedSize
  unfold readArchiveKeys fileTableHeaderSize
  split
  · trivial
  · rw [ends_bind]
    refine ends_add (by omega) ?_
    rw [ends_bind]
    refine ends_add (by omega) ?_
    rw [ends_bind]
    refine ends_add (by omega) ?_
    split
    · exact ends_fail
    · rw [ends_bind, ends_mapErr]
      refine ends_readAt fun raw _ => ?_
      rw [ends_mapErr]
      exact ends_decodeArchiveKeys C raw

lemma ends_keyBlockLengthOf (file : List Byte) (header : Header) :
    Ends (keyBlockLengthOf file header) fun n => n < 2 ^ 32 := by
  unfold keyBlockLengthOf
  split
  · rw [ends_bind, ends_mapErr]
    refine ends_readAt fun bytes hbytes => ?_
    rw [ends_bind]
    exact ends_u32Le (by omega) fun length => word_lt length
  · rw [ends_pure]
    omega

lemma ends_readTable {data : List Byte} (hdata : data.length < maxSlice) (version : BitVec 32)
    (fileCount : ℕ) :
    Ends (readTable version data fileCount) fun r => RangesIn r.1 r.2 := by
  unfold readTable
  split
  · refine (ends_readLegacyTable hdata fileCount).mono fun r hr => ?_
    intro item hitem
    rw [hr.1]
    exact hr.2 item hitem
  · rw [ends_bind]
    exact ends_readModernTable hdata fileCount version

lemma ends_sampleNames {data : List Byte} (n : ℕ) {entries : List (ByteRange × GrfEntry)}
    (h : RangesIn data entries) : Ends (sampleNames data n entries) fun _ => True := by
  induction entries generalizing n with
  | nil => cases n <;> trivial
  | cons item entries ih =>
    have htail : RangesIn data entries := fun item' h' => h item' (by simp [h'])
    obtain ⟨name, entry⟩ := item
    cases n with
    | zero => trivial
    | succ n =>
      obtain ⟨hstart, hstop⟩ := h (name, entry) (by simp)
      unfold sampleNames
      rw [ends_bind]
      refine ends_slice hstart hstop fun raw _ => ?_
      split
      · rw [ends_bind]
        exact (ih n htail).mono fun _ _ => trivial
      · exact ih (n + 1) htail

lemma ends_chooseEncoding (forced : Option FilenameEncoding) {data : List Byte}
    {entries : List (ByteRange × GrfEntry)} (h : RangesIn data entries) :
    Ends (chooseEncoding T forced data entries) fun _ => True := by
  unfold chooseEncoding
  split
  · trivial
  · rw [ends_bind]
    exact (ends_sampleNames _ h).mono fun _ _ => trivial

lemma ends_addEntry {data : List Byte} {item : ByteRange × GrfEntry}
    (hstart : item.1.start ≤ item.1.stop) (hstop : item.1.stop ≤ data.length)
    (encoding : FilenameEncoding) (l : Listing) :
    Ends (addEntry T C encoding data l item) fun _ => True := by
  unfold addEntry
  simp only
  split
  · trivial
  · rw [ends_bind]
    exact ends_slice hstart hstop fun _ _ => trivial

/-- Opening never crashes, whatever the bytes of the file. -/
lemma ends_openWithEncoding (fileName : String) (file : List Byte)
    (forced : Option FilenameEncoding) :
    Ends (openWithEncoding T z C fileName file forced) fun _ => True := by
  unfold openWithEncoding
  rw [ends_bind, ends_mapErr]
  refine ends_readAt fun headerBytes _ => ?_
  rw [ends_bind]
  refine (ends_parseHeader headerBytes).mono fun header hoffset => ?_
  split
  · exact ends_fail
  · rw [ends_bind]
    refine (ends_keyBlockLengthOf file header).mono fun keyBlockLength hkey => ?_
    split
    · exact ends_fail
    -- A 0x300 archive has four more bytes before its table.
    · have hskip : header.fileTableOffset + (if header.version = 0x300 then 4 else 0) < 2 ^ 42 := by
        split <;> omega
      rw [ends_bind]
      refine ends_add (by omega) ?_
      generalize header.fileTableOffset + (if header.version = 0x300 then 4 else 0) = tablePos
        at hskip ⊢
      rw [ends_bind]
      refine (ends_readRawTable z header.version file hskip).mono fun table htable => ?_
      rw [ends_bind]
      refine (ends_readArchiveKeys C file table.compressedSize hskip hkey).mono
        fun archiveKeys _ => ?_
      rw [ends_bind]
      refine (ends_readTable htable header.version header.fileCount).mono ?_
      rintro ⟨data, entries⟩ hranges
      simp only
      rw [ends_bind]
      refine (ends_chooseEncoding T forced hranges).mono fun encoding _ => ?_
      rw [ends_bind]
      refine (ends_foldlM (I := fun _ => True) (fun item hitem l _ => ?_) trivial).mono
        fun _ _ => trivial
      exact ends_addEntry T C (hranges item hitem).1 (hranges item hitem).2 encoding l

lemma ends_decryptBody (entry : GrfEntry) (data : List Byte) :
    Ends (decryptBody entry data) fun _ => True := by
  unfold decryptBody
  split
  · rw [ends_lift]
    exact (ends_desFull _ _ _).mono fun _ _ => trivial
  · split
    · rw [ends_lift]
      exact (ends_desHeader _ _).mono fun _ _ => trivial
    · trivial

lemma ends_decodeBody (entry : GrfEntry) (data : List Byte) :
    Ends (decodeBody z entry data) fun _ => True := by
  unfold decodeBody
  rw [ends_bind]
  refine (ends_decryptBody entry data).mono fun data _ => ?_
  split
  · trivial
  · exact (ends_inflateExact z data _).mono fun _ _ => trivial

lemma ends_readProtected (grf : Grf) {entry : GrfEntry}
    (h : entry.offset.toNat + headerSize < 2 ^ 64) :
    Ends (readProtected z C grf entry) fun _ => True := by
  unfold readProtected
  split
  · exact ends_fail
  · rw [ends_bind]
    refine ends_add h ?_
    rw [ends_bind]
    exact ends_readAt fun payload _ => ends_decodeEntry z C _ _ _ _ _

/-- Reading an entry never crashes, whatever its fields. -/
lemma ends_readEntry (grf : Grf) (entry : GrfEntry) :
    Ends (readEntry z C grf entry) fun _ => True := by
  unfold readEntry
  split
  · exact ends_fail
  · split
    · trivial
    · split
      · exact ends_fail
      · next stop hstop =>
        obtain ⟨start, hstart, -⟩ := Option.bind_eq_some_iff.mp hstop
        have hstart := (checkedAdd_eq_some.mp hstart).1
        split
        · exact ends_fail
        · split
          · exact ends_readProtected z C grf hstart
          · rw [ends_bind]
            refine ends_add hstart ?_
            rw [ends_bind]
            exact ends_readAt fun data _ => ends_decodeBody z entry data

/-- A slice of bytes, as long as the language lets one be. -/
abbrev Slice : Type := {l : List Byte // l.length < maxSlice}

/-- **No input crashes the reader**: opening any file, reading any entry of what was opened,
and each of the functions these are made of, on any bytes, ends in a value or an error. -/
theorem reader_ends :
    (∀ (fileName : String) (file : List Byte) (forced : Option FilenameEncoding),
      Ends (openWithEncoding T z C fileName file forced)
        fun grf => ∀ entry : GrfEntry, Ends (readEntry z C grf entry) fun _ => True) ∧
    (∀ bytes : List Byte, Ends (parseHeader bytes) fun _ => True) ∧
    (∀ (data : Slice) (fileCount : ℕ) (version : BitVec 32),
      Ends (readModernTable data fileCount version) fun _ => True) ∧
    (∀ (data : Slice) (fileCount : ℕ), Ends (readLegacyTable data fileCount) fun _ => True) ∧
    (∀ (buf : List Byte) (len : ℕ), Ends (decodeFilename buf len 0) fun _ => True) ∧
    (∀ raw : List Byte, Ends (Protected.decodeArchiveKeys C raw) fun _ => True) ∧
    (∀ (payload : List Byte) (nameHash : Vector Byte 16),
      Ends (Protected.decodeHeader C payload nameHash) fun _ => True) ∧
    (∀ (payload : List Byte) (nameHash seededNameHash : Vector Byte 16) (realSize : BitVec 32)
      (keys : ArchiveKeys),
      Ends (Protected.decodeEntry z C payload nameHash seededNameHash realSize keys)
        fun _ => True) ∧
    (∀ (cipherId : BitVec 16) (parameters : Vector Byte 64)
      (nameHash seededNameHash outputHash : Vector Byte 16) (tail : List Byte)
      (compressedLength : ℕ),
      Ends (decryptBodyTail C cipherId parameters nameHash outputHash tail) (fun _ => True) ∧
      Ends (decryptLegacyTail C cipherId parameters nameHash outputHash tail compressedLength)
        (fun _ => True) ∧
      Ends (decryptChamTail C parameters seededNameHash outputHash tail) fun _ => True) := by
  refine ⟨fun fileName file forced => ?_, fun bytes => ?_, fun data count version => ?_,
    fun data count => ?_, fun buf len => ?_, ends_decodeArchiveKeys C, fun payload hash => ?_,
    ends_decodeEntry z C, fun cipherId parameters nameHash seeded outputHash tail length => ?_⟩
  · exact (ends_openWithEncoding T z C fileName file forced).mono
      fun grf _ entry => ends_readEntry z C grf entry
  · exact (ends_parseHeader bytes).mono fun _ _ => trivial
  · exact (ends_readModernTable data.2 count version).mono fun _ _ => trivial
  · exact (ends_readLegacyTable data.2 count).mono fun _ _ => trivial
  · exact (ends_decodeFilename buf len 0).mono fun _ _ => trivial
  · exact (ends_decodeHeader C payload hash).mono fun _ _ => trivial
  · refine ⟨?_, ?_, ?_⟩
    · exact (ends_decryptBodyTail C cipherId parameters nameHash outputHash tail).mono
        fun _ _ => trivial
    · exact (ends_decryptLegacyTail C cipherId parameters nameHash outputHash tail length).mono
        fun _ _ => trivial
    · exact (ends_decryptChamTail C parameters seeded outputHash tail).mono fun _ _ => trivial

end Grf
end RemoteClient
