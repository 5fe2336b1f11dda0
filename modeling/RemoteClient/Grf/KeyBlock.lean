/-
# The key block of an archive

The script packs the records of the keys one behind the other and encrypts them under a
fixed key, the decoder takes them apart again.  The chain is undone by `cbc_cancel`, so what
is left is the loop that adds the records: it accepts a list of records when their ids are
distinct and in range (`addRecords_eq_ok_iff`), and then the keys are those records.
-/
import RemoteClient.Grf.CipherInverse
import RemoteClient.Grf.NoPanic

namespace RemoteClient
namespace Grf

open Exec Bytes Blocks Ciphers

variable {C : Crypto}

namespace Protected

/-! ## The loop over the records -/

/-- The ids of records that make a key block: in range, and each of them once. -/
structure DistinctIds (records : ArchiveKeys) : Prop where
  range : ∀ record ∈ records, 1 ≤ record.1.toNat ∧ record.1.toNat ≤ 65535
  nodup : (records.map Prod.fst).Nodup

/-- Records that can be added to keys. -/
def Addable (keys records : ArchiveKeys) : Prop :=
  DistinctIds records ∧ ∀ record ∈ records, record.1 ∉ keys.map Prod.fst

lemma addable_nil (keys : ArchiveKeys) : Addable keys [] :=
  ⟨⟨by simp, by simp⟩, by simp⟩

lemma addable_start {records : ArchiveKeys} : Addable [] records ↔ DistinctIds records :=
  ⟨And.left, fun h => ⟨h, by simp⟩⟩

/-- The first record is checked against the keys, the others also against it. -/
lemma addable_cons {keys records : ArchiveKeys} {r : BitVec 32 × Vector Byte 60} :
    Addable keys (r :: records) ↔
      (1 ≤ r.1.toNat ∧ r.1.toNat ≤ 65535 ∧ r.1 ∉ keys.map Prod.fst) ∧
        Addable (r :: keys) records := by
  constructor
  · rintro ⟨⟨hrange, hnodup⟩, hnew⟩
    rw [List.map_cons, List.nodup_cons] at hnodup
    obtain ⟨hlow, hhigh⟩ := hrange r List.mem_cons_self
    refine ⟨⟨hlow, hhigh, hnew r List.mem_cons_self⟩, ⟨fun s hs => ?_, hnodup.2⟩, ?_⟩
    · exact hrange s (List.mem_cons_of_mem r hs)
    · intro s hs hmem
      rcases List.mem_cons.mp hmem with heq | hold
      · exact hnodup.1 (heq ▸ List.mem_map_of_mem hs)
      · exact hnew s (List.mem_cons_of_mem r hs) hold
  · rintro ⟨⟨hlow, hhigh, hnew⟩, ⟨hrange, hnodup⟩, hfresh⟩
    refine ⟨⟨?_, ?_⟩, ?_⟩
    · intro s hs
      rcases List.mem_cons.mp hs with rfl | hs
      · exact ⟨hlow, hhigh⟩
      · exact hrange s hs
    · rw [List.map_cons, List.nodup_cons]
      refine ⟨fun hmem => ?_, hnodup⟩
      obtain ⟨s, hs, heq⟩ := List.mem_map.mp hmem
      exact hfresh s hs (by rw [heq]; exact List.mem_cons_self)
    · intro s hs
      rcases List.mem_cons.mp hs with rfl | hs
      · exact hnew
      · exact fun hold => hfresh s hs (List.mem_cons_of_mem _ hold)

@[simp] lemma length_packRecord (r : BitVec 32 × Vector Byte 60) :
    (Generate.packRecord r).length = 64 := by
  rw [Generate.packRecord, List.length_append, length_leBytes, Vector.length_toList]

lemma length_packRecords (records : ArchiveKeys) :
    (records.flatMap Generate.packRecord).length = records.length * 64 := by
  induction records with
  | nil => rfl
  | cons r records ih =>
    rw [List.flatMap_cons, List.length_append, length_packRecord, ih, List.length_cons]
    omega

lemma lookup_isSome {keys : ArchiveKeys} {id : BitVec 32} :
    (keys.lookup id).isSome ↔ id ∈ keys.map Prod.fst := by
  rw [List.lookup_isSome_iff, List.mem_map]
  constructor
  · rintro ⟨r, hr, heq⟩
    exact ⟨r, hr, (eq_of_beq heq).symm⟩
  · rintro ⟨r, hr, rfl⟩
    exact ⟨r, hr, beq_self_eq_true _⟩

/-- In keys whose ids are distinct, an id has the key it stands with. -/
lemma lookup_iff {keys : ArchiveKeys} (h : (keys.map Prod.fst).Nodup) {id : BitVec 32}
    {param : Vector Byte 60} : keys.lookup id = some param ↔ (id, param) ∈ keys := by
  rw [List.lookup_eq_some_iff]
  constructor
  · rintro ⟨before, after, rfl, -⟩
    simp
  · intro hmem
    obtain ⟨before, after, rfl⟩ := List.append_of_mem hmem
    refine ⟨before, after, rfl, fun r hr => ?_⟩
    rw [List.map_append, List.nodup_append] at h
    have hne := h.2.2 r.1 (List.mem_map_of_mem hr) id (by simp)
    simpa using Ne.symm hne

/-- One turn of the loop at a record. -/
lemma addRecords_record (n : ℕ) (r : BitVec 32 × Vector Byte 60) (rest : List Byte)
    (keys : ArchiveKeys) :
    addRecords (n + 1) (Generate.packRecord r ++ rest) keys =
      if r.1 = 0 ∨ 65535 < r.1.toNat ∨ (keys.lookup r.1).isSome then
        fail (invalidData "Invalid or duplicate GRF archive key-block record")
      else addRecords n rest (r :: keys) := by
  have hid : (u32Le (Generate.packRecord r) 0 : Exec IoError (BitVec 32)) = .ok r.1 := by
    rw [u32Le_of_drop (n := r.1.toNat) (r := r.2.toList) rfl, BitVec.ofNat_toNat,
      BitVec.setWidth_eq]
  have hkey : (subarray (Generate.packRecord r) 4 64 : Exec IoError (Vector Byte 60)) =
      .ok r.2 := by
    refine subarray_of_drop (a := 4) (b := 64) (r := []) r.2 ?_ (by omega)
      (by rw [length_packRecord]; omega)
    rw [List.append_nil]
    exact List.drop_left' (length_leBytes 4 _)
  rw [addRecords]
  simp only [List.take_left' (length_packRecord r), List.drop_left' (length_packRecord r)]
  rw [hid, ok_bind, hkey, ok_bind]

/-- **The loop accepts distinct ids in range**, and then the keys are the records. -/
lemma addRecords_eq_ok_iff {records keys out : ArchiveKeys} :
    addRecords records.length (records.flatMap Generate.packRecord) keys = .ok out ↔
      Addable keys records ∧ out = records.reverse ++ keys := by
  induction records generalizing keys with
  | nil =>
    constructor
    · intro h
      exact ⟨addable_nil keys, (Except.ok.inj h).symm⟩
    · rintro ⟨-, rfl⟩
      rfl
  | cons r records ih =>
    have hzero : r.1 = 0 ↔ ¬ 1 ≤ r.1.toNat := by
      rw [← BitVec.toNat_inj]
      change r.1.toNat = 0 ↔ _
      omega
    rw [List.flatMap_cons, List.length_cons, addRecords_record, addable_cons, List.reverse_cons,
      List.append_assoc, List.singleton_append]
    -- The loop refuses the record exactly where `Addable` fails at it.
    split
    · next hbad =>
      constructor
      · intro h
        exact absurd h (by simp [fail])
      · rintro ⟨⟨⟨hlow, hhigh, hnew⟩, -⟩, -⟩
        rcases hbad with h0 | hbig | hold
        · exact absurd hlow (hzero.mp h0)
        · omega
        · exact absurd (lookup_isSome.mp hold) hnew
    · next hgood =>
      rw [not_or, not_or, hzero, not_not, Nat.not_lt, lookup_isSome] at hgood
      rw [ih]
      constructor
      · rintro ⟨hadd, hout⟩
        exact ⟨⟨hgood, hadd⟩, hout⟩
      · rintro ⟨⟨-, hadd⟩, hout⟩
        exact ⟨hadd, hout⟩

/-! ## The block -/

/-- The key of the key block, and the block its chain starts with. -/
def blockKey (C : Crypto) : Vector Byte 16 :=
  Vector.ofFn fun i => (C.sha256 keyBlockSecret)[i.val]

def blockIv (C : Crypto) : Vector Byte 16 :=
  Vector.ofFn fun i => (C.sha256 keyBlockSecret)[16 + i.val]

/-- A key block whose sizes and checksum are what it declares; `decoded` are its records. -/
structure KeyBlock (C : Crypto) (raw decoded : List Byte) : Prop where
  version : raw.take 4 = [1, 1, 0, 0]
  length_eq : raw.length = 20 + leAt raw 12 4
  size_pos : 0 < leAt raw 12 4
  size_mod : leAt raw 12 4 % 64 = 0
  count_le : leAt raw 12 4 / 64 ≤ 65535
  body : chamCbcDecrypt (raw.drop 20) (blockKey C) (blockIv C) = .ok decoded
  checksum : (C.xxh32 decoded 0).toNat = leAt raw 16 4

lemma subarray_blockKey (C : Crypto) (ε : Type) :
    (subarray (C.sha256 keyBlockSecret).toList 0 16 : Exec ε (Vector Byte 16)) =
      .ok (blockKey C) := by
  have hpart := subarray_ofFn (ε := ε) (C.sha256 keyBlockSecret) (a := 0) (b := 16)
    (by decide) (by decide)
  simp only [Nat.zero_add] at hpart
  exact hpart

lemma subarray_blockIv (C : Crypto) (ε : Type) :
    (subarray (C.sha256 keyBlockSecret).toList 16 32 : Exec ε (Vector Byte 16)) =
      .ok (blockIv C) :=
  subarray_ofFn (C.sha256 keyBlockSecret) (by decide) (by decide)

/-- A block that is what it declares is taken apart into its records. -/
lemma decodeArchiveKeys_eq {raw decoded : List Byte} (h : KeyBlock C raw decoded) :
    decodeArchiveKeys C raw = addRecords (decoded.length / 64) decoded [] := by
  have hlen := h.length_eq
  have hpos := h.size_pos
  have hmod := h.size_mod
  have hcount := h.count_le
  have hraw : raw ≠ [] := by
    rintro rfl
    rw [List.length_nil] at hlen
    omega
  have hversion : (slice raw 0 4 : Exec IoError (List Byte)) = .ok [1, 1, 0, 0] := by
    rw [slice_eq (by omega) (by omega), List.drop_zero, h.version]
  obtain ⟨size, hsize⟩ := u32Le_ok (ε := IoError) (b := raw) (p := 12) (by omega)
  obtain ⟨checksum, hchecksum⟩ := u32Le_ok (ε := IoError) (b := raw) (p := 16) (by omega)
  have hsum : ¬ C.xxh32 decoded 0 ≠ checksum := by
    rw [not_not, ← BitVec.toNat_inj, h.checksum, u32Le_eq_ok hchecksum]
  have hbody : (slice raw 20 raw.length : Exec IoError (List Byte)) = .ok (raw.drop 20) := by
    rw [slice_eq (by omega) le_rfl, List.take_of_length_le (by rw [List.length_drop])]
  unfold decodeArchiveKeys
  rw [if_neg hraw, if_neg (by omega), hversion, ok_bind,
    if_neg (by simp), hsize, ok_bind]
  simp only
  rw [u32Le_eq_ok hsize, sub_eq (by omega), ok_bind, if_neg (by omega), hbody, ok_bind,
    subarray_blockKey, ok_bind, subarray_blockIv, ok_bind, h.body, lift_ok, ok_bind, hchecksum,
    ok_bind, if_neg hsum]

/-- Keys are only ever read from a block that is what it declares. -/
lemma keyBlock_of_ok {raw : List Byte} {keys : ArchiveKeys} (hraw : raw ≠ [])
    (h : decodeArchiveKeys C raw = .ok keys) : ∃ decoded, KeyBlock C raw decoded := by
  unfold decodeArchiveKeys at h
  rw [if_neg hraw] at h
  split at h
  · exact absurd h (by simp [fail])
  next hshort =>
  obtain ⟨version, hversion, h⟩ := bind_eq_ok.mp h
  obtain ⟨-, -, hversion⟩ := slice_eq_ok.mp hversion
  split at h
  · exact absurd h (by simp [fail])
  next hone =>
  obtain ⟨size, hsize, h⟩ := bind_eq_ok.mp h
  obtain ⟨left, hleft, h⟩ := bind_eq_ok.mp h
  obtain ⟨-, rfl⟩ := sub_eq_ok.mp hleft
  simp only at h
  rw [u32Le_eq_ok hsize] at h
  split at h
  · exact absurd h (by simp [fail])
  next hsizes =>
  obtain ⟨body, hbody, h⟩ := bind_eq_ok.mp h
  obtain ⟨-, -, rfl⟩ := slice_eq_ok.mp hbody
  rw [subarray_blockKey, ok_bind, subarray_blockIv, ok_bind] at h
  obtain ⟨decoded, hdecoded, h⟩ := bind_eq_ok.mp h
  obtain ⟨checksum, hchecksum, h⟩ := bind_eq_ok.mp h
  split at h
  · exact absurd h (by simp [fail])
  next hsum =>
  -- Every check that let the block through is a field of `KeyBlock`.
  refine ⟨decoded, ?_, ?_, ?_, ?_, ?_, ?_, ?_⟩
  · rw [not_not] at hone
    rw [← hone, hversion, List.drop_zero]
  · omega
  · omega
  · omega
  · omega
  · rw [← lift_eq_ok.mp hdecoded, List.take_of_length_le (by rw [List.length_drop])]
  · rw [not_not] at hsum
    rw [hsum, u32Le_eq_ok hchecksum]

/-- What is not the block it declares to be is refused. -/
lemma decodeArchiveKeys_refuses {raw : List Byte} (hraw : raw ≠ [])
    (h : ∀ decoded, ¬ KeyBlock C raw decoded) : ∃ e, decodeArchiveKeys C raw = fail e := by
  refine (ends_decodeArchiveKeys C raw).fails fun keys hkeys => ?_
  obtain ⟨decoded, hblock⟩ := keyBlock_of_ok hraw hkeys
  exact h decoded hblock

/-- A key block over the records `decoded`, whose chain is `body`. -/
def footerBytes (C : Crypto) (decoded body : List Byte) : List Byte :=
  [1, 1, 0, 0] ++ (leBytes 8 1700000000 ++ (leBytes 4 decoded.length ++
    leBytes 4 (C.xxh32 decoded 0).toNat)) ++ body

lemma footerBytes_keyBlock {decoded body : List Byte} (hmod : decoded.length % 64 = 0)
    (hcount : 0 < decoded.length ∧ decoded.length / 64 ≤ 65535)
    (hlen : body.length = decoded.length)
    (hbody : chamCbcDecrypt body (blockKey C) (blockIv C) = .ok decoded) :
    KeyBlock C (footerBytes C decoded body) decoded := by
  -- The cursor over the two words of the header, and behind it.
  have h12 : (footerBytes C decoded body).drop 12 =
      leBytes 4 decoded.length ++ (leBytes 4 (C.xxh32 decoded 0).toNat ++ body) := by
    simp [footerBytes]
  have h16 := drop_of_drop_eq h12 (q := 16) (by simp)
  have h20 := drop_of_drop_eq h16 (q := 20) (by simp)
  have hsize : leAt (footerBytes C decoded body) 12 4 = decoded.length := by
    rw [leAt_of_drop h12 (length_leBytes 4 _), leNat_leBytes (by omega)]
  have hsum : leAt (footerBytes C decoded body) 16 4 = (C.xxh32 decoded 0).toNat := by
    rw [leAt_of_drop h16 (length_leBytes 4 _), leNat_leBytes (C.xxh32 decoded 0).isLt]
  refine ⟨rfl, ?_, ?_, ?_, ?_, ?_, ?_⟩
  · rw [hsize, footerBytes]
    simp only [List.length_append, List.length_cons, List.length_nil, length_leBytes, hlen]
  · omega
  · omega
  · omega
  · rw [h20, hbody]
  · rw [hsum]

/-- What the script writes is the block it declares, and decodes to the packed records. -/
lemma makeFooter_keyBlock {records : ArchiveKeys} (hne : records ≠ [])
    (hlen : records.length ≤ 65535) :
    ∃ footer, Generate.makeFooter C records = .ok footer ∧
      KeyBlock C footer (records.flatMap Generate.packRecord) := by
  have hsize := length_packRecords records
  have hpos : 0 < records.length := List.length_pos_iff.mpr hne
  generalize hdecoded : records.flatMap Generate.packRecord = decoded at hsize
  obtain ⟨body, last, hbody, henc, hdec⟩ := cbc_cancel
    (fun block => Generate.chamEncrypt block (Ciphers.chamKeys (blockKey C)))
    (chamBlock_encrypt (Ciphers.chamKeys (blockKey C))) (decoded.length / 16) (blockIv C) decoded
    (by omega)
  have hwhole : decoded.length / 16 * 16 = decoded.length := by omega
  rw [hwhole, List.drop_length, List.append_nil] at henc
  rw [hwhole, List.take_length] at hdec
  have hsecret : Generate.footerHashInput = keyBlockSecret := rfl
  have hpack : Generate.packWord decoded.length = .ok (leBytes 4 decoded.length) :=
    if_pos (by omega)
  refine ⟨footerBytes C decoded body, ?_, footerBytes_keyBlock (by omega) (by omega) ?_ hdec⟩
  · unfold Generate.makeFooter
    simp only [hdecoded, hsecret, subarray_blockKey, subarray_blockIv, ok_bind,
      Generate.chamKeys_eq, hpack, henc]
    rfl
  · omega

/-- **The key block round-trips and refuses bad records.**  What the script writes for a list
of records decodes to the map of these records when their ids are distinct and in range, and
is refused otherwise; and a block that is not what it declares to be is always refused. -/
theorem archive_keys_round_trip (C : Crypto) :
    (∀ records : ArchiveKeys, records ≠ [] → records.length ≤ 65535 →
      ∃ footer, Generate.makeFooter C records = .ok footer ∧
        (DistinctIds records → ∃ keys, decodeArchiveKeys C footer = .ok keys ∧
          ∀ id param, keys.lookup id = some param ↔ (id, param) ∈ records) ∧
        (¬ DistinctIds records → ∃ e, decodeArchiveKeys C footer = fail e)) ∧
    ∀ raw : List Byte, raw ≠ [] → (∀ decoded, ¬ KeyBlock C raw decoded) →
      ∃ e, decodeArchiveKeys C raw = fail e := by
  refine ⟨?_, fun raw hraw h => decodeArchiveKeys_refuses hraw h⟩
  intro records hne hlen
  obtain ⟨footer, hfooter, hblock⟩ := makeFooter_keyBlock (C := C) hne hlen
  have hdecode := decodeArchiveKeys_eq hblock
  rw [length_packRecords, Nat.mul_div_cancel _ (by decide)] at hdecode
  refine ⟨footer, hfooter, ?_, ?_⟩
  · intro hdistinct
    refine ⟨records.reverse, ?_, ?_⟩
    · rw [hdecode]
      exact addRecords_eq_ok_iff.mpr ⟨addable_start.mpr hdistinct, (List.append_nil _).symm⟩
    · intro id param
      rw [lookup_iff (by rw [List.map_reverse, List.nodup_reverse]; exact hdistinct.nodup),
        List.mem_reverse]
  · intro hbad
    refine (ends_decodeArchiveKeys C footer).fails fun keys hkeys => hbad ?_
    rw [hdecode] at hkeys
    exact addable_start.mp (addRecords_eq_ok_iff.mp hkeys).1

end Protected

end Grf
end RemoteClient
