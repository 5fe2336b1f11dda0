/-
# Decoding a table in place and decoding a copy

The walk of a 0x1xx table decodes each name in the table itself and reads the next entry
from the table it has changed.  `OnCopy` reads the same table without changing it: every
number comes from the original bytes and every name is decoded on a copy of its own block.
An entry's block ends where its fixed data begins, and the next entry begins behind that, so
what is decoded is never read as a number again (`legacyEntry_on_copy`): the two agree.
-/
import RemoteClient.Grf.NoPanic

namespace RemoteClient
namespace Grf

open Exec Bytes Blocks

/-! ## A table that is not changed -/

namespace OnCopy

variable (table : List Byte) (p : ℕ)

/-- The offset of the fixed data of the entry at `p`. -/
def metaPos : ℕ := p + 4 + leAt table p 4

/-- The block of the entry at `p`: its name, and the bytes up to the fixed data. -/
def block : ByteRange := ⟨p + 6, metaPos table p⟩

/-- The length of the name: the low byte of the block length, less the bytes before it. -/
def nameLen : ℕ := leAt table p 1 - 6

/-- A copy of the block, with the name decoded. -/
def decoded : List Byte :=
  let copy := (table.drop (p + 6)).take (metaPos table p - (p + 6))
  (decodeFilename copy (nameLen table p) 0).toOption.getD copy

/-- The name up to its first NUL. -/
def name : List Byte := ((decoded table p).take (nameLen table p)).takeWhile (· != 0)

/-- The size of the packed content, which a bias can push below zero. -/
def compressedSize : ℤ :=
  leAt table (metaPos table p) 4 - leAt table (metaPos table p + 8) 4 - legacyLengthBias

def lengthAligned : ℤ := leAt table (metaPos table p + 4) 4 - legacyAlignedBias

/-- The mode a name is encrypted with. -/
def mode : Byte :=
  if (isFullEncrypt (name table p)).toOption.getD true then filelistTypeEncryptMixed
  else filelistTypeEncryptHeader

def kind : Byte :=
  let kind := BitVec.ofNat 8 (leAt table (metaPos table p + 12) 1)
  if compressedSize table p < 0 ∨ lengthAligned table p < 0 then kind &&& ~~~filelistTypeFile
  else if kind &&& filelistTypeFile ≠ 0 then kind ||| mode table p
  else kind

/-- The entry at `p`. -/
def entry : GrfEntry where
  offset := BitVec.ofNat 64 (leAt table (metaPos table p + 13) 4)
  compressedSize := BitVec.ofNat 32 (max (compressedSize table p) 0).toNat
  lengthAligned := BitVec.ofNat 32 (max (lengthAligned table p) 0).toNat
  realSize := BitVec.ofNat 32 (leAt table (metaPos table p + 8) 4)
  kind := kind table p
  filenameHash := Vector.replicate 16 0
  seededFilenameHash := Vector.replicate 16 0

/-- The entry at `p`, with the range of its name. -/
def item : ByteRange × GrfEntry := (⟨p + 6, p + 6 + (name table p).length⟩, entry table p)

/-- The offset behind the entry at `p`. -/
def next : ℕ := metaPos table p + legacyEntryDataSize

/-- The offsets of the `n` entries from `p` on. -/
def rows : ℕ → ℕ → List ℕ
  | 0, _ => []
  | n + 1, p => p :: rows n (next table p)

/-- The entry at `p` fits: its name in its block, and its fixed data in the table. -/
structure Fits : Prop where
  name_le : p + 6 + nameLen table p ≤ metaPos table p
  next_le : next table p ≤ table.length

end OnCopy

/-! ## One entry -/

section Entry

variable {table data : List Byte} {p : ℕ}

lemma decoded_of_ok {copy out : List Byte} {len : ℕ} (h : decodeFilename copy len 0 = .ok out) :
    out.length = copy.length := by
  exact (ends_decodeFilename copy len 0).post h

/-- The end of a decoded name is behind its bytes up to the first NUL. -/
lemma legacyNameEnd_eq (name : List Byte) (start : ℕ) :
    legacyNameEnd name start = start + (name.takeWhile (· != 0)).length := by
  induction name with
  | nil => rfl
  | cons b name ih =>
    unfold legacyNameEnd at ih ⊢
    by_cases hb : b = 0
    · subst hb
      simp [List.findIdx?_cons]
    · rw [List.findIdx?_cons, if_neg (by simpa using hb),
        List.takeWhile_cons_of_pos (by simpa using hb)]
      cases hfind : name.findIdx? (· == 0) with
      | none =>
        rw [hfind] at ih
        simp only [Option.map_none, List.length_cons] at ih ⊢
        omega
      | some k =>
        rw [hfind] at ih
        simp only [Option.map_some, List.length_cons] at ih ⊢
        omega

/-- The type of an entry, when its name is what the range says. -/
lemma legacyKind_ok {name : ByteRange} {raw : List Byte} {kind kind' : Byte}
    {compressedSize lengthAligned : ℤ}
    (hraw : (slice data name.start name.stop : Exec GrfError (List Byte)) = .ok raw)
    (h : legacyKind data name kind compressedSize lengthAligned = .ok kind') :
    kind' = if compressedSize < 0 ∨ lengthAligned < 0 then kind &&& ~~~filelistTypeFile
      else if kind &&& filelistTypeFile ≠ 0 then
        kind ||| (if (isFullEncrypt raw).toOption.getD true then filelistTypeEncryptMixed
          else filelistTypeEncryptHeader)
      else kind := by
  unfold legacyKind at h
  split at h
  · next hneg =>
    rw [if_pos hneg]
    exact (Except.ok.inj h).symm
  · next hneg =>
    rw [if_neg hneg]
    split at h
    · next hfile =>
      rw [if_pos hfile]
      rw [hraw, ok_bind] at h
      obtain ⟨full, hfull, h⟩ := bind_eq_ok.mp h
      rw [hfull]
      exact (Except.ok.inj h).symm
    · next hfile =>
      rw [if_neg hfile]
      exact (Except.ok.inj h).symm

/-- **One entry decoded in place is the entry decoded on a copy**, when the table is still
the original one from the entry on. -/
lemma legacyEntry_on_copy {i q : ℕ} {data' : List Byte} {item : ByteRange × GrfEntry}
    (h : legacyEntry data i p = .ok (data', item, q)) (hdrop : data.drop p = table.drop p)
    (hlen : data.length = table.length) :
    OnCopy.Fits table p ∧
      (OnCopy.decoded table p).length = OnCopy.metaPos table p - (p + 6) ∧
      data' = splice data (p + 6) (OnCopy.decoded table p) ∧
      item = OnCopy.item table p ∧ q = OnCopy.next table p := by
  have hnum : ∀ a k, p ≤ a → leAt data a k = leAt table a k :=
    fun a k ha => leAt_congr hdrop ha k
  unfold legacyEntry at h
  obtain ⟨start, hstart, h⟩ := bind_eq_ok.mp h
  obtain ⟨-, rfl⟩ := add_eq_ok.mp hstart
  split at h
  · exact absurd h (by simp [fail])
  obtain ⟨blockLen, hblockLen, h⟩ := bind_eq_ok.mp h
  obtain ⟨lenByte, hlenByte, h⟩ := bind_eq_ok.mp h
  simp only at h
  have hnameLen : lenByte.toNat - 6 = OnCopy.nameLen table p := by
    rw [OnCopy.nameLen, ← hnum p 1 le_rfl, leAt_one (index_eq_ok.mp hlenByte)]
  rw [hnameLen] at h
  split at h
  · exact absurd h (by simp [fail])
  next metaPos hmeta =>
  have hmetaPos : metaPos = OnCopy.metaPos table p := by
    obtain ⟨off, hoff, hmeta⟩ := Option.bind_eq_some_iff.mp hmeta
    rw [(checkedAdd_eq_some.mp hmeta).2, (checkedAdd_eq_some.mp hoff).2, OnCopy.metaPos,
      ← hnum p 4 le_rfl, u32Le_eq_ok hblockLen]
  subst hmetaPos
  obtain ⟨stop, hstop, h⟩ := bind_eq_ok.mp h
  obtain ⟨-, rfl⟩ := add_eq_ok.mp hstop
  split at h
  · exact absurd h (by simp [fail])
  next hnext =>
  obtain ⟨nameStart, hnameStart, h⟩ := bind_eq_ok.mp h
  obtain ⟨-, rfl⟩ := add_eq_ok.mp hnameStart
  obtain ⟨nameStop, hnameStop, h⟩ := bind_eq_ok.mp h
  obtain ⟨-, rfl⟩ := add_eq_ok.mp hnameStop
  split at h
  · exact absurd h (by simp [fail])
  next hname =>
  have hfits : OnCopy.Fits table p := ⟨by omega, by rw [OnCopy.next]; omega⟩
  -- The block is the original one, so what is decoded is the copy.
  obtain ⟨block, hblock, h⟩ := bind_eq_ok.mp h
  obtain ⟨-, hblockIn, hblock⟩ := slice_eq_ok.mp hblock
  have hcopy : block = (table.drop (p + 6)).take (OnCopy.metaPos table p - (p + 6)) := by
    rw [hblock, ← List.drop_drop, ← List.drop_drop, hdrop]
  obtain ⟨decoded, hdecoded, h⟩ := bind_eq_ok.mp h
  have hdecode := lift_eq_ok.mp hdecoded
  have hdecodedEq : OnCopy.decoded table p = decoded := by
    rw [OnCopy.decoded, ← hcopy, hdecode]
    rfl
  have hdecodedLen : decoded.length = OnCopy.metaPos table p - (p + 6) := by
    rw [decoded_of_ok hdecode, hcopy, List.length_take, List.length_drop]
    omega
  subst hdecodedEq
  -- What is behind the block is read as it was.
  have hsplice : p + 6 + (OnCopy.decoded table p).length = OnCopy.metaPos table p := by
    rw [hdecodedLen]
    have := hfits.name_le
    omega
  have hbehind : (splice data (p + 6) (OnCopy.decoded table p)).drop (OnCopy.metaPos table p) =
      table.drop (OnCopy.metaPos table p) := by
    rw [drop_splice (by omega) hsplice.le]
    obtain ⟨d, hd⟩ := Nat.exists_eq_add_of_le (show p ≤ OnCopy.metaPos table p by omega)
    rw [hd, ← List.drop_drop, ← List.drop_drop, hdrop]
  have hnum' : ∀ a k, OnCopy.metaPos table p ≤ a →
      leAt (splice data (p + 6) (OnCopy.decoded table p)) a k = leAt table a k :=
    fun a k ha => leAt_congr hbehind ha k
  have hself : (splice data (p + 6) (OnCopy.decoded table p)).drop (p + 6) =
      OnCopy.decoded table p ++ data.drop (OnCopy.metaPos table p) := by
    rw [drop_splice_self (by omega), hsplice]
  -- The name, and the range it is found under.
  obtain ⟨raw, hraw, h⟩ := bind_eq_ok.mp h
  obtain ⟨-, -, hraw⟩ := slice_eq_ok.mp hraw
  have hrawEq : raw = (OnCopy.decoded table p).take (OnCopy.nameLen table p) := by
    rw [hraw, hself, Nat.add_sub_cancel_left, List.take_append_of_le_length]
    have := hfits.name_le
    omega
  have hnameEnd : legacyNameEnd raw (p + 6) = p + 6 + (OnCopy.name table p).length := by
    rw [legacyNameEnd_eq, hrawEq, OnCopy.name]
  have hnamed : (slice (splice data (p + 6) (OnCopy.decoded table p)) (p + 6)
      (p + 6 + (OnCopy.name table p).length) : Exec GrfError (List Byte)) =
      .ok (OnCopy.name table p) := by
    obtain ⟨t, ht⟩ : OnCopy.name table p <+: OnCopy.decoded table p :=
      (List.takeWhile_prefix _).trans (List.take_prefix _ _)
    refine slice_of_drop (r := t ++ data.drop (OnCopy.metaPos table p)) ?_ rfl ?_
    · rw [hself, ← List.append_assoc, ht]
    · rw [length_splice (by omega)]
      omega
  rw [hnameEnd] at h
  obtain ⟨realSize, hrealSize, h⟩ := bind_eq_ok.mp h
  obtain ⟨packed, hpacked, h⟩ := bind_eq_ok.mp h
  obtain ⟨aligned, haligned, h⟩ := bind_eq_ok.mp h
  obtain ⟨kind, hkind, h⟩ := bind_eq_ok.mp h
  obtain ⟨kind', hkind', h⟩ := bind_eq_ok.mp h
  obtain ⟨offset, hoffset, h⟩ := bind_eq_ok.mp h
  have hreal : realSize.toNat = leAt table (OnCopy.metaPos table p + 8) 4 := by
    rw [u32Le_eq_ok hrealSize, hnum' _ _ (by omega)]
  have hpack : packed.toNat = leAt table (OnCopy.metaPos table p) 4 := by
    rw [u32Le_eq_ok hpacked, hnum' _ _ le_rfl]
  have halign : aligned.toNat = leAt table (OnCopy.metaPos table p + 4) 4 := by
    rw [u32Le_eq_ok haligned, hnum' _ _ (by omega)]
  have hoff : offset.toNat = leAt table (OnCopy.metaPos table p + 13) 4 := by
    rw [u32Le_eq_ok hoffset, hnum' _ _ (by omega)]
  have hkindByte : kind = BitVec.ofNat 8 (leAt table (OnCopy.metaPos table p + 12) 1) := by
    rw [← hnum' _ _ (by omega), leAt_one (index_eq_ok.mp hkind), BitVec.ofNat_toNat,
      BitVec.setWidth_eq]
  have hcompressed : (packed.toNat : ℤ) - realSize.toNat - legacyLengthBias =
      OnCopy.compressedSize table p := by
    rw [hpack, hreal, OnCopy.compressedSize]
  have hlengthAligned : (aligned.toNat : ℤ) - legacyAlignedBias =
      OnCopy.lengthAligned table p := by
    rw [halign, OnCopy.lengthAligned]
  rw [hcompressed, hlengthAligned] at hkind' h
  have hkindEq : kind' = OnCopy.kind table p := by
    rw [legacyKind_ok hnamed hkind', OnCopy.kind, ← hkindByte]
    rfl
  have hrealEq : realSize = BitVec.ofNat 32 (leAt table (OnCopy.metaPos table p + 8) 4) := by
    rw [← hreal, BitVec.ofNat_toNat, BitVec.setWidth_eq]
  obtain ⟨rfl, rfl, rfl⟩ : splice data (p + 6) (OnCopy.decoded table p) = data' ∧
      OnCopy.item table p = item ∧ OnCopy.next table p = q := by
    have hret := Except.ok.inj h
    rw [hoff, hkindEq, hrealEq] at hret
    exact ⟨congrArg Prod.fst hret, congrArg (Prod.fst ∘ Prod.snd) hret,
      congrArg (Prod.snd ∘ Prod.snd) hret⟩
  exact ⟨hfits, hdecodedLen, rfl, rfl, rfl⟩

end Entry

/-! ## The walk -/

namespace OnCopy

variable {table : List Byte}

lemma rows_ge {n p r : ℕ} (h : r ∈ rows table n p) : p ≤ r := by
  induction n generalizing p with
  | zero => exact absurd h (by simp [rows])
  | succ n ih =>
    rcases List.mem_cons.mp h with rfl | hr
    · exact le_rfl
    · have hge := ih hr
      unfold next metaPos at hge
      omega

/-- Every entry lies behind the ones before it. -/
lemma rows_pairwise (n p : ℕ) : (rows table n p).Pairwise fun r s => next table r ≤ s := by
  induction n generalizing p with
  | zero => exact List.Pairwise.nil
  | succ n ih => exact List.pairwise_cons.mpr ⟨fun s hs => rows_ge hs, ih _⟩

/-- What a walk over the entries at `ps` made of the table `data`: their items as a copy
gives them, and a table in which nothing but their blocks is changed. -/
structure InPlace (table data : List Byte) (ps : List ℕ) (buf : List Byte)
    (out : List (ByteRange × GrfEntry)) : Prop where
  items : out = ps.map (item table)
  length_eq : buf.length = data.length
  fits : ∀ p ∈ ps, Fits table p
  /-- Each block holds what was decoded on its copy. -/
  decoded : ∀ p ∈ ps, slice buf (block table p).start (block table p).stop =
    (.ok (decoded table p) : Exec GrfError (List Byte))
  /-- Beside the blocks every byte is what it was. -/
  kept : ∀ j, (∀ p ∈ ps, j < (block table p).start ∨ (block table p).stop ≤ j) →
    buf[j]? = data[j]?

end OnCopy

lemma legacyEntries_on_copy {table : List Byte} {n i p : ℕ} {data buf : List Byte}
    {out : List (ByteRange × GrfEntry)} (h : legacyEntries n i p data = .ok (buf, out))
    (hdrop : data.drop p = table.drop p) (hlen : data.length = table.length) :
    OnCopy.InPlace table data (OnCopy.rows table n p) buf out := by
  -- From the next entry on the table is still the original one: that is what is carried.
  induction n generalizing i p data out with
  | zero =>
    obtain ⟨rfl, rfl⟩ := Prod.mk.inj (Except.ok.inj h)
    exact ⟨rfl, rfl, by simp [OnCopy.rows], by simp [OnCopy.rows], fun _ _ => rfl⟩
  | succ n ih =>
    unfold legacyEntries at h
    obtain ⟨⟨data', entry, q⟩, hentry, h⟩ := bind_eq_ok.mp h
    obtain ⟨⟨buf', out'⟩, hrest, h⟩ := bind_eq_ok.mp h
    obtain ⟨rfl, rfl⟩ := Prod.mk.inj (Except.ok.inj h)
    obtain ⟨hfits, hdecoded, rfl, rfl, rfl⟩ := legacyEntry_on_copy hentry hdrop hlen
    have hname := hfits.name_le
    have hnext := hfits.next_le
    have hfar : OnCopy.metaPos table p ≤ OnCopy.next table p := Nat.le_add_right _ _
    have hsplice : p + 6 + (OnCopy.decoded table p).length = OnCopy.metaPos table p := by omega
    have hin : p + 6 + (OnCopy.decoded table p).length ≤ data.length := by omega
    have hlen' : (splice data (p + 6) (OnCopy.decoded table p)).length = data.length :=
      length_splice hin
    have hdrop' : (splice data (p + 6) (OnCopy.decoded table p)).drop (OnCopy.next table p) =
        table.drop (OnCopy.next table p) := by
      rw [drop_splice hin (by omega)]
      obtain ⟨d, hd⟩ := Nat.exists_eq_add_of_le (show p ≤ OnCopy.next table p by omega)
      rw [hd, ← List.drop_drop, ← List.drop_drop, hdrop]
    obtain ⟨hitems, hlength, hallFit, hall, hkept⟩ := ih hrest hdrop' (by omega)
    -- The entries behind this one leave it alone.
    have hfront : buf'.take (OnCopy.metaPos table p) =
        (splice data (p + 6) (OnCopy.decoded table p)).take (OnCopy.metaPos table p) := by
      apply List.ext_getElem?
      intro j
      rw [List.getElem?_take, List.getElem?_take]
      split
      · next hj =>
        refine hkept j fun r hr => Or.inl ?_
        have hge := OnCopy.rows_ge hr
        simp only [OnCopy.block]
        omega
      · rfl
    refine ⟨?_, hlength.trans hlen', ?_, ?_, ?_⟩
    · rw [hitems]
      rfl
    · intro r hr
      rcases List.mem_cons.mp hr with rfl | hr
      · exact hfits
      · exact hallFit r hr
    · intro r hr
      rcases List.mem_cons.mp hr with rfl | hr
      · simp only [OnCopy.block]
        rw [slice_congr hfront le_rfl hlength, ← hsplice]
        exact slice_splice hin
      · exact hall r hr
    · intro j hj
      rw [hkept j fun r hr => hj r (List.mem_cons_of_mem _ hr)]
      refine getElem?_splice hin ?_
      rw [hsplice]
      exact hj p List.mem_cons_self

/-- **Decoding a table in place is the same as decoding a copy.**  The entries are those that
are read from the original bytes, each name decoded on a copy of its block; the blocks follow
one another without overlapping, each with its name inside it; and in the table that is left,
each block holds its decoded copy and every other byte is what it was. -/
theorem legacy_in_place {data buf : List Byte} {n : ℕ} {entries : List (ByteRange × GrfEntry)}
    (h : readLegacyTable data n = .ok (buf, entries)) :
    entries = (OnCopy.rows data n 0).map (OnCopy.item data) ∧
    ((OnCopy.rows data n 0).map (OnCopy.block data)).Pairwise (fun a b => a.stop ≤ b.start) ∧
    (∀ p ∈ OnCopy.rows data n 0,
      (OnCopy.block data p).start ≤ (OnCopy.item data p).1.start ∧
      (OnCopy.item data p).1.start ≤ (OnCopy.item data p).1.stop ∧
      (OnCopy.item data p).1.stop ≤ (OnCopy.block data p).stop ∧
      (OnCopy.block data p).stop ≤ data.length) ∧
    (∀ p ∈ OnCopy.rows data n 0, slice buf (OnCopy.block data p).start (OnCopy.block data p).stop =
      (.ok (OnCopy.decoded data p) : Exec GrfError (List Byte))) ∧
    buf.length = data.length ∧
    ∀ j, (∀ p ∈ OnCopy.rows data n 0,
      j < (OnCopy.block data p).start ∨ (OnCopy.block data p).stop ≤ j) → buf[j]? = data[j]? := by
  obtain ⟨hitems, hlength, hfits, hdecoded, hkept⟩ := legacyEntries_on_copy h rfl rfl
  refine ⟨hitems, ?_, ?_, hdecoded, hlength, hkept⟩
  · refine List.pairwise_map.mpr ((OnCopy.rows_pairwise n 0).imp ?_)
    intro r s hrs
    simp only [OnCopy.block, OnCopy.next] at hrs ⊢
    omega
  · intro p hp
    obtain ⟨hname, hnext⟩ := hfits p hp
    have hlen : (OnCopy.name data p).length ≤ OnCopy.nameLen data p :=
      ((List.takeWhile_prefix _).length_le).trans (List.length_take_le _ _)
    simp only [OnCopy.block, OnCopy.item, OnCopy.next] at hnext ⊢
    omega

/-- A table of two entries, before and after the names `a.gat` and `b.txt` in it are decoded. -/
def obfuscatedTable : List Byte :=
  [11, 0, 0, 0, 0, 0, 0x17, 0xA3, 0x63, 0x53, 0x12, 0x01, 0x44, 0x41, 0xFF,
    0xDF, 2, 0, 0, 0xDB, 0x92, 0, 0, 10, 0, 0, 0, 1, 0x2E, 0, 0, 0,
  11, 0, 0, 0, 0, 0, 0x23, 0xE2, 0x53, 0x86, 0x16, 0x55, 0x44, 0x50, 0xFE,
    0xD7, 2, 0, 0, 0xDB, 0x92, 0, 0, 3, 0, 0, 0, 1, 0x3E, 0, 0, 0]

def decodedTable : List Byte :=
  [11, 0, 0, 0, 0, 0, 0x61, 0x2E, 0x67, 0x61, 0x74, 0, 0, 0, 0xFF,
    0xDF, 2, 0, 0, 0xDB, 0x92, 0, 0, 10, 0, 0, 0, 1, 0x2E, 0, 0, 0,
  11, 0, 0, 0, 0, 0, 0x62, 0x2E, 0x74, 0x78, 0x74, 0, 0, 0, 0xFE,
    0xD7, 2, 0, 0, 0xDB, 0x92, 0, 0, 3, 0, 0, 0, 1, 0x3E, 0, 0, 0]

def decodedItems : List (ByteRange × GrfEntry) :=
  [(⟨6, 11⟩, ⟨46, 10, 16, 10, 5, Vector.replicate 16 0, Vector.replicate 16 0⟩),
    (⟨38, 43⟩, ⟨62, 9, 16, 3, 3, Vector.replicate 16 0, Vector.replicate 16 0⟩)]

lemma readLegacyTable_obfuscated :
    readLegacyTable obfuscatedTable 2 = .ok (decodedTable, decodedItems) := by
  decide +kernel

/-- The entries are the ones that are read without changing the table; the two blocks do not
overlap, and a byte between them stays. -/
theorem legacy_in_place_sample :
    decodedItems = (OnCopy.rows obfuscatedTable 2 0).map (OnCopy.item obfuscatedTable) ∧
      (OnCopy.rows obfuscatedTable 2 0).map (OnCopy.block obfuscatedTable) =
        [⟨6, 15⟩, ⟨38, 47⟩] ∧
      [(⟨6, 15⟩ : ByteRange), ⟨38, 47⟩].Pairwise (fun a b => a.stop ≤ b.start) ∧
      decodedTable[20]? = obfuscatedTable[20]? := by
  obtain ⟨hitems, hblocks, -, -, -, hkept⟩ := legacy_in_place readLegacyTable_obfuscated
  have hrows : (OnCopy.rows obfuscatedTable 2 0).map (OnCopy.block obfuscatedTable) =
      [⟨6, 15⟩, ⟨38, 47⟩] := by decide
  exact ⟨hitems, hrows, hrows ▸ hblocks, hkept 20 (by decide)⟩

end Grf
end RemoteClient
