/-
# The entries of a written archive, and the walks that find them

An entry of an archive is `Placed`: what was added, the body it was packed into, and where
that body starts.  The loops of the writer place every item one behind the other
(`addSigned_placed`, `addLegacy_placed`), and the two table walks of the reader return the
placed entries under their names (`modernEntries_walk`, `legacyEntries_walk`).
-/
import RemoteClient.Grf.WriterInverse
import RemoteClient.Grf.ModernTable

namespace RemoteClient
namespace Grf
namespace Writer

open Exec Bytes Blocks

variable {T : TextLib} {z : Flate} {C : Crypto}

/-! ## What is written -/

/-- Something to add to an archive: a name without NUL bytes and a content within the limit
of the reader. -/
structure Item where
  kind : EntryKind
  name : List Byte
  data : List Byte
  nul_free : (0 : Byte) ∉ name
  data_le : data.length ≤ maxFileUncompressedBytes

namespace Item

def entry (item : Item) : Entry := Entry.ofKind item.kind item.name item.data

def isFile (item : Item) : Bool := item.kind != .directory

/-- The extension has the say about the encryption mode, as it does in 0x102: an item that asks
for the mixed mode has an extension that picks it. -/
def ModeByExtension (item : Item) : Prop :=
  item.kind = .encryptedFile true → fullEncrypt item.name = true

instance decidableModeByExtension (item : Item) : Decidable item.ModeByExtension :=
  inferInstanceAs (Decidable (_ → _))

end Item

/-- The layouts of the writer. -/
inductive Layout where
  | v200
  | v300
  | v300EventHorizon
  | v102
deriving DecidableEq, Repr

namespace Layout

def version : Layout → ℕ
  | v200 => 0x200
  | v300 => 0x300
  | v300EventHorizon => 0x300
  | v102 => 0x102

/-- The signature GRF Editor writes, with bytes behind its NUL. -/
def eventHorizon : List Byte :=
  ['E', 'v', 'e', 'n', 't', ' ', 'H', 'o', 'r', 'i', 'z', 'o', 'n', '\x00', 'c', '\x00'].map
    fun c => BitVec.ofNat 8 c.toNat

def signature : Layout → List Byte
  | v300EventHorizon => eventHorizon
  | _ => masterOfMagic

/-- Write an archive of these entries. -/
def write (z : Flate) (layout : Layout) (entries : GrfBuilder) : Exec Empty (List Byte) :=
  match layout with
  | v102 => writeV102 z entries
  | _ => writeSigned z entries layout.version layout.signature

/-- The body and the table the writer collects. -/
def collect (z : Flate) (layout : Layout) (entries : GrfBuilder) :
    Exec Empty (List Byte × List Byte) :=
  match layout with
  | v102 => entries.foldlM (addLegacy z) ([], [])
  | _ => entries.foldlM (addSigned z layout.version) ([], [])

/-- The body of an archive has offsets of 40 bits in 0x300, and of 32 bits elsewhere. -/
def maxBody : Layout → ℕ
  | v300 => 2 ^ 40
  | v300EventHorizon => 2 ^ 40
  | _ => 2 ^ 32

/-- Whether the layout deflates an item. -/
def deflates (layout : Layout) (item : Item) : Bool :=
  item.isFile && (decide (layout = v102) || !item.kind.stored)

end Layout

/-- The counts, offsets and sizes of an archive fit the fields of its layout and the limits
of the reader. -/
structure Fits (z : Flate) (layout : Layout) (items : List Item) : Prop where
  count_le : items.length ≤ maxEntries
  deflated_lt : ∀ item ∈ items, (z.deflate item.entry.data).length + 7 < 2 ^ 32
  body_lt : ∀ body table, layout.collect z (items.map Item.entry) = .ok (body, table) →
    body.length < layout.maxBody
  table_le : ∀ body table, layout.collect z (items.map Item.entry) = .ok (body, table) →
    table.length ≤ maxFileTableBytes
  deflatedTable_lt : ∀ body table, layout.collect z (items.map Item.entry) = .ok (body, table) →
    layout ≠ .v102 → (z.deflate table).length < 2 ^ 32
  legacy : layout = .v102 → ∀ item ∈ items, item.name.length ≤ 247 ∧
    (z.deflate item.entry.data).length + item.entry.data.length + 715 < 2 ^ 32 ∧
    (z.deflate item.entry.data).length + 7 + 37579 < 2 ^ 32

/-! ## Placed entries -/

/-- An item as it stands in an archive. -/
structure Placed where
  item : Item
  packed : Packed
  kind : Byte
  offset : ℕ

namespace Placed

/-- The table entry the reader makes of it. -/
def entry (q : Placed) : GrfEntry :=
  ⟨BitVec.ofNat 64 q.offset, q.packed.compressedSize, q.packed.lengthAligned, q.packed.realSize,
    q.kind, Vector.replicate 16 0, Vector.replicate 16 0⟩

/-- Its body decodes to its content; a directory has neither. -/
structure Good (z : Flate) (q : Placed) : Prop where
  decodes : q.item.isFile = true → Decodes z q.packed q.kind q.item.data
  file_bit : q.item.isFile = true → q.kind &&& filelistTypeFile ≠ 0
  directory : q.item.isFile = false → q.kind = 0 ∧ q.packed.realSize = 0 ∧ q.packed.payload = []
  unprotected : q.kind &&& filelistTypeProtected = 0

end Placed

/-- The bodies of the placed entries stand one behind the other from `off` on. -/
def Offsets : ℕ → List Placed → Prop
  | _, [] => True
  | off, q :: qs => q.offset = off ∧ Offsets (off + q.packed.payload.length) qs

/-- The body of an archive. -/
def bodyOf (qs : List Placed) : List Byte := qs.flatMap fun q => q.packed.payload

/-- An entry's body stands at its offset. -/
lemma bodyOf_drop {qs : List Placed} {off : ℕ} (h : Offsets off qs) {q : Placed} (hq : q ∈ qs) :
    off ≤ q.offset ∧ ∃ rest, (bodyOf qs).drop (q.offset - off) = q.packed.payload ++ rest := by
  induction qs generalizing off with
  | nil => exact absurd hq (by simp)
  | cons p qs ih =>
    obtain ⟨hp, htail⟩ := h
    rcases List.mem_cons.mp hq with rfl | hq
    · refine ⟨hp.ge, bodyOf qs, ?_⟩
      rw [hp, Nat.sub_self]
      rfl
    · obtain ⟨hle, rest, hrest⟩ := ih htail hq
      refine ⟨by omega, rest, ?_⟩
      have hsplit : q.offset - off =
          p.packed.payload.length + (q.offset - (off + p.packed.payload.length)) := by omega
      rw [hsplit, ← List.drop_drop]
      change ((p.packed.payload ++ bodyOf qs).drop p.packed.payload.length).drop _ = _
      rw [List.drop_left, hrest]

lemma offset_le {qs : List Placed} (h : Offsets 0 qs) {q : Placed} (hq : q ∈ qs) :
    q.offset ≤ (bodyOf qs).length := by
  have hgen : ∀ (qs : List Placed) (off : ℕ), Offsets off qs → ∀ q ∈ qs,
      q.offset ≤ off + (bodyOf qs).length := by
    intro qs
    induction qs with
    | nil => exact fun _ _ q hq => absurd hq (by simp)
    | cons p qs ih =>
      rintro off ⟨hp, htail⟩ q hq
      have hlen : (bodyOf (p :: qs)).length = p.packed.payload.length + (bodyOf qs).length :=
        List.length_append
      rcases List.mem_cons.mp hq with rfl | hq
      · omega
      · have := ih _ htail q hq
        omega
  have := hgen qs 0 h q hq
  omega

/-- The entries of a walk are the placed ones, and their names are read from the table. -/
def Walk (data : List Byte) (qs : List Placed) (out : List (ByteRange × GrfEntry)) : Prop :=
  List.Forall₂ (fun q it =>
    (slice data it.1.start it.1.stop : Exec GrfError (List Byte)) = .ok q.item.name ∧
      it.2 = q.entry) qs out

lemma ofNat_toNat_word (x : BitVec 32) : BitVec.ofNat 32 x.toNat = x := by simp

/-! ## The 0x200 and 0x300 table -/

/-- What the writer puts in the table for a placed entry. -/
def modernRow (version : ℕ) (q : Placed) : List Byte :=
  tableRow version q.item.entry q.packed q.offset

lemma pack_good (hz : z.Lawful) (item : Item)
    (hpacked : (z.deflate item.entry.data).length + 7 < 2 ^ 32)
    (hne : item.isFile = true → item.kind.stored = false →
      (z.deflate item.entry.data).length ≠ item.entry.data.length) (offset : ℕ) :
    ∃ p, pack z item.entry = .ok p ∧ Placed.Good z ⟨item, p, item.kind.flags, offset⟩ := by
  by_cases hdir : item.kind = .directory
  · have hflags : ¬((0 : Byte) &&& (filelistTypeEncryptMixed ||| filelistTypeEncryptHeader) ≠ 0) := by
      decide
    have hentry : item.entry = ⟨item.name, [], 0, true⟩ := by
      rw [Item.entry, Entry.ofKind, hdir]
      rfl
    have hnot : item.isFile = false := by simp [Item.isFile, hdir]
    refine ⟨⟨[], 0, 0, 0⟩, ?_, ?_, ?_, ?_, ?_⟩
    · rw [hentry]
      exact if_neg hflags
    · intro h; rw [hnot] at h; exact absurd h (by simp)
    · intro h; rw [hnot] at h; exact absurd h (by simp)
    · exact fun _ => ⟨by rw [hdir]; rfl, rfl, rfl⟩
    · exact flags_unprotected _
  · have hdata : item.entry.data = item.data := if_neg hdir
    have hfile : item.isFile = true := by simpa [Item.isFile] using hdir
    rw [hdata] at hpacked hne
    obtain ⟨p, hp, hdec⟩ := pack_decodes hz hdir item.name item.data_le hpacked (hne hfile)
    refine ⟨p, hp, fun _ => hdec, fun _ => flags_file hdir, fun h => ?_, flags_unprotected _⟩
    rw [hfile] at h
    exact absurd h (by simp)

/-- The loop of the writer places every item. -/
lemma addSigned_placed (hz : z.Lawful) (version : ℕ) {items : List Item}
    (hpacked : ∀ item ∈ items, (z.deflate item.entry.data).length + 7 < 2 ^ 32)
    (hne : ∀ item ∈ items, item.isFile = true → item.kind.stored = false →
      (z.deflate item.entry.data).length ≠ item.entry.data.length) (body table : List Byte) :
    ∃ qs, (items.map Item.entry).foldlM (addSigned z version) (body, table) =
        .ok (body ++ bodyOf qs, table ++ qs.flatMap (modernRow version)) ∧
      qs.map Placed.item = items ∧ Offsets body.length qs ∧
      ∀ q ∈ qs, q.Good z ∧ q.kind = q.item.kind.flags := by
  induction items generalizing body table with
  | nil => exact ⟨[], by simp [bodyOf, pure, Except.pure], rfl, trivial, by simp⟩
  | cons item items ih =>
    obtain ⟨p, hp, hgood⟩ := pack_good hz item (hpacked item (by simp)) (hne item (by simp))
      body.length
    obtain ⟨qs, hfold, hitems, hoff, hqs⟩ := ih (fun i hi => hpacked i (by simp [hi]))
      (fun i hi => hne i (by simp [hi])) (body ++ p.payload)
      (table ++ tableRow version item.entry p body.length)
    refine ⟨⟨item, p, item.kind.flags, body.length⟩ :: qs, ?_, ?_, ?_, ?_⟩
    · rw [List.map_cons, List.foldlM_cons, addSigned, hp, ok_bind]
      refine hfold.trans ?_
      simp [bodyOf, modernRow]
    · rw [List.map_cons, hitems]
    · refine ⟨rfl, ?_⟩
      rw [List.length_append] at hoff
      exact hoff
    · intro q hq
      rcases List.mem_cons.mp hq with rfl | hq
      · exact ⟨hgood, rfl⟩
      · exact hqs q hq

lemma leBytes_word_split (n : ℕ) (h : n < 2 ^ 64) : ∃ low high : ℕ,
    leBytes 8 n = leBytes 4 low ++ leBytes 4 high ∧ low < 2 ^ 32 ∧ high < 2 ^ 32 ∧
      (BitVec.ofNat 32 high).toNat <<< 32 + (BitVec.ofNat 32 low).toNat = n := by
  refine ⟨n % 256 ^ 4, n / 256 ^ 4, ?_, ?_, ?_, ?_⟩
  · rw [leBytes_mod, ← leBytes_add]
  · omega
  · omega
  · rw [BitVec.toNat_ofNat, BitVec.toNat_ofNat, Nat.shiftLeft_eq]
    omega

lemma version_eq_iff {version : ℕ} (h : version < 2 ^ 32) :
    BitVec.ofNat 32 version = 0x300 ↔ version = 0x300 := by
  constructor
  · intro heq
    have hnat := congrArg BitVec.toNat heq
    rw [BitVec.toNat_ofNat, Nat.mod_eq_of_lt h] at hnat
    exact hnat
  · rintro rfl; rfl

lemma modernOffset_of_drop {data rest : List Byte} {p version offset : ℕ}
    (h : data.drop p = (if version = 0x300 then leBytes 8 offset else leBytes 4 offset) ++ rest)
    (hversion : version < 2 ^ 32)
    (hoffset : offset < if version = 0x300 then 2 ^ 64 else 2 ^ 32) :
    modernOffset data (BitVec.ofNat 32 version) p = .ok offset := by
  have hiff := version_eq_iff hversion
  unfold modernOffset
  by_cases hv : version = 0x300
  · rw [if_pos hv] at h hoffset
    obtain ⟨low, high, hsplit, hlow, hhigh, hsum⟩ := leBytes_word_split offset hoffset
    rw [hsplit, List.append_assoc] at h
    rw [u32Le_of_drop h, ok_bind, if_pos (hiff.mpr hv),
      u32Le_of_drop (drop_of_drop_eq h (by simp)), ok_bind, add_eq, hsum]
    rw [hsum]
    exact hoffset
  · rw [if_neg hv] at h hoffset
    rw [u32Le_of_drop h, ok_bind, if_neg fun heq => hv (hiff.mp heq), BitVec.toNat_ofNat,
      Nat.mod_eq_of_lt hoffset]
    rfl

/-- What the writer puts behind the NUL of a name. -/
def Placed.fixedData (version : ℕ) (q : Placed) : List Byte :=
  leBytes 4 q.packed.compressedSize.toNat ++ leBytes 4 q.packed.lengthAligned.toNat ++
    leBytes 4 q.packed.realSize.toNat ++ [q.kind] ++
    (if version = 0x300 then leBytes 8 q.offset else leBytes 4 q.offset)

lemma modernRow_eq {version : ℕ} {q : Placed} (h : q.kind = q.item.kind.flags) :
    modernRow version q = q.item.name ++ 0 :: q.fixedData version := by
  have hflags : q.item.entry.flags = q.kind := h.symm
  have hname : q.item.entry.name = q.item.name := rfl
  rw [modernRow, tableRow, hflags, hname]
  simp [Placed.fixedData]

lemma length_fixedData {version : ℕ} (hversion : version < 2 ^ 32) (q : Placed) :
    (q.fixedData version).length = entryDataSize (BitVec.ofNat 32 version) := by
  have hiff := version_eq_iff hversion
  simp only [Placed.fixedData, List.length_append, length_leBytes, List.length_singleton]
  unfold entryDataSize
  by_cases hv : version = 0x300
  · rw [if_pos hv, if_pos (hiff.mpr hv), length_leBytes]
  · rw [if_neg hv, if_neg fun heq => hv (hiff.mp heq), length_leBytes]

/-- The fixed data behind a name, as the reader takes it apart. -/
lemma modernEntry_of_drop {data rest : List Byte} {p version : ℕ} {q : Placed}
    (h : data.drop p = q.fixedData version ++ rest) (hversion : version < 2 ^ 32)
    (hoffset : q.offset < if version = 0x300 then 2 ^ 64 else 2 ^ 32) :
    modernEntry data (BitVec.ofNat 32 version) p = .ok q.entry := by
  simp only [Placed.fixedData, List.append_assoc] at h
  have h4 := drop_of_drop_eq h (q := p + 4) (by simp)
  have h8 := drop_of_drop_eq h4 (q := p + 8) (by simp)
  have h12 := drop_of_drop_eq h8 (q := p + 12) (by simp)
  have h13 := drop_of_drop_eq h12 (q := p + 13) (by simp)
  rw [modernEntry, u32Le_of_drop h, ok_bind, u32Le_of_drop h4, ok_bind, u32Le_of_drop h8, ok_bind,
    index_of_drop h12, ok_bind, modernOffset_of_drop h13 hversion hoffset, ok_bind,
    ofNat_toNat_word, ofNat_toNat_word, ofNat_toNat_word]
  rfl

/-- The type of a placed entry is left as it is. -/
lemma storedAsFile_entry {q : Placed} (h : q.Good z) : storedAsFile q.entry = q.entry := by
  unfold storedAsFile
  split
  · next hstored =>
    cases hfile : q.item.isFile with
    | true =>
      have hkind : q.kind = 0 := hstored.1
      have hbit := h.file_bit hfile
      rw [hkind] at hbit
      exact absurd rfl hbit
    | false =>
      have hreal : q.packed.realSize = 0 := (h.directory hfile).2.1
      have hpos : 0 < q.packed.realSize.toNat := hstored.2.1
      rw [hreal] at hpos
      exact absurd hpos (by simp)
  · rfl

/-- The table row of a placed entry. -/
def Placed.row (version : ℕ) (q : Placed) : List Byte := q.item.name ++ 0 :: q.fixedData version

/-- The walk of a 0x200 or 0x300 table returns the entries whose types it leaves alone. -/
lemma modernEntries_placed {data post : List Byte} {version : ℕ} (hversion : version < 2 ^ 32)
    (hdata : data.length < 2 ^ 63) {qs : List Placed}
    (hqs : ∀ q ∈ qs, storedAsFile q.entry = q.entry)
    (hoffset : ∀ q ∈ qs, q.offset < if version = 0x300 then 2 ^ 64 else 2 ^ 32) (i : ℕ) {p : ℕ}
    (h : data.drop p = qs.flatMap (Placed.row version) ++ post) :
    ∃ out, modernEntries data (BitVec.ofNat 32 version) qs.length i p = .ok out ∧
      Walk data qs out := by
  -- The induction is on the rows, with the position and the index of the first one general.
  induction qs generalizing i p with
  | nil => exact ⟨[], rfl, List.Forall₂.nil⟩
  | cons q qs ih =>
    have hrow : data.drop p =
        q.item.name ++ 0 :: (q.fixedData version ++ (qs.flatMap (Placed.row version) ++ post)) := by
      rw [h, List.flatMap_cons, Placed.row]
      simp
    have hp := le_length_of_drop hrow (by simp)
    have hsize := length_fixedData hversion q
    have hfixed : data.drop (p + q.item.name.length + 1) =
        q.fixedData version ++ (qs.flatMap (Placed.row version) ++ post) :=
      drop_of_drop_eq (l := [0]) (drop_of_drop hrow) rfl
    have hentry := modernEntry_of_drop hfixed hversion (hoffset q (by simp))
    obtain ⟨out, hout, hwalk⟩ := ih (fun q' hq' => hqs q' (by simp [hq']))
      (fun q' hq' => hoffset q' (by simp [hq'])) (i + 1) (drop_of_drop_eq hfixed (by rw [hsize]))
    have hname : (slice data p (p + q.item.name.length) : Exec GrfError (List Byte)) =
        .ok q.item.name := slice_of_drop hrow rfl (by omega)
    refine ⟨(⟨p, p + q.item.name.length⟩, q.entry) :: out, ?_, ?_⟩
    · rw [List.length_cons, modernEntries_turn hdata hrow q.item.nul_free hsize hentry, hout,
        ok_bind, hqs q (by simp)]
    · exact List.Forall₂.cons ⟨hname, rfl⟩ hwalk

/-- **The walk of a 0x200 or 0x300 table returns what was placed.** -/
lemma modernEntries_walk {data post : List Byte} {version : ℕ} (hversion : version < 2 ^ 32)
    (hdata : data.length < 2 ^ 63) {qs : List Placed}
    (hqs : ∀ q ∈ qs, q.Good z ∧ q.kind = q.item.kind.flags)
    (hoffset : ∀ q ∈ qs, q.offset < if version = 0x300 then 2 ^ 64 else 2 ^ 32) (i : ℕ) {p : ℕ}
    (h : data.drop p = qs.flatMap (modernRow version) ++ post) :
    ∃ out, modernEntries data (BitVec.ofNat 32 version) qs.length i p = .ok out ∧
      Walk data qs out := by
  have hrows : qs.flatMap (modernRow version) = qs.flatMap (Placed.row version) :=
    List.flatMap_congr fun q hq => modernRow_eq (hqs q hq).2
  rw [hrows] at h
  exact modernEntries_placed hversion hdata (fun q hq => storedAsFile_entry (hqs q hq).1) hoffset i h

/-! ## The 0x102 table -/

/-- The obfuscated name of an item, with its padding. -/
def obfuscated (name : List Byte) : List Byte :=
  (encodeFilename (paddedName name)).toOption.getD []

lemma obfuscated_spec (name : List Byte) :
    encodeFilename (paddedName name) = .ok (obfuscated name) ∧
      (obfuscated name).length = (paddedName name).length ∧
      ∀ t, decodeFilename (obfuscated name ++ t) (obfuscated name).length 0 =
        .ok (paddedName name ++ t) := by
  obtain ⟨enc, henc, hlen, hdec⟩ := decodeFilename_encoded name
  have heq : obfuscated name = enc := by rw [obfuscated, henc]; rfl
  rw [heq]
  exact ⟨henc, hlen, hdec⟩

/-- What the writer puts in the table for a placed entry. -/
def legacyRowOf (q : Placed) : List Byte :=
  legacyRow (obfuscated q.item.name) q.packed q.kind q.offset

/-- The type the writer records. -/
def legacyFlags (item : Item) : Byte :=
  if item.isFile then item.kind.flags ||| modeOf item.name else 0

lemma packLegacy_sizes {entry : Entry} {p : Packed} {kind : Byte}
    (h : packLegacy z entry = .ok (p, kind)) :
    p.compressedSize = BitVec.ofNat 32 (z.deflate entry.data).length ∧
      p.lengthAligned = alignUp (BitVec.ofNat 32 (z.deflate entry.data).length) ∧
      p.realSize = BitVec.ofNat 32 entry.data.length := by
  unfold packLegacy at h
  simp only at h
  split at h
  · split at h
    · obtain ⟨enc, -, h⟩ := bind_eq_ok.mp h
      obtain ⟨rfl, -⟩ := Prod.mk.inj (Except.ok.inj h)
      exact ⟨rfl, rfl, rfl⟩
    · obtain ⟨enc, -, h⟩ := bind_eq_ok.mp h
      obtain ⟨rfl, -⟩ := Prod.mk.inj (Except.ok.inj h)
      exact ⟨rfl, rfl, rfl⟩
  · obtain ⟨rfl, -⟩ := Prod.mk.inj (Except.ok.inj h)
    exact ⟨rfl, rfl, rfl⟩

lemma modeOf_cases (name : List Byte) :
    modeOf name = filelistTypeEncryptMixed ∨ modeOf name = filelistTypeEncryptHeader := by
  unfold modeOf
  split
  · exact .inl rfl
  · exact .inr rfl

/-- The mode leaves the other bits of a file's type alone. -/
lemma mode_bits {kind : EntryKind} (h : kind ≠ .directory) (name : List Byte) :
    (kind.flags ||| modeOf name) &&& filelistTypeFile ≠ 0 ∧
      (kind.flags ||| modeOf name) &&& filelistTypeProtected = 0 := by
  rcases modeOf_cases name with hm | hm
  all_goals
    rw [hm]
    cases kind with
    | directory => exact absurd rfl h
    | encryptedFile mixed => cases mixed <;> decide
    | file => decide
    | storedFile => decide

lemma packLegacy_good (hz : z.Lawful) (item : Item)
    (hpacked : (z.deflate item.entry.data).length + 7 < 2 ^ 32)
    (hne : item.isFile = true → (z.deflate item.entry.data).length ≠ item.entry.data.length)
    (hmode : item.ModeByExtension) (offset : ℕ) :
    ∃ p, packLegacy z item.entry = .ok (p, legacyFlags item) ∧
      Placed.Good z ⟨item, p, legacyFlags item, offset⟩ := by
  by_cases hdir : item.kind = .directory
  · have hentry : item.entry = ⟨item.name, [], 0, true⟩ := by
      rw [Item.entry, Entry.ofKind, hdir]
      rfl
    have hnot : item.isFile = false := by simp [Item.isFile, hdir]
    have hflags : legacyFlags item = 0 := by rw [legacyFlags, hnot]; rfl
    have hfile : ¬((0 : Byte) &&& filelistTypeFile ≠ 0) := by decide
    rw [hflags, hentry]
    refine ⟨_, if_neg hfile, ?_, ?_, ?_, flags_unprotected .directory⟩
    · intro h; rw [hnot] at h; exact absurd h (by simp)
    · intro h; rw [hnot] at h; exact absurd h (by simp)
    · exact fun _ => ⟨rfl, rfl, rfl⟩
  · have hdata : item.entry.data = item.data := if_neg hdir
    have hfile : item.isFile = true := by simpa [Item.isFile] using hdir
    have hflags : legacyFlags item = item.kind.flags ||| modeOf item.name := if_pos hfile
    rw [hdata] at hpacked hne
    obtain ⟨p, hp, hdec⟩ :=
      packLegacy_decodes hz hdir item.data_le hpacked (hne hfile) hmode
    obtain ⟨hbit, hprotected⟩ := mode_bits hdir item.name
    rw [hflags]
    refine ⟨p, hp, fun _ => hdec, fun _ => hbit, fun h => ?_, hprotected⟩
    rw [hfile] at h
    exact absurd h (by simp)

/-- What the reader needs of an entry placed in a 0x102 archive, beyond that it is good. -/
structure LegacyFits (q : Placed) : Prop where
  kind_eq : q.kind = legacyFlags q.item
  name_le : q.item.name.length ≤ 247
  sizes_lt : q.packed.compressedSize.toNat + q.packed.realSize.toNat + 715 < 2 ^ 32
  aligned_lt : q.packed.lengthAligned.toNat + 37579 < 2 ^ 32

/-- The loop of the writer places every item. -/
lemma addLegacy_placed (hz : z.Lawful) {items : List Item}
    (hpacked : ∀ item ∈ items, (z.deflate item.entry.data).length + 7 < 2 ^ 32)
    (hne : ∀ item ∈ items, item.isFile = true →
      (z.deflate item.entry.data).length ≠ item.entry.data.length)
    (hlegacy : ∀ item ∈ items, item.name.length ≤ 247 ∧
      (z.deflate item.entry.data).length + item.entry.data.length + 715 < 2 ^ 32 ∧
      (z.deflate item.entry.data).length + 7 + 37579 < 2 ^ 32)
    (hmode : ∀ item ∈ items, item.ModeByExtension) (body table : List Byte) :
    ∃ qs, (items.map Item.entry).foldlM (addLegacy z) (body, table) =
        .ok (body ++ bodyOf qs, table ++ qs.flatMap legacyRowOf) ∧
      qs.map Placed.item = items ∧ Offsets body.length qs ∧
      ∀ q ∈ qs, q.Good z ∧ LegacyFits q := by
  -- The induction is on the items, with what the writer has collected so far general.
  induction items generalizing body table with
  | nil => exact ⟨[], by simp [bodyOf, pure, Except.pure], rfl, trivial, by simp⟩
  | cons item items ih =>
    have hdeflated := hpacked item (by simp)
    obtain ⟨hname, hsizes, haligned⟩ := hlegacy item (by simp)
    obtain ⟨p, hp, hgood⟩ := packLegacy_good hz item hdeflated (hne item (by simp))
      (hmode item (by simp)) body.length
    obtain ⟨hcompressed, hlengthAligned, hreal⟩ := packLegacy_sizes hp
    have hsize := toNat_ofNat_length hdeflated
    have halign := alignUp_toNat (n := BitVec.ofNat 32 (z.deflate item.entry.data).length)
      (by omega)
    have hdata : (BitVec.ofNat 32 item.entry.data.length).toNat = item.entry.data.length :=
      toNat_ofNat_length (by omega)
    obtain ⟨hencode, -, -⟩ := obfuscated_spec item.name
    obtain ⟨qs, hfold, hitems, hoff, hqs⟩ := ih (fun i hi => hpacked i (by simp [hi]))
      (fun i hi => hne i (by simp [hi])) (fun i hi => hlegacy i (by simp [hi]))
      (fun i hi => hmode i (by simp [hi])) (body ++ p.payload)
      (table ++ legacyRow (obfuscated item.name) p (legacyFlags item) body.length)
    refine ⟨⟨item, p, legacyFlags item, body.length⟩ :: qs, ?_, ?_, ?_, ?_⟩
    · have hencode' : encodeFilename (paddedName item.entry.name) = .ok (obfuscated item.name) :=
        hencode
      rw [List.map_cons, List.foldlM_cons, addLegacy, hp, ok_bind]
      simp only
      rw [hencode', ok_bind]
      refine hfold.trans ?_
      simp [bodyOf, legacyRowOf]
    · rw [List.map_cons, hitems]
    · refine ⟨rfl, ?_⟩
      rw [List.length_append] at hoff
      exact hoff
    · intro q hq
      rcases List.mem_cons.mp hq with rfl | hq
      · refine ⟨hgood, rfl, hname, ?_, ?_⟩
        · simp only
          rw [hcompressed, hreal, hsize, hdata]
          exact hsizes
        · simp only
          rw [hlengthAligned, halign, hsize]
          omega
      · exact hqs q hq

/-- The first NUL of a padded name stands behind the name. -/
lemma legacyNameEnd_padded {name : List Byte} (h : (0 : Byte) ∉ name) (start : ℕ) :
    legacyNameEnd (paddedName name) start = start + name.length := by
  have hfind : (paddedName name).findIdx? (· == 0) = some name.length := by
    have hnone : name.findIdx? (· == 0) = none := by
      rw [List.findIdx?_eq_none_iff]
      intro b hb
      rw [beq_eq_false_iff_ne]
      rintro rfl
      exact h hb
    simp only [paddedName]
    rw [List.append_assoc, List.findIdx?_append, hnone]
    simp [List.findIdx?_cons]
  rw [legacyNameEnd, hfind]

/-- The reader sets the mode the writer recorded. -/
lemma legacyKind_eq {data : List Byte} {q : Placed} {start : ℕ} (hgood : q.Good z)
    (hkind : q.kind = legacyFlags q.item)
    (hname : (slice data start (start + q.item.name.length) : Exec GrfError (List Byte)) =
      .ok q.item.name) {compressedSize lengthAligned : ℤ} (hc : 0 ≤ compressedSize)
    (ha : 0 ≤ lengthAligned) :
    legacyKind data ⟨start, start + q.item.name.length⟩ q.kind compressedSize lengthAligned =
      .ok q.kind := by
  unfold legacyKind
  rw [if_neg (by omega)]
  cases hfile : q.item.isFile with
  | true =>
    rw [if_pos (hgood.file_bit hfile)]
    simp only
    rw [hname, ok_bind, isFullEncrypt_eq, ok_bind]
    have hmode : (if fullEncrypt q.item.name = true then filelistTypeEncryptMixed
        else filelistTypeEncryptHeader) = modeOf q.item.name := rfl
    have hidem : q.kind ||| modeOf q.item.name = q.kind := by
      rw [hkind, legacyFlags, if_pos hfile, BitVec.or_assoc, BitVec.or_self]
    rw [hmode, hidem]
    rfl
  | false =>
    have hzero : ¬(q.kind &&& filelistTypeFile ≠ 0) := by
      rw [(hgood.directory hfile).1]
      decide
    rw [if_neg hzero]
    rfl

lemma toNat_ofNat_lt {n : ℕ} (h : n < 2 ^ 32) : (BitVec.ofNat 32 n).toNat = n := by
  rw [BitVec.toNat_ofNat]
  exact Nat.mod_eq_of_lt h

/-- The table with the name of an entry at `p` decoded. -/
def decodeRow (data : List Byte) (p : ℕ) (q : Placed) : List Byte :=
  splice data (p + 6) (paddedName q.item.name ++ [0, 0, 0, 0])

lemma length_legacyRowOf (q : Placed) :
    (legacyRowOf q).length = (obfuscated q.item.name).length + 27 := by
  rw [legacyRowOf, legacyRow]
  simp only [List.length_append, length_leBytes, List.length_cons, List.length_nil]
  omega

/-- Decoding a name in place leaves everything around it alone. -/
lemma decodeRow_spec {data rest : List Byte} {p : ℕ} {q : Placed}
    (h : data.drop p = legacyRowOf q ++ rest) :
    (decodeRow data p q).length = data.length ∧
      (decodeRow data p q).take p = data.take p ∧
      (∀ k, p + (obfuscated q.item.name).length + 10 ≤ k →
        (decodeRow data p q).drop k = data.drop k) ∧
      ∃ r, (decodeRow data p q).drop (p + 6) = paddedName q.item.name ++ r := by
  obtain ⟨-, hlen, -⟩ := obfuscated_spec q.item.name
  have hrow := length_legacyRowOf q
  have hsize := le_length_of_drop h fun hnil => by
    have := congrArg List.length hnil
    rw [List.length_append, hrow, List.length_nil] at this
    omega
  rw [List.length_append, hrow] at hsize
  have hnew : (paddedName q.item.name ++ [0, 0, 0, 0]).length =
      (obfuscated q.item.name).length + 4 := by
    rw [List.length_append, hlen]
    rfl
  refine ⟨length_splice (by omega), take_splice (by omega) (by omega),
    fun k hk => drop_splice (by omega) (by omega), ?_⟩
  have hself := drop_splice_self (s := paddedName q.item.name ++ [0, 0, 0, 0])
    (show p + 6 ≤ data.length by omega)
  rw [List.append_assoc] at hself
  exact ⟨_, hself⟩

/-- One entry of a 0x102 table: the name is decoded in place and the biases come off. -/
lemma legacyEntry_of_drop {data rest : List Byte} {p i : ℕ} {q : Placed} (hgood : q.Good z)
    (hfits : LegacyFits q) (hoffset : q.offset < 2 ^ 32) (hdata : data.length < 2 ^ 63)
    (h : data.drop p = legacyRowOf q ++ rest) :
    legacyEntry data i p = .ok (decodeRow data p q,
      (⟨p + 6, p + 6 + q.item.name.length⟩, q.entry), p + (legacyRowOf q).length) := by
  obtain ⟨-, hlen, hdec⟩ := obfuscated_spec q.item.name
  obtain ⟨hmod, hge, hle⟩ := length_paddedName q.item.name
  have hname := hfits.name_le
  set enc := obfuscated q.item.name with henc
  have hrow : data.drop p = leBytes 4 (enc.length + 6) ++ ([0, 0] ++ ((enc ++ [0, 0, 0, 0]) ++
      (leBytes 4 (q.packed.compressedSize.toNat + q.packed.realSize.toNat + 715) ++
        (leBytes 4 (q.packed.lengthAligned.toNat + 37579) ++
          (leBytes 4 q.packed.realSize.toNat ++ ([q.kind] ++ (leBytes 4 q.offset ++ rest))))))) := by
    rw [h, legacyRowOf, legacyRow, ← henc]
    simp only [List.append_assoc]
  have hsize := le_length_of_drop hrow (by simp)
  simp only [List.length_append, length_leBytes, List.length_cons, List.length_nil] at hsize
  -- The cursor: the block length, the name, and the fixed data behind it.
  have h6 := drop_of_drop_eq (drop_of_drop_eq hrow (q := p + 4) (by simp)) (q := p + 6) rfl
  have hmeta := drop_of_drop_eq h6 (q := p + 4 + (enc.length + 6)) (by simp; omega)
  have hblock : (slice data (p + 6) (p + 4 + (enc.length + 6)) : Exec GrfError (List Byte)) =
      .ok (enc ++ [0, 0, 0, 0]) := slice_of_drop h6 (by simp; omega) (by omega)
  have hblockLen : (BitVec.ofNat 32 (enc.length + 6)).toNat = enc.length + 6 :=
    toNat_ofNat_lt (by omega)
  have hlenByte : (BitVec.ofNat 8 (enc.length + 6)).toNat = enc.length + 6 := by
    rw [BitVec.toNat_ofNat]
    omega
  -- The decoded table: the name is in place, and what is behind it is what it was.
  obtain ⟨hlength, -, hbehind, r, hnew⟩ := decodeRow_spec h
  rw [← henc] at hbehind
  have hpadded : (slice (decodeRow data p q) (p + 6) (p + 6 + enc.length) :
      Exec GrfError (List Byte)) = .ok (paddedName q.item.name) :=
    slice_of_drop hnew (by omega) (by omega)
  have hraw : (slice (decodeRow data p q) (p + 6) (p + 6 + q.item.name.length) :
      Exec GrfError (List Byte)) = .ok q.item.name := by
    simp only [paddedName, List.append_assoc] at hnew
    exact slice_of_drop hnew rfl (by omega)
  have hmeta' : (decodeRow data p q).drop (p + 4 + (enc.length + 6)) = _ :=
    (hbehind _ (by omega)).trans hmeta
  have hmeta4 := drop_of_drop_eq hmeta' (q := p + 4 + (enc.length + 6) + 4) (by simp)
  have hmeta8 := drop_of_drop_eq hmeta4 (q := p + 4 + (enc.length + 6) + 8) (by simp)
  have hmeta12 := drop_of_drop_eq hmeta8 (q := p + 4 + (enc.length + 6) + 12) (by simp)
  have hmeta13 := drop_of_drop_eq hmeta12 (q := p + 4 + (enc.length + 6) + 13) (by simp)
  have hmetaPos : ((checkedAdd p 4).bind fun off => checkedAdd off (enc.length + 6)) =
      some (p + 4 + (enc.length + 6)) := by
    rw [checkedAdd_eq (by omega), Option.bind_some, checkedAdd_eq (by omega)]
  have hcompressed : ((q.packed.compressedSize.toNat + q.packed.realSize.toNat + 715 : ℕ) : ℤ) -
      q.packed.realSize.toNat - legacyLengthBias = q.packed.compressedSize.toNat := by
    unfold legacyLengthBias
    omega
  have haligned : ((q.packed.lengthAligned.toNat + 37579 : ℕ) : ℤ) - legacyAlignedBias =
      q.packed.lengthAligned.toNat := by
    unfold legacyAlignedBias
    omega
  have hback : ∀ x : BitVec 32, BitVec.ofNat 32 (max (x.toNat : ℤ) 0).toNat = x := by
    intro x
    rw [max_eq_left (by omega), Int.toNat_natCast, ofNat_toNat_word]
  have hkind := legacyKind_eq hgood hfits.kind_eq hraw
    (Int.natCast_nonneg q.packed.compressedSize.toNat)
    (Int.natCast_nonneg q.packed.lengthAligned.toNat)
  unfold legacyEntry
  rw [add_eq (by omega), ok_bind, if_neg (by omega), u32Le_of_drop hrow, ok_bind,
    index_of_drop hrow, ok_bind]
  simp only [hblockLen, hlenByte, hmetaPos, Nat.add_sub_cancel, legacyEntryDataSize]
  rw [add_eq (by omega), ok_bind, if_neg (by omega), add_eq (by omega), ok_bind,
    add_eq (by omega), ok_bind, if_neg (by omega), hblock, ok_bind, hdec, lift_ok, ok_bind]
  have hdecode : splice data (p + 6) (paddedName q.item.name ++ [0, 0, 0, 0]) =
      decodeRow data p q := rfl
  simp only [hdecode]
  rw [hpadded, ok_bind, legacyNameEnd_padded q.item.nul_free, u32Le_of_drop hmeta8, ok_bind,
    u32Le_of_drop hmeta', ok_bind, u32Le_of_drop hmeta4, ok_bind, index_of_drop hmeta12, ok_bind]
  simp only [toNat_ofNat_lt hfits.sizes_lt, toNat_ofNat_lt hfits.aligned_lt, ofNat_toNat_word,
    hcompressed, haligned, hkind, hback, ok_bind]
  rw [u32Le_of_drop hmeta13, ok_bind, toNat_ofNat_lt hoffset]
  have hrowLen : p + (legacyRowOf q).length = p + 4 + (enc.length + 6) + 17 := by
    rw [length_legacyRowOf, ← henc]
    omega
  rw [hrowLen]
  rfl

/-- **The walk of a 0x102 table returns what was placed**, under the decoded names. -/
lemma legacyEntries_walk {qs : List Placed} (hqs : ∀ q ∈ qs, q.Good z ∧ LegacyFits q)
    (hoffset : ∀ q ∈ qs, q.offset < 2 ^ 32) (i : ℕ) {data : List Byte} {p : ℕ}
    (hdata : data.length < 2 ^ 63) (h : data.drop p = qs.flatMap legacyRowOf) :
    ∃ data' out, legacyEntries qs.length i p data = .ok (data', out) ∧
      data'.length = data.length ∧ data'.take p = data.take p ∧ Walk data' qs out := by
  -- Decoding a row changes the table only behind `p`, so the rows before it stay decoded.
  induction qs generalizing i data p with
  | nil => exact ⟨data, [], rfl, rfl, rfl, List.Forall₂.nil⟩
  | cons q qs ih =>
    obtain ⟨hgood, hfits⟩ := hqs q (by simp)
    rw [List.flatMap_cons] at h
    have hentry := legacyEntry_of_drop (i := i) hgood hfits (hoffset q (by simp)) hdata h
    obtain ⟨hlength, htake, hbehind, r, hnew⟩ := decodeRow_spec h
    have hrowLen := length_legacyRowOf q
    have hsize := le_length_of_drop h fun hnil => by
      have := congrArg List.length hnil
      rw [List.length_append, hrowLen, List.length_nil] at this
      omega
    rw [List.length_append] at hsize
    have hrest : (decodeRow data p q).drop (p + (legacyRowOf q).length) =
        qs.flatMap legacyRowOf :=
      (hbehind _ (by omega)).trans (drop_of_drop h)
    obtain ⟨data', out, hout, hlength', htake', hwalk⟩ := ih (fun q' hq' => hqs q' (by simp [hq']))
      (fun q' hq' => hoffset q' (by simp [hq'])) (i + 1) (by omega) hrest
    refine ⟨data', (⟨p + 6, p + 6 + q.item.name.length⟩, q.entry) :: out, ?_, by omega, ?_, ?_⟩
    · rw [List.length_cons, legacyEntries, hentry, ok_bind]
      simp only
      rw [hout]
      rfl
    · -- What the first entry left in front of `p` the others leave too.
      have hcut := congrArg (List.take p) htake'
      rw [List.take_take, List.take_take, Nat.min_eq_left (by omega)] at hcut
      rw [hcut, htake]
    · refine List.Forall₂.cons ⟨?_, rfl⟩ hwalk
      obtain ⟨-, hge, -⟩ := length_paddedName q.item.name
      obtain ⟨-, hpad, -⟩ := obfuscated_spec q.item.name
      rw [slice_congr htake' (by simp only; omega) (by omega)]
      simp only [paddedName, List.append_assoc] at hnew
      exact slice_of_drop hnew rfl (by simp only; omega)

end Writer
end Grf
end RemoteClient
