/-
# The grammar of a decompressed file table

A 0x200 or 0x300 table is a sequence of rows: a name without NUL bytes, a NUL, and 17 or 21
bytes of data whose numbers are little-endian.  `ModernRow` is such a row, and a byte string
that starts with one starts with exactly one (`bytes_append_inj`).  The walk of the reader
follows the rows (`modernEntries_row`) and stops with an error where there is none
(`modernEntries_no_row`), so it accepts the tables of this grammar and no others.
-/
import RemoteClient.Grf.NoPanic

namespace RemoteClient
namespace Grf

open Exec Bytes

/-! ## Rows -/

/-- A row of a 0x200 or 0x300 table. -/
structure ModernRow (version : BitVec 32) where
  /-- The name, as it stands in the table. -/
  name : List Byte
  nul_free : (0 : Byte) ∉ name
  /-- What stands behind the NUL. -/
  fields : Vector Byte (entryDataSize version)
deriving DecidableEq

namespace ModernRow

variable {version : BitVec 32}

/-- The bytes of a row. -/
def bytes (r : ModernRow version) : List Byte := r.name ++ 0 :: r.fields.toList

@[simp] lemma length_bytes (r : ModernRow version) :
    r.bytes.length = r.name.length + 1 + entryDataSize version := by
  simp only [bytes, List.length_append, List.length_cons, Vector.length_toList]
  omega

/-- The little-endian number in the `k` bytes of the data from byte `a` on. -/
def field (r : ModernRow version) (a k : ℕ) : ℕ := leAt r.fields.toList a k

/-- The entry of a row.  Only a type of 0 is not what the row says: with some content, packed
and real sizes equal, it is a file. -/
def entry (r : ModernRow version) : GrfEntry where
  offset := BitVec.ofNat 64 (r.field 13 (if version = 0x300 then 8 else 4))
  compressedSize := BitVec.ofNat 32 (r.field 0 4)
  lengthAligned := BitVec.ofNat 32 (r.field 4 4)
  realSize := BitVec.ofNat 32 (r.field 8 4)
  kind :=
    if r.field 12 1 = 0 ∧ 0 < r.field 8 4 ∧ r.field 0 4 = r.field 8 4 then filelistTypeFile
    else BitVec.ofNat 8 (r.field 12 1)
  filenameHash := Vector.replicate 16 0
  seededFilenameHash := Vector.replicate 16 0

/-- The rows of a table from offset `p` on, each with the range of its name. -/
def listing : ℕ → List (ModernRow version) → List (ByteRange × GrfEntry)
  | _, [] => []
  | p, r :: rows => (⟨p, p + r.name.length⟩, r.entry) :: listing (p + r.bytes.length) rows

@[simp] lemma length_listing (p : ℕ) (rows : List (ModernRow version)) :
    (listing p rows).length = rows.length := by
  induction rows generalizing p with
  | nil => rfl
  | cons r rows ih => rw [listing, List.length_cons, List.length_cons, ih]

/-- A name ends at the first NUL. -/
lemma takeWhile_bytes (r : ModernRow version) (x : List Byte) :
    (r.bytes ++ x).takeWhile (· != 0) = r.name := by
  rw [bytes, List.append_assoc, List.takeWhile_append_of_pos, List.cons_append,
    List.takeWhile_cons_of_neg (by simp), List.append_nil]
  intro b hb
  have hne : b ≠ 0 := fun h0 => r.nul_free (h0 ▸ hb)
  simpa using hne

/-- What starts with a row starts with one row only. -/
lemma bytes_append_inj {r s : ModernRow version} {x y : List Byte}
    (h : r.bytes ++ x = s.bytes ++ y) : r = s ∧ x = y := by
  have hname : r.name = s.name := by
    rw [← takeWhile_bytes r x, h, takeWhile_bytes]
  have hlen : r.bytes.length = s.bytes.length := by
    rw [length_bytes, length_bytes, hname]
  obtain ⟨hbytes, hrest⟩ := List.append_inj h hlen
  refine ⟨?_, hrest⟩
  cases r with
  | mk name nul_free fields =>
    cases s with
    | mk name' nul_free' fields' =>
      simp only at hname
      subst hname
      have hfields := List.append_cancel_left hbytes
      have htail := (List.cons.inj hfields).2
      obtain rfl := Vector.toList_inj.mp htail
      rfl

/-- A table is taken apart into its first rows in one way only. -/
lemma flatMap_bytes_inj {rows rows' : List (ModernRow version)} {x y : List Byte}
    (h : rows.flatMap bytes ++ x = rows'.flatMap bytes ++ y) (hlen : rows.length = rows'.length) :
    rows = rows' ∧ x = y := by
  induction rows generalizing rows' with
  | nil =>
    obtain rfl := List.length_eq_zero_iff.mp hlen.symm
    exact ⟨rfl, h⟩
  | cons r rows ih =>
    rcases rows' with _ | ⟨s, rows'⟩
    · exact absurd hlen (by simp)
    · rw [List.flatMap_cons, List.flatMap_cons, List.append_assoc, List.append_assoc] at h
      obtain ⟨rfl, hrest⟩ := bytes_append_inj h
      obtain ⟨rfl, hxy⟩ := ih hrest (by simpa using hlen)
      exact ⟨rfl, hxy⟩

end ModernRow

/-! ## One turn of the walk -/

section Turn

variable {version : BitVec 32} {data rest : List Byte} {p : ℕ}

/-- The end of a name is its NUL. -/
lemma nameEnd_of_drop {name : List Byte} (h : data.drop p = name ++ 0 :: rest)
    (hname : (0 : Byte) ∉ name) : nameEnd data p = .ok (p + name.length) := by
  induction name generalizing p with
  | nil =>
    have hp := le_length_of_drop h (by simp)
    rw [List.length_append, List.length_cons] at hp
    unfold nameEnd
    rw [dif_pos (by omega), index_of_drop h]
    rfl
  | cons b name ih =>
    have hp := le_length_of_drop h (by simp)
    rw [List.length_append, List.length_cons] at hp
    rw [List.mem_cons, not_or] at hname
    have hnext := ih (drop_of_drop_eq (l := [b]) h rfl) hname.2
    have hsum : p + (b :: name).length = p + [b].length + name.length := by
      rw [List.length_cons, List.length_singleton]
      omega
    unfold nameEnd
    rw [dif_pos (by omega), index_of_drop h, ok_bind, if_pos (Ne.symm hname.1), hsum]
    exact hnext

/-- A name without a NUL behind it runs to the end of the table. -/
lemma nameEnd_of_nul_free (h : (0 : Byte) ∉ data.drop p) (hp : p ≤ data.length) :
    nameEnd data p = .ok data.length := by
  induction p using nameEnd.induct data with
  | case1 p hlt ih =>
    have hdrop := List.drop_eq_getElem_cons hlt
    rw [hdrop, List.mem_cons, not_or] at h
    unfold nameEnd
    rw [dif_pos hlt, index_of_drop hdrop, ok_bind, if_pos (Ne.symm h.1)]
    exact ih h.2 hlt
  | case2 p hge =>
    unfold nameEnd
    rw [dif_neg hge, le_antisymm hp (Nat.le_of_not_lt hge)]

/-- The `k` bytes from byte `a` of what the cursor stands at. -/
lemma drop_part {f : List Byte} (h : data.drop p = f ++ rest) {a k : ℕ} (hk : a + k ≤ f.length) :
    data.drop (p + a) = (f.drop a).take k ++ (f.drop (a + k) ++ rest) ∧
      ((f.drop a).take k).length = k := by
  constructor
  · rw [← List.append_assoc, ← List.drop_drop (l := f), List.take_append_drop, ← List.drop_drop, h,
      List.drop_append_of_le_length (by omega)]
  · rw [List.length_take, List.length_drop]
    omega

variable {r : ModernRow version}

/-- A word of the data of a row. -/
lemma u32Le_field (h : data.drop p = r.fields.toList ++ rest) (a : ℕ)
    (ha : a + 4 ≤ entryDataSize version) :
    (u32Le data (p + a) : Exec GrfError (BitVec 32)) = .ok (BitVec.ofNat 32 (r.field a 4)) := by
  obtain ⟨hdrop, hlen⟩ := drop_part h (a := a) (k := 4) (by rwa [Vector.length_toList])
  exact u32Le_of_drop_bytes hdrop hlen

lemma index_field (h : data.drop p = r.fields.toList ++ rest) (a : ℕ)
    (ha : a + 1 ≤ entryDataSize version) :
    (index data (p + a) : Exec GrfError Byte) = .ok (BitVec.ofNat 8 (r.field a 1)) := by
  obtain ⟨hdrop, hlen⟩ := drop_part h (a := a) (k := 1) (by rwa [Vector.length_toList])
  obtain ⟨b, hb⟩ := List.length_eq_one_iff.mp hlen
  have hnum : BitVec.ofNat 8 (r.field a 1) = b := by
    rw [ModernRow.field, leAt, hb, leNat, leNat, Nat.mul_zero, Nat.add_zero, BitVec.ofNat_toNat,
      BitVec.setWidth_eq]
  rw [hb] at hdrop
  rw [index_of_drop hdrop, hnum]

lemma field_lt (r : ModernRow version) (a k : ℕ) : r.field a k < 256 ^ k :=
  leAt_lt r.fields.toList a k

lemma ofNat_toNat_field (r : ModernRow version) (a : ℕ) :
    (BitVec.ofNat 32 (r.field a 4)).toNat = r.field a 4 := by
  have hlt : r.field a 4 < 2 ^ 32 := field_lt r a 4
  rw [BitVec.toNat_ofNat, Nat.mod_eq_of_lt hlt]

/-- The wide offset is a low and a high word. -/
lemma field_eight (r : ModernRow version) (h : 21 ≤ entryDataSize version) :
    r.field 13 8 = r.field 13 4 + 2 ^ 32 * r.field 17 4 := by
  have hsplit : (r.fields.toList.drop 13).take 8 =
      (r.fields.toList.drop 13).take 4 ++ (r.fields.toList.drop 17).take 4 := by
    rw [List.take_add (i := 4) (j := 4), List.drop_drop]
  have hlen : ((r.fields.toList.drop 13).take 4).length = 4 := by
    rw [List.length_take, List.length_drop, Vector.length_toList]
    omega
  rw [ModernRow.field, leAt, hsplit, leNat_append, hlen]
  rfl

lemma entryDataSize_ge (version : BitVec 32) : 17 ≤ entryDataSize version := by
  unfold entryDataSize
  split <;> omega

/-- The offset of a row, in the width of its version. -/
lemma modernOffset_field (h : data.drop p = r.fields.toList ++ rest) :
    modernOffset data version (p + 13) =
      .ok (r.field 13 (if version = 0x300 then 8 else 4)) := by
  have hsize := entryDataSize_ge version
  unfold modernOffset
  rw [u32Le_field h 13 (by omega), ok_bind]
  by_cases hv : version = 0x300
  · have hwide : 21 ≤ entryDataSize version := by rw [entryDataSize, if_pos hv]
    have hsum : (BitVec.ofNat 32 (r.field 17 4)).toNat <<< 32 +
        (BitVec.ofNat 32 (r.field 13 4)).toNat = r.field 13 8 := by
      rw [ofNat_toNat_field, ofNat_toNat_field, Nat.shiftLeft_eq, field_eight r hwide]
      ring
    have hword : r.field 13 8 < 2 ^ 64 := field_lt r 13 8
    rw [if_pos hv, if_pos hv, u32Le_field h 17 (by omega), ok_bind, add_eq (by rwa [hsum]), hsum]
  · rw [if_neg hv, if_neg hv, ofNat_toNat_field]
    rfl

/-- The entry data at the fields of a row, with the type of a stored file put right, is the
entry of the row. -/
lemma modernEntry_row (h : data.drop p = r.fields.toList ++ rest) :
    ∃ e, modernEntry data version p = .ok e ∧ storedAsFile e = r.entry := by
  have hsize := entryDataSize_ge version
  have hzero : u32Le data p = .ok (BitVec.ofNat 32 (r.field 0 4)) :=
    u32Le_field h 0 (by omega)
  unfold modernEntry
  rw [hzero, ok_bind, u32Le_field h 4 (by omega), ok_bind, u32Le_field h 8 (by omega), ok_bind,
    index_field h 12 (by omega), ok_bind, modernOffset_field h, ok_bind]
  refine ⟨_, rfl, ?_⟩
  have hkind : BitVec.ofNat 8 (r.field 12 1) = 0 ↔ r.field 12 1 = 0 := by
    have hlt : r.field 12 1 < 2 ^ 8 := field_lt r 12 1
    rw [← BitVec.toNat_inj, BitVec.toNat_ofNat, Nat.mod_eq_of_lt hlt]
    rfl
  have hequal : BitVec.ofNat 32 (r.field 0 4) = BitVec.ofNat 32 (r.field 8 4) ↔
      r.field 0 4 = r.field 8 4 := by
    rw [← BitVec.toNat_inj, ofNat_toNat_field, ofNat_toNat_field]
  unfold storedAsFile ModernRow.entry
  simp only [hkind, hequal, ofNat_toNat_field]
  split <;> rfl

/-- One turn of the walk, at a name and the data of its entry. -/
lemma modernEntries_turn (hdata : data.length < maxSlice) {name fields : List Byte} {e : GrfEntry}
    (h : data.drop p = name ++ 0 :: (fields ++ rest)) (hname : (0 : Byte) ∉ name)
    (hfields : fields.length = entryDataSize version)
    (he : modernEntry data version (p + name.length + 1) = .ok e) (n i : ℕ) :
    modernEntries data version (n + 1) i p =
      (modernEntries data version n (i + 1) (p + name.length + 1 + entryDataSize version) >>=
        fun out => .ok ((⟨p, p + name.length⟩, storedAsFile e) :: out)) := by
  have hlen := le_length_of_drop h (by simp)
  rw [List.length_append, List.length_cons, List.length_append, hfields] at hlen
  unfold maxSlice at hdata
  rw [modernEntries, if_neg (by omega), nameEnd_of_drop h hname, ok_bind]
  simp only
  rw [add_eq (by omega), ok_bind, add_eq (by omega), ok_bind,
    if_neg (by omega), he, ok_bind]
  rfl

/-- **One turn of the walk at a row** lists it and goes on behind it. -/
lemma modernEntries_row (hdata : data.length < maxSlice) (h : data.drop p = r.bytes ++ rest)
    (n i : ℕ) :
    modernEntries data version (n + 1) i p =
      (modernEntries data version n (i + 1) (p + r.bytes.length) >>= fun out =>
        .ok ((⟨p, p + r.name.length⟩, r.entry) :: out)) := by
  have hbytes : data.drop p = r.name ++ 0 :: (r.fields.toList ++ rest) := by
    rw [h, ModernRow.bytes, List.append_assoc, List.cons_append]
  have hfields : data.drop (p + r.name.length + 1) = r.fields.toList ++ rest :=
    drop_of_drop_eq (l := [0]) (drop_of_drop hbytes) rfl
  obtain ⟨e, he, hstored⟩ := modernEntry_row hfields
  have hsum : p + r.bytes.length = p + r.name.length + 1 + entryDataSize version := by
    rw [ModernRow.length_bytes]
    omega
  rw [modernEntries_turn hdata hbytes r.nul_free Vector.length_toList he, hstored, hsum]

/-- Where the table does not start with a row, the walk ends with an error. -/
lemma modernEntries_no_row (hdata : data.length < maxSlice)
    (h : ∀ (r : ModernRow version) (rest : List Byte), data.drop p ≠ r.bytes ++ rest) (n i : ℕ) :
    ∃ e, modernEntries data version (n + 1) i p = fail e := by
  unfold maxSlice at hdata
  have hwide : entryDataSize version ≤ 21 := by unfold entryDataSize; split <;> omega
  unfold modernEntries
  by_cases hp : data.length ≤ p
  · exact ⟨_, if_pos hp⟩
  rw [if_neg hp]
  by_cases hnul : (0 : Byte) ∈ data.drop p
  · -- The name ends, so it is the data behind it that does not fit.
    obtain ⟨name, rest, hsplit, hname⟩ := List.eq_append_cons_of_mem hnul
    have hlen := le_length_of_drop hsplit (by simp)
    rw [List.length_append, List.length_cons] at hlen
    have hshort : rest.length < entryDataSize version := by
      by_contra hge
      have hfields : (rest.take (entryDataSize version)).length = entryDataSize version := by
        rw [List.length_take]
        omega
      refine h ⟨name, hname, ⟨(rest.take (entryDataSize version)).toArray, hfields⟩⟩
        (rest.drop (entryDataSize version)) ?_
      rw [hsplit, ModernRow.bytes, List.append_assoc, List.cons_append]
      simp
    rw [nameEnd_of_drop hsplit hname, ok_bind]
    simp only
    rw [add_eq (by omega), ok_bind, add_eq (by omega), ok_bind,
      if_pos (by omega)]
    exact ⟨_, rfl⟩
  · -- The name runs to the end of the table.
    rw [nameEnd_of_nul_free hnul (by omega), ok_bind]
    simp only
    rw [add_eq (by omega), ok_bind, add_eq (by omega), ok_bind,
      if_pos (by omega)]
    exact ⟨_, rfl⟩

end Turn

/-! ## The walk -/

section Walk

variable {version : BitVec 32} {data : List Byte}

/-- The walk lists the rows it finds. -/
lemma modernEntries_rows (hdata : data.length < maxSlice) {rows : List (ModernRow version)}
    {rest : List Byte} {p : ℕ} (h : data.drop p = rows.flatMap ModernRow.bytes ++ rest) (i : ℕ) :
    modernEntries data version rows.length i p = .ok (ModernRow.listing p rows) := by
  induction rows generalizing i p with
  | nil => rfl
  | cons r rows ih =>
    rw [List.flatMap_cons, List.append_assoc] at h
    rw [List.length_cons, modernEntries_row hdata h, ih (drop_of_drop h), ok_bind]
    rfl

/-- What the walk accepts starts with as many rows as it was to read. -/
lemma exists_rows (hdata : data.length < maxSlice) {n i p : ℕ}
    {out : List (ByteRange × GrfEntry)} (h : modernEntries data version n i p = .ok out) :
    ∃ (rows : List (ModernRow version)) (rest : List Byte), rows.length = n ∧
      data.drop p = rows.flatMap ModernRow.bytes ++ rest := by
  induction n generalizing i p out with
  | zero => exact ⟨[], data.drop p, rfl, rfl⟩
  | succ n ih =>
    by_cases hrow : ∃ (r : ModernRow version) (rest : List Byte), data.drop p = r.bytes ++ rest
    · obtain ⟨r, rest, hr⟩ := hrow
      rw [modernEntries_row hdata hr] at h
      obtain ⟨out', hout', -⟩ := bind_eq_ok.mp h
      obtain ⟨rows, rest', hlen, hrows⟩ := ih hout'
      rw [drop_of_drop hr] at hrows
      refine ⟨r :: rows, rest', by rw [List.length_cons, hlen], ?_⟩
      rw [hr, hrows, List.flatMap_cons, List.append_assoc]
    · obtain ⟨e, he⟩ := modernEntries_no_row hdata (fun r rest hr => hrow ⟨r, rest, hr⟩) n i
      rw [he] at h
      exact absurd h (by simp [fail])

/-- What the reader accepts, and what it makes of it. -/
lemma readModernTable_iff (hdata : data.length < maxSlice) (n : ℕ)
    (out : List (ByteRange × GrfEntry)) :
    readModernTable data n version = .ok out ↔
      ∃ (rows : List (ModernRow version)) (rest : List Byte), rows.length = n ∧
        data = rows.flatMap ModernRow.bytes ++ rest ∧ out = ModernRow.listing 0 rows := by
  constructor
  · intro h
    obtain ⟨rows, rest, hlen, hrows⟩ := exists_rows hdata h
    have hwalk := modernEntries_rows hdata hrows 0
    rw [hlen] at hwalk
    exact ⟨rows, rest, hlen, hrows, Except.ok.inj (h.symm.trans hwalk)⟩
  · rintro ⟨rows, rest, rfl, hrows, rfl⟩
    exact modernEntries_rows hdata (p := 0) hrows 0

/-- **The walk accepts exactly its grammar.**  A table is accepted when it starts with as many
rows as were to be read, and they are what is listed; what is appended to an accepted table
changes nothing; and no part of the rows that is cut off short is accepted. -/
theorem readModernTable_grammar (version : BitVec 32) (data : Slice) (n : ℕ) :
    (∀ out, readModernTable data n version = .ok out ↔
      ∃ (rows : List (ModernRow version)) (rest : List Byte), rows.length = n ∧
        data = rows.flatMap ModernRow.bytes ++ rest ∧ out = ModernRow.listing 0 rows) ∧
    (∀ (longer : Slice) out, data.val <+: longer.val →
      readModernTable data n version = .ok out → readModernTable longer n version = .ok out) ∧
    (∀ rows : List (ModernRow version), rows.length = n →
      data.val <+: rows.flatMap ModernRow.bytes → data.val ≠ rows.flatMap ModernRow.bytes →
      ∀ out, readModernTable data n version ≠ .ok out) := by
  refine ⟨readModernTable_iff data.2 n, ?_, ?_⟩
  · rintro longer out ⟨more, hmore⟩ h
    obtain ⟨rows, rest, hlen, hrows, hout⟩ := (readModernTable_iff data.2 n out).mp h
    refine (readModernTable_iff longer.2 n out).mpr ⟨rows, rest ++ more, hlen, ?_, hout⟩
    rw [← hmore, hrows, List.append_assoc]
  · rintro rows hlen ⟨more, hmore⟩ hne out h
    obtain ⟨rows', rest, hlen', hrows, -⟩ := (readModernTable_iff data.2 n out).mp h
    rw [hrows, List.append_assoc] at hmore
    have hsame : rows'.flatMap ModernRow.bytes ++ (rest ++ more) =
        rows.flatMap ModernRow.bytes ++ [] := by rw [hmore, List.append_nil]
    obtain ⟨hrow, hnil⟩ := ModernRow.flatMap_bytes_inj hsame (hlen'.trans hlen.symm)
    obtain ⟨hrest, -⟩ := List.append_eq_nil_iff.mp hnil
    apply hne
    rw [hrows, hrest, List.append_nil, hrow]

end Walk

end Grf
end RemoteClient
