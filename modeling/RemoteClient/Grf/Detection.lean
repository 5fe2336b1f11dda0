/-
# Which encoding is detected

The detection reads the first names that have bytes above ASCII, decodes them both ways and
compares bad characters per byte, pooled over these names, with a threshold of one in a
hundred.  A Korean name that is not UTF-8 counts as long as it is, its bad characters may be
few, so it is the length of the names that decides: `koreanNames_detected` says when the
encoding is CP949, and `longName_undetected` is a Korean archive that is taken for UTF-8.
-/
import RemoteClient.Grf.ModernTable
import Mathlib.Algebra.Order.BigOperators.Group.List
import Mathlib.Algebra.Order.Field.Basic
import Mathlib.Algebra.BigOperators.Ring.List
import Mathlib.Tactic.NormNum

namespace RemoteClient
namespace Grf

open Exec Bytes Encoding

variable {T : TextLib}

/-! ## The sample -/

/-- The bytes of the names of a table. -/
def tableNames (data : List Byte) (entries : List (ByteRange × GrfEntry)) : List (List Byte) :=
  entries.map fun item => (data.drop item.1.start).take (item.1.stop - item.1.start)

/-- The names the detection looks at. -/
def sampled (data : List Byte) (entries : List (ByteRange × GrfEntry)) : List (List Byte) :=
  ((tableNames data entries).filter hasHighByte).take detectSampleCount

lemma sampleNames_eq {data : List Byte} {entries : List (ByteRange × GrfEntry)}
    (h : RangesIn data entries) (n : ℕ) :
    sampleNames data n entries =
      .ok (((tableNames data entries).filter hasHighByte).take n) := by
  induction entries generalizing n with
  | nil => cases n <;> rfl
  | cons item entries ih =>
    have hitem := h item List.mem_cons_self
    have htail := ih fun e he => h e (List.mem_cons_of_mem item he)
    cases n with
    | zero => rfl
    | succ n =>
      rw [sampleNames, slice_eq hitem.1 hitem.2, ok_bind, tableNames, List.map_cons,
        List.filter_cons]
      split
      · rw [htail n, ok_bind]
        rfl
      · exact htail (n + 1)

lemma hasHighByte_of_sampled {data : List Byte} {entries : List (ByteRange × GrfEntry)}
    {name : List Byte} (h : name ∈ sampled data entries) :
    name ∈ tableNames data entries ∧ hasHighByte name = true :=
  List.mem_filter.mp (List.mem_of_mem_take h)

/-! ## The decision -/

/-- The bad characters of names read as UTF-8. -/
def utf8Bad (T : TextLib) (names : List (List Byte)) : ℕ :=
  (names.map fun name => countBadChars (utf8DecodeLossy T name)).sum

def totalBytes (names : List (List Byte)) : ℕ := (names.map List.length).sum

lemma totalBytes_pos {names : List (List Byte)} (hne : names ≠ [])
    (hhigh : ∀ name ∈ names, hasHighByte name = true) : 0 < totalBytes names := by
  obtain ⟨name, rest, rfl⟩ := List.exists_cons_of_ne_nil hne
  obtain ⟨b, hb, -⟩ := List.any_eq_true.mp (hhigh name List.mem_cons_self)
  have hlen := List.length_pos_of_mem hb
  rw [totalBytes, List.map_cons, List.sum_cons]
  omega

/-- Names that CP949 decodes without a bad character are taken for CP949 when one byte in a
hundred is a bad character of UTF-8. -/
lemma detectBestEncoding_iff {names : List (List Byte)} (hne : names ≠ [])
    (hhigh : ∀ name ∈ names, hasHighByte name = true)
    (hclean : ∀ name ∈ names, countBadChars (cp949Decode T name) = 0) :
    detectBestEncoding T names autoDetectThreshold = .cp949 ↔
      totalBytes names ≤ 100 * utf8Bad T names := by
  have hfilter : names.filter hasHighByte = names := List.filter_eq_self.mpr hhigh
  have hzero : (names.map fun name => countBadChars (cp949Decode T name)).sum = 0 := by
    rw [List.sum_eq_zero_iff_forall_eq_nat]
    intro k hk
    obtain ⟨name, hname, rfl⟩ := List.mem_map.mp hk
    exact hclean name hname
  have hpos : 0 < totalBytes names := totalBytes_pos hne hhigh
  have hq : (0 : ℚ) < totalBytes names := by exact_mod_cast hpos
  -- The threshold is a hundredth, so the comparison is one of natural numbers.
  have hratio : (utf8Bad T names : ℚ) / totalBytes names < autoDetectThreshold ↔
      100 * utf8Bad T names < totalBytes names := by
    rw [autoDetectThreshold, div_lt_div_iff₀ hq (by norm_num), one_mul, mul_comm]
    norm_cast
  unfold detectBestEncoding
  simp only [hfilter, hzero, if_neg hne]
  change (if (utf8Bad T names : ℚ) / totalBytes names < autoDetectThreshold then _
    else if ((0 : ℕ) : ℚ) / totalBytes names < (utf8Bad T names : ℚ) / totalBytes names then _
    else _) = _ ↔ _
  by_cases hfew : 100 * utf8Bad T names < totalBytes names
  · rw [if_pos (hratio.mpr hfew)]
    constructor
    · intro h; exact absurd h (by decide)
    · intro h; omega
  · have hbad : ((0 : ℕ) : ℚ) / totalBytes names < (utf8Bad T names : ℚ) / totalBytes names := by
      have hb : (0 : ℚ) < utf8Bad T names := by
        have : 0 < utf8Bad T names := by omega
        exact_mod_cast this
      rw [Nat.cast_zero, zero_div]
      exact div_pos hb hq
    rw [if_neg fun h => hfew (hratio.mp h), if_pos hbad]
    constructor
    · intro _; omega
    · intro _; rfl

/-! ## Korean archives -/

/-- What the decoders of the libraries do to Korean names: valid CP949 decodes without a bad
character, and what is not UTF-8 decodes with a replacement character. -/
structure Detectable (T : TextLib) (IsCp949 : List Byte → Prop) : Prop where
  cp949 : ∀ name, IsCp949 name →
    ∀ c ∈ T.eucKrDecode name, ¬ (c.toNat = 0xFFFD ∨ 0x80 ≤ c.toNat ∧ c.toNat ≤ 0x9F)
  utf8 : ∀ name, T.fromUtf8 name = none → ∃ c ∈ T.fromUtf8Lossy name, c.toNat = 0xFFFD

/-- The names of a Korean archive: some have bytes above ASCII, and those that do are valid
CP949 and no valid UTF-8. -/
structure Korean (T : TextLib) (IsCp949 : List Byte → Prop) (names : List (List Byte)) :
    Prop where
  high : ∃ name ∈ names, hasHighByte name = true
  cp949 : ∀ name ∈ names, hasHighByte name = true → IsCp949 name
  not_utf8 : ∀ name ∈ names, hasHighByte name = true → T.fromUtf8 name = none

variable {IsCp949 : List Byte → Prop}

lemma Detectable.cp949_clean (hT : Detectable T IsCp949) {name : List Byte}
    (h : IsCp949 name) : countBadChars (cp949Decode T name) = 0 := by
  rw [countBadChars, List.length_eq_zero_iff, List.filter_eq_nil_iff]
  intro c hc hbad
  exact hT.cp949 name h c hc (of_decide_eq_true hbad)

lemma Detectable.utf8_bad (hT : Detectable T IsCp949) {name : List Byte}
    (h : T.fromUtf8 name = none) : 1 ≤ countBadChars (utf8DecodeLossy T name) := by
  obtain ⟨c, hc, hbad⟩ := hT.utf8 name h
  exact List.length_pos_of_mem (List.mem_filter.mpr ⟨hc, decide_eq_true (Or.inl hbad)⟩)

lemma sampled_ne_nil {data : List Byte} {entries : List (ByteRange × GrfEntry)}
    (h : ∃ name ∈ tableNames data entries, hasHighByte name = true) :
    sampled data entries ≠ [] := by
  obtain ⟨name, hname, hhigh⟩ := h
  have hmem : name ∈ (tableNames data entries).filter hasHighByte :=
    List.mem_filter.mpr ⟨hname, hhigh⟩
  rw [sampled]
  intro hnil
  rw [List.take_eq_nil_iff] at hnil
  rcases hnil with hcount | hempty
  · exact absurd hcount (by decide)
  · rw [hempty] at hmem
    exact absurd hmem (by simp)

/-- **When a Korean archive is recognised**: exactly when the names the detection looks at,
read as UTF-8, have a bad character for every hundred of their bytes, and so whenever none of
them is longer than a hundred bytes. -/
theorem koreanNames_detected (hT : Detectable T IsCp949) {data : List Byte}
    {entries : List (ByteRange × GrfEntry)} (hranges : RangesIn data entries)
    (hkorean : Korean T IsCp949 (tableNames data entries)) :
    (chooseEncoding T none data entries = .ok .cp949 ↔
      totalBytes (sampled data entries) ≤ 100 * utf8Bad T (sampled data entries)) ∧
    ((∀ name ∈ sampled data entries, name.length ≤ 100) →
      chooseEncoding T none data entries = .ok .cp949) := by
  have hchoose : chooseEncoding T none data entries =
      .ok (detectBestEncoding T (sampled data entries) autoDetectThreshold) := by
    rw [chooseEncoding, sampleNames_eq hranges, ok_bind]
    rfl
  have hdetect := detectBestEncoding_iff (T := T) (sampled_ne_nil hkorean.high)
    (fun name hname => (hasHighByte_of_sampled hname).2)
    fun name hname =>
      hT.cp949_clean (hkorean.cp949 name (hasHighByte_of_sampled hname).1
        (hasHighByte_of_sampled hname).2)
  have hiff : chooseEncoding T none data entries = .ok .cp949 ↔
      totalBytes (sampled data entries) ≤ 100 * utf8Bad T (sampled data entries) := by
    rw [hchoose, Except.ok.injEq, hdetect]
  refine ⟨hiff, fun hshort => hiff.mpr ?_⟩
  -- Each name has a bad character, and no more than a hundred bytes.
  rw [totalBytes, utf8Bad, ← List.sum_map_mul_left]
  refine List.sum_le_sum fun name hname => ?_
  obtain ⟨hmem, hhigh⟩ := hasHighByte_of_sampled hname
  have hbad := hT.utf8_bad (hkorean.not_utf8 name hmem hhigh)
  have hlen := hshort name hname
  omega

/-! ## Long names -/

/-- `EUC_KR.decode`, with as much of CP949 as one syllable needs. -/
def decodeSyllables : List Byte → Str
  | [] => []
  | [b] => [Char.ofNat b.toNat]
  | b :: b' :: l =>
    if b = 0xB0 ∧ b' = 0xA1 then '가' :: decodeSyllables l
    else Char.ofNat b.toNat :: decodeSyllables (b' :: l)

/-- ASCII and that syllable. -/
inductive Syllables : List Byte → Prop where
  | nil : Syllables []
  | ascii (b : Byte) {l : List Byte} : b.toNat ≤ 0x7F → Syllables l → Syllables (b :: l)
  | syllable {l : List Byte} : Syllables l → Syllables (0xB0 :: 0xA1 :: l)

/-- In UTF-8 neither byte of the syllable starts a character. -/
def syllableText : TextLib :=
  { TextLib.ascii with
    eucKrDecode := decodeSyllables
    fromUtf8Lossy := fun bytes => bytes.map fun b =>
      if b.toNat ≤ 0x7F then Char.ofNat b.toNat else Char.ofNat 0xFFFD }

lemma decodeSyllables_ascii {b : Byte} (hb : b.toNat ≤ 0x7F) (l : List Byte) :
    decodeSyllables (b :: l) = Char.ofNat b.toNat :: decodeSyllables l := by
  have hne : b ≠ 0xB0 := by
    rintro rfl
    exact absurd hb (by decide)
  cases l with
  | nil => rfl
  | cons b' l => rw [decodeSyllables, if_neg fun h => hne h.1]

lemma detectable_syllableText : Detectable syllableText Syllables where
  cp949 := by
    intro name hname
    induction hname with
    | nil => intro c hc; exact absurd hc (by simp [syllableText, decodeSyllables])
    | @ascii b l hb _ ih =>
      intro c hc
      have hdecode : syllableText.eucKrDecode (b :: l) = _ := decodeSyllables_ascii hb l
      rw [hdecode] at hc
      rcases List.mem_cons.mp hc with rfl | hc
      · rw [toNat_ofNat_byte]
        omega
      · exact ih c hc
    | @syllable l _ ih =>
      intro c hc
      have hdecode : syllableText.eucKrDecode (0xB0 :: 0xA1 :: l) = '가' :: decodeSyllables l := by
        change decodeSyllables (0xB0 :: 0xA1 :: l) = _
        rw [decodeSyllables, if_pos ⟨rfl, rfl⟩]
      rw [hdecode] at hc
      rcases List.mem_cons.mp hc with rfl | hc
      · decide
      · exact ih c hc
  utf8 := by
    intro name hname
    have hhigh : hasHighByte name = true := by
      by_contra hlow
      have hsome : syllableText.fromUtf8 name = some (latin1Decode name) := if_neg hlow
      rw [hname] at hsome
      exact absurd hsome (by simp)
    obtain ⟨b, hb, hlt⟩ := List.any_eq_true.mp hhigh
    have hgt := of_decide_eq_true hlt
    refine ⟨Char.ofNat 0xFFFD, List.mem_map.mpr ⟨b, hb, if_neg (by omega)⟩, by decide⟩

/-- Letters and a syllable. -/
def syllableName (letters : ℕ) : List Byte := List.replicate letters 0x61 ++ [0xB0, 0xA1]

lemma syllables_name (letters : ℕ) : Syllables (syllableName letters) := by
  induction letters with
  | zero => exact .syllable .nil
  | succ letters ih => exact .ascii 0x61 (by decide) ih

lemma korean_syllableName (letters : ℕ) : Korean syllableText Syllables [syllableName letters] := by
  have hhigh : hasHighByte (syllableName letters) = true :=
    List.any_eq_true.mpr ⟨0xB0, by simp [syllableName], by decide⟩
  refine ⟨⟨_, List.mem_singleton_self _, hhigh⟩, ?_, ?_⟩
  · intro name hname _
    obtain rfl := List.mem_singleton.mp hname
    exact syllables_name letters
  · intro name _ hname
    exact if_pos hname

/-- The row of a file whose name is 250 letters and a syllable. -/
def longRow : ModernRow 0x200 where
  name := syllableName 250
  nul_free := by decide +kernel
  fields := (#v[1, 0, 0, 0, 8, 0, 0, 0, 1, 0, 0, 0, 1, 0, 0, 0, 0] : Vector Byte 17)

def longTable : List Byte := longRow.bytes

def longEntries : List (ByteRange × GrfEntry) := ModernRow.listing 0 [longRow]

/-- **A Korean archive that is not recognised.**  Its only name is valid CP949 and no UTF-8,
but of its 252 bytes only two decode to bad characters: the encoding is UTF-8. -/
theorem longName_undetected :
    Detectable syllableText Syllables ∧
    readModernTable longTable 1 0x200 = .ok longEntries ∧
    Korean syllableText Syllables (tableNames longTable longEntries) ∧
    chooseEncoding syllableText none longTable longEntries = .ok .utf8 := by
  have hnames : tableNames longTable longEntries = [syllableName 250] := by decide +kernel
  refine ⟨detectable_syllableText, ?_, ?_, ?_⟩
  · have hrows : longTable.drop 0 = [longRow].flatMap ModernRow.bytes ++ [] := by
      simp [longTable]
    exact modernEntries_rows (by decide +kernel) hrows 0
  · rw [hnames]
    exact korean_syllableName 250
  · decide +kernel

/-- A name of three letters and a syllable is recognised. -/
theorem koreanNames_detected_sample :
    chooseEncoding syllableText none (syllableName 3) [(⟨0, 5⟩, longRow.entry)] = .ok .cp949 := by
  have hnames : tableNames (syllableName 3) [(⟨0, 5⟩, longRow.entry)] = [syllableName 3] := by
    decide
  refine (koreanNames_detected detectable_syllableText ?_ ?_).2 ?_
  · intro item hitem
    obtain rfl := List.mem_singleton.mp hitem
    decide
  · rw [hnames]
    exact korean_syllableName 3
  · rw [sampled, hnames]
    decide

end Grf
end RemoteClient
