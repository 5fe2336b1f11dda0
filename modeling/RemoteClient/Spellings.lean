/-
# The four spellings of a file

A file is asked for by its decoded name or its mojibake name, with either slash.  All four
reach it unless an earlier file claimed one of its keys.  Files with different names can
meet on a key: a key is lowercased after the CP949 bytes were read as Latin-1, so that two
syllables whose bytes differ by the case of a Latin-1 letter share the mojibake key.
`spellings_reach` says exactly when a file is reached by all of its spellings, and
`spellings_collide` is a pair of names for which it is not.
-/
import RemoteClient.Index
import RemoteClient.Lib.Text

namespace RemoteClient

open Exec Grf

/-! ## Lowercasing and slashes -/

/-- Lowercasing commutes with exchanging the slashes. -/
structure SlashStable (T : TextLib) : Prop where
  forward : ∀ s, T.toLowercase (toForward s) = toForward (T.toLowercase s)
  backward : ∀ s, T.toLowercase (toBackward s) = toBackward (T.toLowercase s)

/-- A map of characters commutes with replacing `a` by `b` when it fixes `b` and takes
nothing else to `a`. -/
lemma map_replace_comm {f : Char → Char} {a b : Char} (hb : f b = b)
    (ha : ∀ c, f c = a ↔ c = a) (s : Str) :
    (s.map fun c => if c = a then b else c).map f =
      (s.map f).map fun c => if c = a then b else c := by
  rw [List.map_map, List.map_map]
  refine List.map_congr_left fun c _ => ?_
  by_cases hc : c = a
  · have hfa : f a = a := (ha a).mpr rfl
    simp [hc, hb, hfa]
  · have hfc : f c ≠ a := fun h => hc ((ha c).mp h)
    simp [hc, hfc]

lemma toLower_of_not_ascii {c : Char} (h : ¬c.toNat < 128) : c.toLower = c := by
  unfold Char.toLower
  refine dif_neg fun hand => h ?_
  have hle : c.val.toNat ≤ ('Z' : Char).val.toNat := UInt32.le_iff_toNat_le.mp hand.2
  exact lt_of_le_of_lt hle (by decide)

lemma toLower_eq_slash (c : Char) :
    (c.toLower = '/' ↔ c = '/') ∧ (c.toLower = '\\' ↔ c = '\\') :=
  ⟨Text.toLower_eq_iff (by decide), Text.toLower_eq_iff (by decide)⟩

/-- Exchanging slashes keeps a string within ASCII or out of it. -/
lemma all_ascii_replace {a b : Char} (ha : a.toNat < 0x80) (hb : b.toNat < 0x80) (s : Str) :
    ((s.map fun c => if c = a then b else c).all fun c => decide (c.toNat < 0x80)) =
      s.all fun c => decide (c.toNat < 0x80) := by
  rw [List.all_map]
  refine List.all_congr rfl fun c => ?_
  by_cases hc : c = a
  · simp [hc, ha, hb]
  · simp [hc]

namespace SlashStable

variable {T : TextLib}

lemma jsLowercase_forward (h : SlashStable T) (s : Str) :
    Encoding.jsLowercase T (toForward s) = toForward (Encoding.jsLowercase T s) := by
  have hall := all_ascii_replace (a := '\\') (b := '/') (by decide) (by decide) s
  unfold Encoding.jsLowercase
  rw [toForward, hall]
  split
  · exact map_replace_comm (by decide) (fun c => (toLower_eq_slash c).2) s
  · exact h.forward s

lemma jsLowercase_backward (h : SlashStable T) (s : Str) :
    Encoding.jsLowercase T (toBackward s) = toBackward (Encoding.jsLowercase T s) := by
  have hall := all_ascii_replace (a := '/') (b := '\\') (by decide) (by decide) s
  unfold Encoding.jsLowercase
  rw [toBackward, hall]
  split
  · exact map_replace_comm (by decide) (fun c => (toLower_eq_slash c).1) s
  · exact h.backward s

lemma normForward_toForward (h : SlashStable T) (s : Str) :
    normForward T (toForward s) = normForward T s := by
  rw [normForward, h.jsLowercase_forward, toForward_toForward, normForward]

lemma normForward_toBackward (h : SlashStable T) (s : Str) :
    normForward T (toBackward s) = normForward T s := by
  rw [normForward, h.jsLowercase_backward, toForward_toBackward, normForward]

end SlashStable

namespace AssetIndex

variable {T : TextLib}

/-! ## When all spellings reach a file -/

/-- The four spellings of a name. -/
def spellings (T : TextLib) (name : Str) : List Str :=
  [toForward name, toBackward name, toForward (Encoding.toMojibake T name),
    toBackward (Encoding.toMojibake T name)]

/-- A look-up returns this very file: its archive, its name and its entry. -/
def Reaches (T : TextLib) (grfs : List Grf) (path : Str) (item : ℕ × GrfFile) : Prop :=
  ∃ file, lookup T (build T grfs) path = .ok (some file) ∧ file.grf.toNat = item.1 ∧
    file.name = item.2.name ∧ file.entry = item.2.entry

/-- Two names share a key under which one of them is spelled as mojibake. -/
def MojibakeClash (T : TextLib) (name other : Str) : Prop :=
  normForward T (Encoding.toMojibake T other) = normForward T name ∨
    normForward T other = normForward T (Encoding.toMojibake T name) ∨
    normForward T (Encoding.toMojibake T other) = normForward T (Encoding.toMojibake T name)

/-- What a look-up finds depends on the normal form of the path alone. -/
lemma findIdx?_congr {p q : Str} (h : normForward T p = normForward T q)
    (l : List (ℕ × GrfFile)) :
    (l.findIdx? fun item => decide (Names T p item.2.name)) =
      l.findIdx? fun item => decide (Names T q item.2.name) := by
  congr 1
  funext item
  simp only [Names, h]

lemma reaches_congr (grfs : List Grf) {p q : Str} (h : normForward T p = normForward T q)
    (item : ℕ × GrfFile) : Reaches T grfs p item ↔ Reaches T grfs q item := by
  unfold Reaches
  rw [lookup_eq, lookup_eq, findIdx?_congr h]

/-- What a look-up returns, from the place of the first file the path names. -/
lemma reaches_of_findIdx? {grfs : List Grf} {path : Str} {j : ℕ}
    (hj : ((catalog grfs).findIdx? fun g => decide (Names T path g.2.name)) = some j)
    (item : ℕ × GrfFile) :
    Reaches T grfs path item ↔ ∃ x, (catalog grfs)[j % 2 ^ 32]? = some x ∧
      x.1 % 65536 = item.1 ∧ x.2.name = item.2.name ∧ x.2.entry = item.2.entry := by
  have hgrf : ∀ x : ℕ × GrfFile, (indexed x).grf.toNat = x.1 % 65536 := fun x =>
    BitVec.toNat_ofNat _ _
  unfold Reaches
  rw [lookup_eq, hj, Option.bind_some]
  constructor
  · rintro ⟨file, hfile, hnumber, hname, hentry⟩
    obtain ⟨x, hx, rfl⟩ := Option.map_eq_some_iff.mp (Except.ok.inj hfile)
    exact ⟨x, hx, by rw [← hgrf]; exact hnumber, hname, hentry⟩
  · rintro ⟨x, hx, hnumber, hname, hentry⟩
    exact ⟨indexed x, by rw [hx]; rfl, by rw [hgrf]; exact hnumber, hname, hentry⟩

/-- The place of the first file that a path names. -/
lemma findIdx?_of_first {pre : List (ℕ × GrfFile)} {item : ℕ × GrfFile} {path : Str}
    (hpre : ∀ g ∈ pre, ¬Names T path g.2.name) (hnames : Names T path item.2.name)
    (post : List (ℕ × GrfFile)) :
    ((pre ++ item :: post).findIdx? fun g => decide (Names T path g.2.name)) =
      some pre.length := by
  have hnone : (pre.findIdx? fun g => decide (Names T path g.2.name)) = none := by
    rw [List.findIdx?_eq_none_iff]
    exact fun g hg => decide_eq_false (hpre g hg)
  rw [List.findIdx?_append, hnone, List.findIdx?_cons, if_pos (decide_eq_true hnames)]
  simp

/-- A path that names a file reaches it exactly when it names no earlier one and the file is
within the places the index can count. -/
lemma reaches_iff {grfs : List Grf} {pre post : List (ℕ × GrfFile)} {item : ℕ × GrfFile}
    (hcat : catalog grfs = pre ++ item :: post)
    (hnew : ∀ g ∈ pre, g.2.name ≠ item.2.name) {path : Str} (hpath : Names T path item.2.name) :
    Reaches T grfs path item ↔
      (item.1 < 65536 ∧ pre.length < 2 ^ 32) ∧ ∀ g ∈ pre, ¬Names T path g.2.name := by
  have hget : (catalog grfs)[pre.length]? = some item := by
    rw [hcat, List.getElem?_append_right le_rfl, Nat.sub_self]
    rfl
  -- A file in front of the one in question has another name.
  have hother : ∀ k < pre.length, ∀ x, (catalog grfs)[k]? = some x → x.2.name ≠ item.2.name := by
    intro k hk x hx heq
    rw [hcat, List.getElem?_append_left hk] at hx
    exact hnew x (List.mem_of_getElem? hx) heq
  by_cases hearlier : ∃ g ∈ pre, Names T path g.2.name
  · obtain ⟨g, hg, hnames⟩ := hearlier
    obtain ⟨j, hj⟩ : ∃ j, (pre.findIdx? fun g => decide (Names T path g.2.name)) = some j := by
      rw [← Option.isSome_iff_exists, List.findIdx?_isSome, List.any_eq_true]
      exact ⟨g, hg, decide_eq_true hnames⟩
    have hlt := (List.findIdx?_eq_some_iff_getElem.mp hj).1
    have hfind : ((catalog grfs).findIdx? fun g => decide (Names T path g.2.name)) = some j := by
      rw [hcat, List.findIdx?_append, hj]
      rfl
    rw [reaches_of_findIdx? hfind]
    constructor
    · rintro ⟨x, hx, -, hname, -⟩
      exact absurd hname (hother _ (lt_of_le_of_lt (Nat.mod_le _ _) hlt) x hx)
    · rintro ⟨-, hnone⟩
      exact absurd hnames (hnone g hg)
  · have hnone : ∀ g ∈ pre, ¬Names T path g.2.name := fun g hg h => hearlier ⟨g, hg, h⟩
    have hfind := findIdx?_of_first hnone hpath post
    rw [← hcat] at hfind
    rw [reaches_of_findIdx? hfind]
    constructor
    · rintro ⟨x, hx, hnumber, hname, -⟩
      have hplace : pre.length < 2 ^ 32 := by
        by_contra hbig
        have hmod := Nat.mod_lt pre.length (show 0 < 2 ^ 32 by decide)
        exact hother _ (by omega) x hx hname
      rw [Nat.mod_eq_of_lt hplace, hget] at hx
      obtain rfl := Option.some.inj hx
      exact ⟨⟨by omega, hplace⟩, hnone⟩
    · rintro ⟨⟨hgrf, hplace⟩, -⟩
      exact ⟨item, by rw [Nat.mod_eq_of_lt hplace, hget], Nat.mod_eq_of_lt hgrf, rfl, rfl⟩

/-- **A file is reached by all of its spellings** exactly when no earlier file shares a key
with it under a mojibake spelling.  (Its archive and its place also have to be within what
the index can count.) -/
theorem spellings_reach (hT : SlashStable T) {grfs : List Grf} {pre post : List (ℕ × GrfFile)}
    {item : ℕ × GrfFile} (hcat : catalog grfs = pre ++ item :: post)
    (hnew : ∀ g ∈ pre, normForward T g.2.name ≠ normForward T item.2.name) :
    (∀ path ∈ spellings T item.2.name, Reaches T grfs path item) ↔
      (item.1 < 65536 ∧ pre.length < 2 ^ 32) ∧
        ∀ g ∈ pre, ¬MojibakeClash T item.2.name g.2.name := by
  have hnames : Names T item.2.name item.2.name := .inl rfl
  have hnames' : Names T (Encoding.toMojibake T item.2.name) item.2.name := .inr rfl
  -- Slashes do not matter, so two spellings stand for all four.
  have hall : (∀ path ∈ spellings T item.2.name, Reaches T grfs path item) ↔
      Reaches T grfs item.2.name item ∧ Reaches T grfs (Encoding.toMojibake T item.2.name) item := by
    simp only [spellings, List.forall_mem_cons, List.not_mem_nil, false_implies, implies_true,
      and_true]
    rw [reaches_congr grfs (hT.normForward_toForward _), reaches_congr grfs
      (hT.normForward_toBackward _), reaches_congr grfs (hT.normForward_toForward _),
      reaches_congr grfs (hT.normForward_toBackward _)]
    tauto
  have hother : ∀ g ∈ pre, g.2.name ≠ item.2.name := by
    intro g hg heq
    exact hnew g hg (by rw [heq])
  rw [hall, reaches_iff hcat hother hnames, reaches_iff hcat hother hnames']
  constructor
  · rintro ⟨⟨hsize, hfirst⟩, -, hsecond⟩
    refine ⟨hsize, fun g hg hclash => ?_⟩
    rcases hclash with h | h | h
    · exact hfirst g hg (.inr h.symm)
    · exact hsecond g hg (.inl h.symm)
    · exact hsecond g hg (.inr h.symm)
  · rintro ⟨hsize, hclear⟩
    refine ⟨⟨hsize, fun g hg hnames => ?_⟩, hsize, fun g hg hnames => ?_⟩
    · rcases hnames with h | h
      · exact hnew g hg h.symm
      · exact hclear g hg (.inl h.symm)
    · rcases hnames with h | h
      · exact hclear g hg (.inr (.inl h.symm))
      · exact hclear g hg (.inr (.inr h.symm))

end AssetIndex

/-! ## Two names that collide -/

/-- Lowercasing on ISO-8859-1. -/
def lowerLatin1 (c : Char) : Char :=
  if 0xC0 ≤ c.toNat ∧ c.toNat ≤ 0xDE ∧ c.toNat ≠ 0xD7 then Char.ofNat (c.toNat + 0x20)
  else c.toLower

/-- The bytes of a character: ASCII, the two syllables 0xB0C6 and 0xB0E6 of the CP949 table,
and a numeric reference for everything else. -/
def eucKrBytes (c : Char) : List Byte :=
  if c.toNat < 0x80 then [BitVec.ofNat 8 c.toNat]
  else if c = '걱' then [0xB0, 0xC6]
  else if c = '경' then [0xB0, 0xE6]
  else (['&', '#'] ++ Nat.toDigits 10 c.toNat ++ [';']).map fun d => BitVec.ofNat 8 d.toNat

/-- The text functions, with as much of the CP949 table as two syllables need. -/
def koreanText : TextLib :=
  { TextLib.ascii with
    eucKrEncode := fun s => s.flatMap eucKrBytes
    toLowercase := fun s => s.map lowerLatin1 }

/-- The characters `koreanText` has bytes for. -/
def HasBytes (c : Char) : Prop := c.toNat < 0x80 ∨ c = '걱' ∨ c = '경'

lemma lowerLatin1_eq_slash (c : Char) :
    (lowerLatin1 c = '/' ↔ c = '/') ∧ (lowerLatin1 c = '\\' ↔ c = '\\') := by
  by_cases h : c.toNat < 256
  · exact Text.forall_char_lt (fun c => (lowerLatin1 c = '/' ↔ c = '/') ∧
      (lowerLatin1 c = '\\' ↔ c = '\\')) (by decide +kernel) h
  · have hlower : lowerLatin1 c = c.toLower := if_neg fun hrange => by omega
    rw [hlower]
    exact toLower_eq_slash c

lemma slashStable_koreanText : SlashStable koreanText where
  forward := map_replace_comm (by decide) fun c => (lowerLatin1_eq_slash c).2
  backward := map_replace_comm (by decide) fun c => (lowerLatin1_eq_slash c).1

/-- Two names with the same bytes start with characters of the same bytes. -/
lemma eucKrBytes_cancel {c d : Char} (hc : HasBytes c) (hd : HasBytes d) {l m : List Byte}
    (h : eucKrBytes c ++ l = eucKrBytes d ++ m) : c = d ∧ l = m := by
  have hascii : ∀ {a : Char}, a.toNat < 0x80 → eucKrBytes a = [BitVec.ofNat 8 a.toNat] :=
    fun ha => if_pos ha
  have hfirst : eucKrBytes '걱' = [0xB0, 0xC6] := by decide
  have hsecond : eucKrBytes '경' = [0xB0, 0xE6] := by decide
  -- The first byte of a syllable is above ASCII.
  have hhigh : ∀ {a : Char}, a.toNat < 0x80 → BitVec.ofNat 8 a.toNat ≠ (0xB0 : Byte) := by
    intro a ha heq
    have := congrArg BitVec.toNat heq
    rw [BitVec.toNat_ofNat] at this
    simp at this
    omega
  rcases hc with hc | rfl | rfl <;> rcases hd with hd | rfl | rfl
  · rw [hascii hc, hascii hd] at h
    obtain ⟨hbyte, htail⟩ := List.cons.inj h
    refine ⟨?_, htail⟩
    have hnat := congrArg BitVec.toNat hbyte
    rw [BitVec.toNat_ofNat, BitVec.toNat_ofNat, Nat.mod_eq_of_lt (by omega),
      Nat.mod_eq_of_lt (by omega)] at hnat
    exact Char.toNat_inj.mp hnat
  · rw [hascii hc, hfirst] at h
    exact absurd (List.cons.inj h).1 (hhigh hc)
  · rw [hascii hc, hsecond] at h
    exact absurd (List.cons.inj h).1 (hhigh hc)
  · rw [hascii hd, hfirst] at h
    exact absurd (List.cons.inj h).1.symm (hhigh hd)
  · rw [hfirst] at h
    exact ⟨rfl, by simpa using h⟩
  · rw [hfirst, hsecond] at h
    simp at h
  · rw [hascii hd, hsecond] at h
    exact absurd (List.cons.inj h).1.symm (hhigh hd)
  · rw [hfirst, hsecond] at h
    simp at h
  · rw [hsecond] at h
    exact ⟨rfl, by simpa using h⟩

/-- Distinct names have distinct bytes. -/
lemma eucKrEncode_koreanText_inj {s t : Str} (hs : ∀ c ∈ s, HasBytes c) (ht : ∀ c ∈ t, HasBytes c)
    (h : koreanText.eucKrEncode s = koreanText.eucKrEncode t) : s = t := by
  have hne : ∀ {a : Char}, HasBytes a → eucKrBytes a ≠ [] := by
    intro a ha
    unfold eucKrBytes
    split_ifs <;> simp
  induction s generalizing t with
  | nil =>
    cases t with
    | nil => rfl
    | cons d t =>
      have hnil := (List.append_eq_nil_iff.mp h.symm).1
      exact absurd hnil (hne (ht d (by simp)))
  | cons c s ih =>
    cases t with
    | nil => exact absurd (List.append_eq_nil_iff.mp h).1 (hne (hs c (by simp)))
    | cons d t =>
      obtain ⟨rfl, htail⟩ := eucKrBytes_cancel (hs c (by simp)) (ht d (by simp)) h
      rw [ih (fun a ha => hs a (by simp [ha])) (fun a ha => ht a (by simp [ha])) htail]

namespace AssetIndex

/-- The record of one file of `fakeGrf`. -/
def fakeFile (name : Str) : GrfFile :=
  ⟨name, ⟨0, 1, 1, 1, 1, Vector.replicate 16 0, Vector.replicate 16 0⟩⟩

/-- 0xC6 and 0xE6 are one Latin-1 letter in two cases: asking for the mojibake spelling of the
second file returns the first one, though the names differ and so do their bytes. -/
theorem spellings_collide :
    SlashStable koreanText ∧
    (∀ s t : Str, (∀ c ∈ s, HasBytes c) → (∀ c ∈ t, HasBytes c) →
      koreanText.eucKrEncode s = koreanText.eucKrEncode t → s = t) ∧
    catalog [fakeGrf [['걱'], ['경']]] = [(0, fakeFile ['걱'])] ++ (0, fakeFile ['경']) :: [] ∧
    normForward koreanText ['걱'] ≠ normForward koreanText ['경'] ∧
    toForward (Encoding.toMojibake koreanText ['경']) ∈ spellings koreanText ['경'] ∧
    ¬Reaches koreanText [fakeGrf [['걱'], ['경']]]
      (toForward (Encoding.toMojibake koreanText ['경'])) (0, fakeFile ['경']) ∧
    lookup koreanText (build koreanText [fakeGrf [['걱'], ['경']]])
      (toForward (Encoding.toMojibake koreanText ['경'])) =
        .ok (some (indexed (0, fakeFile ['걱']))) := by
  have hlookup : lookup koreanText (build koreanText [fakeGrf [['걱'], ['경']]])
      (toForward (Encoding.toMojibake koreanText ['경'])) =
        .ok (some (indexed (0, fakeFile ['걱']))) := by
    rw [lookup_eq]
    decide
  refine ⟨slashStable_koreanText, fun s t => eucKrEncode_koreanText_inj, rfl, by decide,
    by simp [spellings], ?_, hlookup⟩
  rintro ⟨file, hfile, -, hname, -⟩
  rw [hlookup] at hfile
  rw [← Option.some.inj (Except.ok.inj hfile)] at hname
  exact absurd hname (by decide)

/-- Behind a file with an unrelated name, the second syllable is reached by its mojibake. -/
theorem spellings_reach_mojibake :
    Reaches koreanText [fakeGrf [['걱', 'a'], ['경']]]
      (toBackward (Encoding.toMojibake koreanText ['경'])) (0, fakeFile ['경']) :=
  (spellings_reach slashStable_koreanText
    (show catalog [fakeGrf [['걱', 'a'], ['경']]] =
      [(0, fakeFile ['걱', 'a'])] ++ (0, fakeFile ['경']) :: [] from rfl)
    (by decide)).mpr ⟨by decide, by unfold MojibakeClash; decide⟩ _ (by simp [spellings, fakeFile])

end AssetIndex
end RemoteClient
