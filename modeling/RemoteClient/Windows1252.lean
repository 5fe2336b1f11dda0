/-
# Names in windows-1252

A browser reads the tables of the game as windows-1252, which has letters of its own for most of
the bytes from 0x80 to 0x9F.  So a Korean name with such a byte is asked for in letters that are
not those of its mojibake.  `windows1252ToLatin1` puts exactly these letters back
(`windows1252ToLatin1_decode`), and the archives answer such a request as they answer the mojibake
(`windows1252_reaches`).
-/
import RemoteClient.Readings

namespace RemoteClient

open Exec Grf AssetIndex

namespace Encoding

/-! ## The letters -/

/-- A byte for which windows-1252 has a letter of its own. -/
def hasLetter (b : Byte) : Bool := windows1252High.any fun x => x.2 = b

/-- The character of a byte in windows-1252. -/
def windows1252Char (b : Byte) : Char :=
  ((windows1252High.find? fun x => x.2 = b).map fun x => Char.ofNat x.1).getD (Char.ofNat b.toNat)

/-- What a browser reads. -/
def windows1252Decode (bytes : List Byte) : Str := bytes.map windows1252Char

/-- The letters of the table are those of its bytes. -/
lemma lookup_windows1252Char : ∀ b : Byte, windows1252High.lookup (windows1252Char b).toNat =
    if hasLetter b = true then some b else none := by decide +kernel

lemma windows1252Char_of_not : ∀ b : Byte, hasLetter b = false →
    windows1252Char b = Char.ofNat b.toNat := by decide +kernel

lemma windows1252Decode_of_not {bytes : List Byte} (h : bytes.any hasLetter = false) :
    windows1252Decode bytes = latin1Decode bytes :=
  List.map_congr_left fun b hb => windows1252Char_of_not b (by simpa using List.any_eq_false.mp h b hb)

/-- **The letters are put back to their bytes**, whatever else is in the text. -/
lemma windows1252ToLatin1_decode (bytes : List Byte) :
    windows1252ToLatin1 (windows1252Decode bytes) =
      if bytes.any hasLetter = true then some (latin1Decode bytes) else none := by
  have hany : ((windows1252Decode bytes).any fun c => (windows1252High.lookup c.toNat).isSome) =
      bytes.any hasLetter := by
    rw [windows1252Decode, List.any_map]
    congr 1
    funext b
    rw [Function.comp_apply, lookup_windows1252Char]
    cases hasLetter b <;> rfl
  rw [windows1252ToLatin1]
  simp only [hany]
  refine if_congr Iff.rfl (congrArg some ?_) rfl
  rw [windows1252Decode, List.map_map, latin1Decode]
  refine List.map_congr_left fun b _ => ?_
  rw [Function.comp_apply, lookup_windows1252Char]
  cases hletter : hasLetter b with
  | true => rfl
  | false => exact windows1252Char_of_not b hletter

end Encoding

/-! ## Archives -/

variable {T : TextLib}

namespace Client

variable {c : Client} {reqPath : Str}

/-- What is looked up in the end, when the request names nothing as it is spelled. -/
lemma archiveHit_latin1 {latin1 : Str} {found : Option IndexedFile}
    (hself : c.index.lookup c.platform.text reqPath = .ok none)
    (hdecoded : c.index.lookup c.platform.text
      (Encoding.decodeMojibake c.platform.text reqPath) = .ok none)
    (hlatin1 : Encoding.windows1252ToLatin1 reqPath = some latin1)
    (hfound : c.index.lookup c.platform.text latin1 = .ok found) (hsome : found.isSome = true) :
    c.archiveHit reqPath = .ok found := by
  obtain ⟨file, rfl⟩ := Option.isSome_iff_exists.mp hsome
  have hsecond : archiveHit.lookupDecoded c reqPath = .ok none := by
    unfold archiveHit.lookupDecoded
    dsimp only
    split
    · exact hdecoded
    · rfl
  unfold archiveHit
  rw [hself, ok_bind]
  dsimp only
  rw [hsecond, ok_bind]
  dsimp only
  rw [hlatin1]
  dsimp only
  rw [hfound]
  rfl

/-- A request that names something as it is spelled. -/
lemma archiveHit_self {found : Option IndexedFile}
    (hself : c.index.lookup c.platform.text reqPath = .ok found) (hsome : found.isSome = true) :
    c.archiveHit reqPath = .ok found := by
  obtain ⟨file, rfl⟩ := Option.isSome_iff_exists.mp hsome
  unfold archiveHit
  rw [hself]
  rfl

/-- The look-ups do not fail, so one of a wording that names something finds something. -/
lemma archiveHit_finds {grfs : List Grf} (hindex : c.index = build c.platform.text grfs)
    (hfiles : (catalog grfs).length < 2 ^ 32) {q : Str} (hq : q ∈ wordings reqPath)
    (hnamed : (scan c.platform.text grfs q).isSome = true) :
    ∃ found, c.archiveHit reqPath = .ok (some found) := by
  have hlookup : ∀ path, c.index.lookup c.platform.text path =
      .ok ((scan c.platform.text grfs path).map indexed) := fun path => by
    rw [hindex, lookup_eq_scan _ hfiles]
  have hdecoded : ∃ found, archiveHit.lookupDecoded c reqPath = .ok found := by
    unfold archiveHit.lookupDecoded
    dsimp only
    split
    · exact ⟨_, hlookup _⟩
    · exact ⟨none, rfl⟩
  obtain ⟨second, hsecond⟩ := hdecoded
  unfold archiveHit
  rw [hlookup, ok_bind]
  cases hself : scan c.platform.text grfs reqPath with
  | some item => exact ⟨indexed item, rfl⟩
  | none =>
    dsimp only [Option.map_none]
    rw [hsecond, ok_bind]
    cases second with
    | some file => exact ⟨file, rfl⟩
    | none =>
      -- The wording that names something is the last one.
      have hne : q ≠ reqPath := fun heq => by
        rw [heq, hself] at hnamed
        exact absurd hnamed (by simp)
      obtain hlatin1 := (List.mem_cons.mp hq).resolve_left hne
      dsimp only
      rw [Option.mem_toList.mp hlatin1]
      dsimp only
      rw [hlookup, ok_bind]
      obtain ⟨item, hitem⟩ := Option.isSome_iff_exists.mp hnamed
      rw [hitem]
      exact ⟨indexed item, rfl⟩

end Client

/-- A file is found by its mojibake, or one before it is. -/
lemma scan_mojibake {grfs : List Grf} {item : ℕ × GrfFile} (hitem : item ∈ catalog grfs) :
    (scan T grfs (Encoding.toMojibake T item.2.name)).isSome = true := by
  rw [scan, List.find?_isSome]
  exact ⟨item, hitem, decide_eq_true (Or.inr rfl)⟩

lemma scan_of_free {grfs : List Grf} {path : Str} (h : Free T (catalog grfs) path) :
    scan T grfs path = none :=
  List.find?_eq_none.mpr fun item hitem hnames => h item hitem (of_decide_eq_true hnames)

/-- **A name in windows-1252 reaches its file.**  For every file of the archives, a request for
its name as a browser reads it in windows-1252 finds a file.  And unless these letters name
another file as they stand, it finds the one that the mojibake of the name finds, which is the
first file in archive order that goes by this mojibake. -/
theorem windows1252_reaches {platform : Platform} {cfg : Config} {grfs : List Grf} {c : Client}
    (hc : c = .new platform cfg grfs) (hfiles : (catalog grfs).length < 2 ^ 32)
    {item : ℕ × GrfFile} (hitem : item ∈ catalog grfs) {reqPath mojibake : Str}
    (hreqPath : reqPath = Encoding.windows1252Decode
      (Encoding.cp949Encode c.platform.text item.2.name))
    (hmojibake : mojibake = Encoding.toMojibake c.platform.text item.2.name) :
    (∃ found, c.archiveHit reqPath = .ok (some found)) ∧
    ((reqPath ≠ mojibake → ∀ q ∈ [reqPath, Encoding.decodeMojibake c.platform.text reqPath],
        Free c.platform.text (catalog grfs) q) →
      c.archiveHit reqPath = .ok ((scan c.platform.text grfs mojibake).map indexed) ∧
      c.archiveData reqPath = c.archiveData mojibake) := by
  have hindex : c.index = build c.platform.text grfs := by
    rw [hc, Client.index_new]
    rfl
  have hlookup : ∀ path, c.index.lookup c.platform.text path =
      .ok ((scan c.platform.text grfs path).map indexed) := fun path => by
    rw [hindex, lookup_eq_scan _ hfiles]
  have hsome : (scan c.platform.text grfs mojibake).isSome = true :=
    hmojibake ▸ scan_mojibake hitem
  have hfound : ((scan c.platform.text grfs mojibake).map indexed).isSome = true := by
    rwa [Option.isSome_map]
  have hself : c.archiveHit mojibake = .ok ((scan c.platform.text grfs mojibake).map indexed) :=
    Client.archiveHit_self (hlookup _) hfound
  have hlatin1 : reqPath ≠ mojibake → Encoding.windows1252ToLatin1 reqPath = some mojibake := by
    intro hne
    rw [hreqPath, Encoding.windows1252ToLatin1_decode, hmojibake]
    refine if_pos ?_
    by_contra hnot
    refine hne (hreqPath.trans ?_)
    rw [Encoding.windows1252Decode_of_not (Bool.eq_false_iff.mpr hnot), hmojibake]
    rfl
  refine ⟨?_, fun hfree => ?_⟩
  · by_cases hne : reqPath = mojibake
    · obtain ⟨found, h⟩ := Option.isSome_iff_exists.mp hfound
      exact ⟨found, by rw [hne, hself, h]⟩
    · exact Client.archiveHit_finds hindex hfiles
        (List.mem_cons_of_mem _ (Option.mem_toList.mpr (hlatin1 hne))) hsome
  · have hhit : c.archiveHit reqPath = .ok ((scan c.platform.text grfs mojibake).map indexed) := by
      by_cases hne : reqPath = mojibake
      · rw [hne, hself]
      · have hnone : ∀ q ∈ [reqPath, Encoding.decodeMojibake c.platform.text reqPath],
            c.index.lookup c.platform.text q = .ok none := by
          intro q hq
          rw [hlookup, scan_of_free (hfree hne q hq)]
          rfl
        exact Client.archiveHit_latin1 (hnone _ (by simp)) (hnone _ (by simp)) (hlatin1 hne)
          (hlookup _) hfound
    exact ⟨hhit, by rw [Client.archiveData, Client.archiveData, hhit, hself]⟩

/-- A syllable with a byte that windows-1252 has a letter for, 0x9F70 of the CP949 table. -/
def lettersText : TextLib :=
  { koreanText with
    eucKrEncode := fun s => s.flatMap fun c => if c = '웤' then [0x9F, 0x70] else eucKrBytes c }

def lettersClient : Client :=
  .new { sampleClient.platform with text := lettersText } sampleClient.cfg [fakeGrf [['웤']]]

/-- It is asked for as `Ÿp`. -/
theorem windows1252_reaches_letters :
    lettersClient.archiveHit ['Ÿ', 'p'] = .ok (some (indexed (0, fakeFile ['웤']))) ∧
    lettersClient.archiveData ['Ÿ', 'p'] =
      lettersClient.archiveData (Encoding.toMojibake lettersText ['웤']) := by
  have hitem : (0, fakeFile ['웤']) ∈ catalog [fakeGrf [['웤']]] := by decide +kernel
  have hreqPath : ['Ÿ', 'p'] =
      Encoding.windows1252Decode (Encoding.cp949Encode lettersText ['웤']) := by decide +kernel
  exact (windows1252_reaches rfl (by decide) hitem hreqPath rfl).2 fun _ => by decide +kernel

end RemoteClient
