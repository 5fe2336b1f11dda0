/-
# What a request is read as

A request for a file of the archives is looked up as it is spelled and as the Korean name that
its bytes are, and both again with the letters of windows-1252 put back to their bytes.

Both rewritings lose something: a character above U+00FF becomes a question mark, and bytes that
are no CP949 become replacement characters.  So a request may be read as the name of a file that
it is no spelling of (`ReadAs`).  Every answer of the archives comes from a file that the request
spells or is read as, and a request without such a file is a miss (`archive_answers`).
-/
import RemoteClient.Extraction
import RemoteClient.Listing

namespace RemoteClient

open Exec Grf AssetIndex

section

variable (T : TextLib)

/-- A request, and what it is with the letters of windows-1252 put back to their bytes. -/
def wordings (reqPath : Str) : List Str :=
  reqPath :: (Encoding.windows1252ToLatin1 reqPath).toList

/-- The names that are looked up for a request. -/
def readings (reqPath : Str) : List Str :=
  (wordings reqPath).flatMap fun q => [q, Encoding.decodeMojibake T q]

/-- Up to case and slashes, `q` is the name or the mojibake of that name in some case and with
some slashes. -/
def Spells (q name : Str) : Prop :=
  ∃ m, normForward T m = normForward T name ∧
    (normForward T q = normForward T m ∨
      normForward T q = normForward T (Encoding.toMojibake T m))

/-- The Korean reading of `q` is the name without being spelled `q`, or it is its mojibake. -/
def ReadAs (q name : Str) : Prop :=
  let decoded := Encoding.decodeMojibake T q
  normForward T decoded = normForward T name ∧
      normForward T (Encoding.toMojibake T decoded) ≠ normForward T q ∨
    normForward T decoded = normForward T (Encoding.toMojibake T name)

end

variable {T : TextLib}

/-- What names a file spells it. -/
lemma spells_of_names {q name : Str} (h : Names T q name) : Spells T q name := ⟨name, rfl, h⟩

lemma spells_or_readAs {q name : Str} (h : Names T (Encoding.decodeMojibake T q) name) :
    Spells T q name ∨ ReadAs T q name := by
  rcases h with h | h
  · by_cases hback : normForward T (Encoding.toMojibake T (Encoding.decodeMojibake T q)) =
        normForward T q
    · exact Or.inl ⟨Encoding.decodeMojibake T q, h, Or.inr hback.symm⟩
    · exact Or.inr (Or.inl ⟨h, hback⟩)
  · exact Or.inr (Or.inr h)

/-- A reading of a request that names a file. -/
lemma exists_wording {reqPath q name : Str} (hq : q ∈ readings T reqPath) (h : Names T q name) :
    ∃ w ∈ wordings reqPath, Spells T w name ∨ ReadAs T w name := by
  obtain ⟨w, hw, hq⟩ := List.mem_flatMap.mp hq
  refine ⟨w, hw, ?_⟩
  rcases List.mem_cons.mp hq with rfl | hq
  · exact Or.inl (spells_of_names h)
  · obtain rfl := List.mem_singleton.mp hq
    exact spells_or_readAs h

/-! ## What is found -/

/-- A look-up that finds something: the path names a first file, and the place of this one in
32 bits is the place of what is found. -/
lemma lookup_build_some {grfs : List Grf} {path : Str} {found : IndexedFile}
    (h : lookup T (build T grfs) path = .ok (some found)) :
    ∃ j item x, (catalog grfs)[j]? = some item ∧ Names T path item.2.name ∧
      (catalog grfs)[j % 2 ^ 32]? = some x ∧ found = indexed x := by
  rw [lookup_eq] at h
  obtain ⟨x, hx, rfl⟩ := Option.map_eq_some_iff.mp (Except.ok.inj h)
  obtain ⟨j, hj, hx⟩ := Option.bind_eq_some_iff.mp hx
  obtain ⟨hlt, hnames, -⟩ := List.findIdx?_eq_some_iff_getElem.mp hj
  exact ⟨j, _, x, List.getElem?_eq_getElem hlt, of_decide_eq_true hnames, hx, rfl⟩

lemma lookup_build_none {grfs : List Grf} {path : Str} (h : Free T (catalog grfs) path) :
    lookup T (build T grfs) path = .ok none := by
  rw [lookup_eq, (findIdx?_eq_none_iff_free _ path).mpr h]
  rfl

namespace Client

variable {c : Client}

lemma mem_readings_wording {reqPath q : Str} (hq : q ∈ wordings reqPath) :
    q ∈ readings T reqPath ∧ Encoding.decodeMojibake T q ∈ readings T reqPath :=
  ⟨List.mem_flatMap.mpr ⟨q, hq, List.mem_cons_self⟩,
    List.mem_flatMap.mpr ⟨q, hq, List.mem_cons_of_mem _ (List.mem_singleton_self _)⟩⟩

/-- What the archives answer with was found for one of the readings. -/
lemma archiveHit_some {reqPath : Str} {found : IndexedFile}
    (h : c.archiveHit reqPath = .ok (some found)) :
    ∃ q ∈ readings c.platform.text reqPath,
      c.index.lookup c.platform.text q = .ok (some found) := by
  have hself : reqPath ∈ wordings reqPath := List.mem_cons_self
  -- The four look-ups in turn; each later one is made when those before it found nothing.
  unfold archiveHit at h
  obtain ⟨first, hfirst, h⟩ := bind_eq_ok.mp h
  cases first with
  | some file =>
    obtain rfl : file = found := Option.some.inj (Except.ok.inj h)
    exact ⟨reqPath, (mem_readings_wording hself).1, hfirst⟩
  | none =>
    obtain ⟨second, hsecond, h⟩ := bind_eq_ok.mp h
    cases second with
    | some file =>
      obtain rfl : file = found := Option.some.inj (Except.ok.inj h)
      unfold archiveHit.lookupDecoded at hsecond
      dsimp only at hsecond
      split at hsecond
      · exact ⟨_, (mem_readings_wording hself).2, hsecond⟩
      · exact absurd (Except.ok.inj hsecond) (by simp)
    | none =>
      dsimp only at h
      cases hlatin1 : Encoding.windows1252ToLatin1 reqPath with
      | none =>
        rw [hlatin1] at h
        exact absurd (Except.ok.inj h) (by simp)
      | some latin1 =>
        have hmem : latin1 ∈ wordings reqPath :=
          List.mem_cons_of_mem _ (Option.mem_toList.mpr hlatin1)
        rw [hlatin1] at h
        obtain ⟨third, hthird, h⟩ := bind_eq_ok.mp h
        cases third with
        | some file =>
          obtain rfl : file = found := Option.some.inj (Except.ok.inj h)
          exact ⟨latin1, (mem_readings_wording hmem).1, hthird⟩
        | none => exact ⟨_, (mem_readings_wording hmem).2, h⟩

/-- Nothing is found when no reading finds something. -/
lemma archiveHit_none {reqPath : Str} (h : ∀ q ∈ readings c.platform.text reqPath,
      c.index.lookup c.platform.text q = .ok none) : c.archiveHit reqPath = .ok none := by
  have hwording : ∀ q ∈ wordings reqPath, c.index.lookup c.platform.text q = .ok none ∧
      c.index.lookup c.platform.text (Encoding.decodeMojibake c.platform.text q) = .ok none := by
    intro q hq
    exact ⟨h _ (mem_readings_wording hq).1, h _ (mem_readings_wording hq).2⟩
  obtain ⟨hself, hdecoded⟩ := hwording reqPath List.mem_cons_self
  have hsecond : archiveHit.lookupDecoded c reqPath = .ok none := by
    unfold archiveHit.lookupDecoded
    dsimp only
    split
    · exact hdecoded
    · rfl
  unfold archiveHit
  rw [hself, ok_bind]
  dsimp only
  rw [hsecond, ok_bind]
  dsimp only
  cases hlatin1 : Encoding.windows1252ToLatin1 reqPath with
  | none => rfl
  | some latin1 =>
    obtain ⟨hthird, hfourth⟩ := hwording latin1
      (List.mem_cons_of_mem _ (Option.mem_toList.mpr hlatin1))
    dsimp only
    rw [hthird, ok_bind]
    exact hfourth

/-! ## What is answered -/

/-- A path has nothing cached under its key, and no file outside the archives. -/
structure OnlyArchived (c : Client) (disk : FileSystem) (s : Server) (reqPath : Str) : Prop where
  copy : s.copy (c.cacheKey reqPath) = none
  loose : ∀ path, safeJoin c.cfg.root reqPath = some path → disk.fileData path = none
  client : c.clientData disk reqPath = none
  override : c.overrideData disk reqPath = none

/-- Then the sources have what the archives have, if the path is looked for. -/
lemma OnlyArchived.sourceData {disk : FileSystem} {s : Server} {reqPath : Str}
    (h : c.OnlyArchived disk s reqPath) : c.sourceData disk reqPath true =
      if c.looksFor reqPath then c.archiveData reqPath else .ok none := by
  unfold Client.looksFor Client.sourceData Client.fallbackData
  cases publicAssetPath reqPath with
  | false => simp
  | true =>
    cases hjoin : safeJoin c.cfg.root reqPath with
    | none => simp
    | some path =>
      simp [h.loose path hjoin, h.client, h.override, firstOf, Client.gameBytes]

/-- And that is the answer. -/
lemma OnlyArchived.answered {disk : FileSystem} {s : Server} {reqPath : Str}
    (h : c.OnlyArchived disk s reqPath) : c.answered disk s reqPath true =
      if c.looksFor reqPath then c.archiveData reqPath else .ok none := by
  rw [← h.sourceData, Client.answered, h.copy]
  exact ite_self _

lemma archiveData_some {reqPath : Str} {data : List Byte}
    (h : c.archiveData reqPath = .ok (some data)) :
    ∃ found, c.archiveHit reqPath = .ok (some found) ∧ c.readFound found = .ok data := by
  unfold Client.archiveData at h
  split at h
  · exact absurd h (by simp)
  · exact absurd h (by simp)
  · next found hfound =>
    refine ⟨found, hfound, ?_⟩
    split at h
    · next content hread =>
      rw [hread, ← Option.some.inj (Except.ok.inj h)]
    · exact absurd h (by simp)
    · exact absurd h (by simp)
    · exact absurd h (by simp)

/-- What is read is the entry of the file that was found, out of the archive it was found in. -/
lemma readFound_indexed {x : ℕ × GrfFile} {data : List Byte}
    (h : c.readFound (indexed x) = .ok data) : ∃ grf, c.grfs[x.1 % 65536]? = some grf ∧
      readEntry c.platform.flate c.platform.crypto grf x.2.entry = .ok data := by
  unfold Client.readFound at h
  obtain ⟨grf, hgrf, hread⟩ := bind_eq_ok.mp h
  have hplace : (indexed x).grf.toNat = x.1 % 65536 := BitVec.toNat_ofNat _ _
  rw [hplace, lift_eq_ok, index_eq_ok] at hgrf
  exact ⟨grf, hgrf, hread⟩

lemma eq_none_of_bytes {r : Resolved} (h : r.bytes = .ok none) : r = .ok none := by
  cases r with
  | error stop => exact absurd h (by simp [Resolved.bytes, Except.map])
  | ok found =>
    cases found with
    | none => rfl
    | some x => exact absurd h (by simp [Resolved.bytes, Except.map])

end Client

section

variable {platform : Platform} {cfg : Config} {grfs : List Grf} {reqPath : Str}

/-- What the archives have was found for a reading of the request. -/
lemma archiveData_found {data : List Byte}
    (h : (Client.new platform cfg grfs).archiveData reqPath = .ok (some data)) :
    ∃ j item x grf, (catalog grfs)[j]? = some item ∧
      (∃ q ∈ wordings reqPath, Spells platform.text q item.2.name ∨
        ReadAs platform.text q item.2.name) ∧
      (catalog grfs)[j % 2 ^ 32]? = some x ∧ grfs[x.1 % 65536]? = some grf ∧
      readEntry platform.flate platform.crypto grf x.2.entry = .ok data := by
  obtain ⟨found, hhit, hread⟩ := Client.archiveData_some h
  obtain ⟨q, hq, hlookup⟩ := Client.archiveHit_some hhit
  rw [Client.index_new] at hlookup
  obtain ⟨j, item, x, hitem, hnames, hx, rfl⟩ := lookup_build_some hlookup
  obtain ⟨grf, hgrf, hentry⟩ := Client.readFound_indexed hread
  exact ⟨j, item, x, grf, hitem, exists_wording hq hnames, hx, hgrf, hentry⟩

lemma archiveData_none (h : ∀ q ∈ readings platform.text reqPath, ∀ item ∈ catalog grfs,
      ¬Names platform.text q item.2.name) :
    (Client.new platform cfg grfs).archiveData reqPath = .ok none := by
  have hhit : (Client.new platform cfg grfs).archiveHit reqPath = .ok none := by
    refine Client.archiveHit_none fun q hq => ?_
    rw [Client.index_new]
    exact lookup_build_none (h q hq)
  rw [Client.archiveData, hhit]

end

/-- **Which file an archive answers with.**  Let nothing be cached for a request, and no file
outside the archives be there.  An answer is read out of the archives at the place, in 32 bits, of
a file that a wording of the request spells or is read as; and if no reading of the request names
a file, the request is a miss. -/
theorem archive_answers (platform : Platform) (cfg : Config) (grfs : List Grf)
    {disk : FileSystem} {Origin : Str → List Byte → Prop} {s : Server} {reqPath : Str}
    (hs : Holds disk Origin s)
    (honly : (Client.new platform cfg grfs).OnlyArchived disk s reqPath) :
    ∃ r s', ((Client.new platform cfg grfs).resolve reqPath).exec
        (Server.perform platform.md5) s = .ok (r, s') ∧
      (∀ data, r.bytes = .ok (some data) → ∃ j item x grf,
        (catalog grfs)[j]? = some item ∧
        (∃ q ∈ wordings reqPath, Spells platform.text q item.2.name ∨
          ReadAs platform.text q item.2.name) ∧
        (catalog grfs)[j % 2 ^ 32]? = some x ∧ grfs[x.1 % 65536]? = some grf ∧
        readEntry platform.flate platform.crypto grf x.2.entry = .ok data ∧
        ((catalog grfs).length ≤ 2 ^ 32 → x = item) ∧
        (grfs.length ≤ 65536 → x.1 % 65536 = x.1)) ∧
      ((∀ q ∈ readings platform.text reqPath, ∀ item ∈ catalog grfs,
        ¬Names platform.text q item.2.name) → r = .ok none) := by
  obtain ⟨r, s', hexec, hbytes, -⟩ :=
    resolveWith_exec (c := Client.new platform cfg grfs) hs reqPath true
  rw [honly.answered] at hbytes
  refine ⟨r, s', hexec, ?_, ?_⟩
  · intro data hdata
    rw [hbytes] at hdata
    split at hdata
    · obtain ⟨j, item, x, grf, hitem, hspelled, hx, hgrf, hentry⟩ := archiveData_found hdata
      refine ⟨j, item, x, grf, hitem, hspelled, hx, hgrf, hentry, ?_, ?_⟩
      · -- Every place fits in 32 bits, so what is read is the file itself.
        intro hfiles
        have hj := (List.getElem?_eq_some_iff.mp hitem).1
        rw [Nat.mod_eq_of_lt (by omega), hitem] at hx
        exact (Option.some.inj hx).symm
      · intro hgrfs
        have hlt := fst_lt_of_mem_catalog (List.mem_of_getElem? hx)
        exact Nat.mod_eq_of_lt (by omega)
    · exact absurd (Except.ok.inj hdata) (by simp)
  · intro hnone
    refine Client.eq_none_of_bytes ?_
    rw [hbytes, archiveData_none hnone, ite_self]

/-! ## Two requests that are read as other files -/

/-- `koreanText` with a syllable, 0xB0B1 of the CP949 table, whose bytes are the letters `°±`, and
with these letters, 0xA1C6 and 0xA1BE of the table. -/
def doubledText : TextLib :=
  { koreanText with
    eucKrEncode := fun s => s.flatMap fun c =>
      if c = '갚' then [0xB0, 0xB1] else if c = '°' then [0xA1, 0xC6]
      else if c = '±' then [0xA1, 0xBE] else eucKrBytes c
    eucKrDecode := fun bytes =>
      if bytes = [0xA1, 0xC6, 0xA1, 0xBE] then ['°', '±']
      else if bytes = [0xB0, 0xB1] then ['갚'] else Encoding.latin1Decode bytes }

/-- Two archives, one with a question mark in place of a name. -/
def doubledGrfs : List Grf := [storedGrf ['?'] [1], storedGrf ['갚'] [2]]

def doubledPlatform : Platform := { sampleClient.platform with text := doubledText }

def doubledClient : Client := .new doubledPlatform sampleClient.cfg doubledGrfs

/-- A character in the normal form of `doubledText`. -/
def normChar (c : Char) : Char := if lowerLatin1 c = '\\' then '/' else lowerLatin1 c

lemma normForward_doubledText (s : Str) : normForward doubledText s = s.map normChar := by
  have hlower : Encoding.jsLowercase doubledText s = s.map lowerLatin1 := by
    unfold Encoding.jsLowercase
    split
    · next hascii =>
      refine List.map_congr_left fun c hc => ?_
      have hlt : c.toNat < 0x80 := of_decide_eq_true (List.all_eq_true.mp hascii c hc)
      exact (if_neg fun hrange => by omega).symm
    · rfl
  rw [normForward, hlower, toForward, List.map_map]
  rfl

lemma normChar_byte : ∀ n : Fin 256, (normChar (Char.ofNat n)).toNat < 256 := by decide +kernel

/-- A character that is no byte is its own normal form, and the normal form of nothing else. -/
lemma normChar_of_high {c : Char} (hc : 256 ≤ c.toNat) : normChar c = c := by
  have hlower : lowerLatin1 c = c :=
    (if_neg fun hrange => by omega).trans (toLower_of_not_ascii (by omega))
  rw [normChar, hlower, if_neg]
  rintro rfl
  exact absurd hc (by decide)

lemma eq_of_normChar {c d : Char} (hd : 256 ≤ d.toNat) (h : normChar c = d) : c = d := by
  by_cases hc : c.toNat < 256
  · have hbyte := normChar_byte ⟨c.toNat, hc⟩
    rw [show Char.ofNat (⟨c.toNat, hc⟩ : Fin 256) = c from Char.ofNat_toNat c, h] at hbyte
    omega
  · rwa [normChar_of_high (by omega)] at h

lemma eq_of_normForward {m : Str} {d : Char} (hd : 256 ≤ d.toNat)
    (h : normForward doubledText m = normForward doubledText [d]) : m = [d] := by
  rw [normForward_doubledText, normForward_doubledText, List.map_singleton,
    normChar_of_high hd] at h
  obtain ⟨c, rfl, hc⟩ := List.map_eq_singleton_iff.mp h
  rw [eq_of_normChar hd hc]

/-- No mojibake has such a character. -/
lemma normForward_ne_toMojibake (m : Str) {d : Char} (hd : 256 ≤ d.toNat) :
    normForward doubledText [d] ≠ normForward doubledText (Encoding.toMojibake doubledText m) := by
  intro h
  have hmem : d ∈ normForward doubledText (Encoding.toMojibake doubledText m) := by
    rw [← h, normForward_doubledText, List.map_singleton, normChar_of_high hd]
    exact List.mem_singleton_self d
  rw [normForward_doubledText, Encoding.toMojibake, Encoding.latin1Decode, List.map_map] at hmem
  obtain ⟨b, -, rfl⟩ := List.mem_map.mp hmem
  have hbyte : (normChar (Char.ofNat b.toNat)).toNat < 256 := normChar_byte b.toFin
  exact absurd hbyte (Nat.not_lt.mpr hd)

/-- A request that is found in its Korean reading alone. -/
lemma Client.archiveHit_decoded {c : Client} {reqPath : Str} {found : IndexedFile}
    (hself : c.index.lookup c.platform.text reqPath = .ok none)
    (hne : Encoding.decodeMojibake c.platform.text reqPath ≠ reqPath)
    (hdecoded : c.index.lookup c.platform.text
      (Encoding.decodeMojibake c.platform.text reqPath) = .ok (some found)) :
    c.archiveHit reqPath = .ok (some found) := by
  have hsecond : archiveHit.lookupDecoded c reqPath = .ok (some found) := by
    unfold archiveHit.lookupDecoded
    dsimp only
    rw [if_pos hne, hdecoded]
  unfold archiveHit
  rw [hself, ok_bind]
  dsimp only
  rw [hsecond, ok_bind]
  rfl

/-- Beside a new client of the sample settings there is nothing but its archives. -/
lemma onlyArchived_start (platform : Platform) (grfs : List Grf) (reqPath : Str) :
    (Client.new platform sampleClient.cfg grfs).OnlyArchived emptyDisk
      (Client.start sampleClient.cfg emptyDisk) reqPath := by
  constructor
  · exact congrArg (Option.map CachedFile.data) (get_withBudget _ _ _)
  · intro path _
    rfl
  · unfold Client.clientData Client.clientDirectory
    split
    · rfl
    · split
      · rfl
      · split <;> rfl
  · rfl

lemma doubledClient_index :
    doubledClient.index = build doubledClient.platform.text doubledGrfs :=
  Client.index_new doubledPlatform sampleClient.cfg doubledGrfs

lemma doubled_fresh (reqPath : Str) : doubledClient.freshBytes emptyDisk reqPath =
    if doubledClient.looksFor reqPath then doubledClient.archiveData reqPath else .ok none := by
  rw [freshBytes_eq]
  exact (onlyArchived_start _ _ reqPath).sourceData

/-- **Answers with another file.**  A Chinese character is answered with the file whose name is a
question mark; and the mojibake of `°±`, which no file is named, with the file whose mojibake that
is.  Neither request is a spelling of the name of the file. -/
theorem other_files_answer :
    doubledClient.archiveHit ['日'] = .ok (some (indexed (0, fakeFile ['?']))) ∧
    doubledClient.freshBytes emptyDisk ['日'] = .ok (some [1]) ∧
    (∀ q ∈ wordings ['日'], ¬Spells doubledText q ['?']) ∧
    doubledClient.archiveHit "¡Æ¡¾".toList = .ok (some (indexed (1, fakeFile ['갚']))) ∧
    doubledClient.freshBytes emptyDisk "¡Æ¡¾".toList = .ok (some [2]) ∧
    ∀ q ∈ wordings "¡Æ¡¾".toList, ¬Spells doubledText q ['갚'] := by
  -- In both the request itself is not found, and what it is decoded to is.
  have hfirst : doubledClient.archiveHit ['日'] = .ok (some (indexed (0, fakeFile ['?']))) := by
    apply Client.archiveHit_decoded
    · rw [doubledClient_index, lookup_eq]
      decide +kernel
    · decide +kernel
    · rw [doubledClient_index, lookup_eq]
      decide +kernel
  have hsecond : doubledClient.archiveHit "¡Æ¡¾".toList =
      .ok (some (indexed (1, fakeFile ['갚']))) := by
    apply Client.archiveHit_decoded
    · rw [doubledClient_index, lookup_eq]
      decide +kernel
    · decide +kernel
    · rw [doubledClient_index, lookup_eq]
      decide +kernel
  have hplain : wordings ['日'] = [['日']] := by decide +kernel
  have hplain' : wordings "¡Æ¡¾".toList = ["¡Æ¡¾".toList] := by decide +kernel
  rw [hplain, hplain']
  refine ⟨hfirst, ?_, ?_, hsecond, ?_, ?_⟩
  · rw [doubled_fresh, Client.archiveData, hfirst]
    rfl
  · rintro q hq ⟨m, hm, hself | hmojibake⟩
    · obtain rfl := List.mem_singleton.mp hq
      rw [hm] at hself
      exact absurd hself (by decide +kernel)
    · obtain rfl := List.mem_singleton.mp hq
      exact normForward_ne_toMojibake m (by decide) hmojibake
  · rw [doubled_fresh, Client.archiveData, hsecond]
    rfl
  · rintro q hq ⟨m, hm, hself | hmojibake⟩
    · obtain rfl := List.mem_singleton.mp hq
      rw [hm] at hself
      exact absurd hself (by decide +kernel)
    · obtain rfl := List.mem_singleton.mp hq
      rw [eq_of_normForward (by decide) hm] at hmojibake
      exact absurd hmojibake (by decide +kernel)

/-- The file whose name is a question mark answers a request for its name. -/
theorem archive_answers_sample : ∃ r s',
    (doubledClient.resolve ['?']).exec (Server.perform Calls.sampleMd5)
      (Client.start sampleClient.cfg emptyDisk) = .ok (r, s') ∧ r.bytes = .ok (some [1]) ∧
    ∃ item ∈ catalog doubledGrfs, ∃ q ∈ wordings ['?'],
      Spells doubledText q item.2.name ∨ ReadAs doubledText q item.2.name := by
  obtain ⟨r, s', hexec, hanswer, -⟩ := archive_answers doubledPlatform sampleClient.cfg doubledGrfs
    (holds_start sampleClient.cfg emptyDisk) (onlyArchived_start _ _ ['?'])
  have hlookup : doubledClient.index.lookup doubledClient.platform.text ['?'] =
      .ok (some (indexed (0, fakeFile ['?']))) := by
    rw [doubledClient_index, lookup_eq]
    decide +kernel
  have hhit : doubledClient.archiveHit ['?'] = .ok (some (indexed (0, fakeFile ['?']))) := by
    rw [Client.archiveHit, hlookup]
    rfl
  have hbytes : r.bytes = .ok (some [1]) := by
    have hresolve : (doubledClient.resolve ['?']).exec (Server.perform doubledClient.platform.md5)
        (Client.start doubledClient.cfg emptyDisk) = .ok (r, s') := hexec
    have hfresh := doubled_fresh ['?']
    rw [Client.archiveData, hhit, Client.freshBytes, hresolve] at hfresh
    exact hfresh
  obtain ⟨j, item, -, -, hitem, hspelled, -⟩ := hanswer [1] hbytes
  exact ⟨r, s', hexec, hbytes, item, List.mem_of_getElem? hitem, hspelled⟩

end RemoteClient
