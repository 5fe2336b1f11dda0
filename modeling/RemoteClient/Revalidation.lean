/-
# Answers without a body

A 304 confirms the copy a client holds, so it has to say what the full answer would have said.
For an asset `StandsFor` is that demand.  The tag is compared before the body is made, with the
tag of the coding the client accepts; when gzip would not make the file smaller, the full answer
is in no coding, and the 304 confirms a representation that is never sent.  `Misjudged` are the
requests to which this happens, and exactly these (`asset_not_modified_iff`).

A static file is confirmed by its tag or by its date.  The date is the same for all of its
representations, and it is looked at even when the request names a tag: a tag that is not
listed is confirmed exactly when the date is not later (`static_revalidates_iff`).
-/
import RemoteClient.Reports

namespace RemoteClient

open Exec Http

/-- The request's `If-None-Match` lists a tag, or everything. -/
def HeaderMap.Lists (headers : HeaderMap) (tag : Str) : Prop :=
  ∃ value, headers.ifNoneMatch = some value ∧
    ∃ item ∈ value.splitOn ',', trim item = tag ∨ trim item = ['*']

lemma etagMatches_iff (headers : HeaderMap) (etag : Str) :
    etagMatches headers etag = true ↔ headers.Lists (quoted etag) := by
  unfold etagMatches HeaderMap.Lists
  cases headers.ifNoneMatch with
  | none => simp
  | some value => simp [List.any_map]

lemma etagMatchesWeak_iff (headers : HeaderMap) (etag : Str) :
    Client.etagMatchesWeak headers etag = true ↔ headers.Lists etag := by
  unfold Client.etagMatchesWeak HeaderMap.Lists
  cases headers.ifNoneMatch with
  | none => simp
  | some value => simp

/-! ## Assets -/

/-- An answer and the full answer to the same request: it is a 304 exactly when the tag of the
full answer is listed, and then says the same. -/
structure StandsFor (headers : HeaderMap) (answer full : Response) : Prop where
  listed : answer.status = 304 ↔ ∃ tag, full.etag = some tag ∧ headers.Lists tag
  same : answer.status = 304 → answer.etag = full.etag ∧ answer.vary = full.vary

/-- The request without its `If-None-Match`. -/
def HeaderMap.unconditional (headers : HeaderMap) : HeaderMap := { headers with ifNoneMatch := none }

namespace Client

variable (c : Client) (headers : HeaderMap) (relative : Str) (data : List Byte)

/-- The client accepts a coding that does not make the file smaller, and lists the tag that the
file would have in it. -/
def Misjudged : Prop :=
  ∃ coding, assetCoding headers relative data.length c.cfg.enableCompression = some coding ∧
    encodeAsset c.platform.gzip coding data (c.keeps data.length) = none ∧
    etagMatches headers (codedEtag (computeEtag c.platform.md5 data) (some coding)) = true

/-- The coding of the full answer. -/
def sentCoding : Option Coding :=
  (assetCoding headers relative data.length c.cfg.enableCompression).filter fun coding =>
    (encodeAsset c.platform.gzip coding data (c.keeps data.length)).isSome

/-- The coding in which the request is judged: that of a listed tag is not made. -/
def judgedCoding : Option Coding :=
  (assetCoding headers relative data.length c.cfg.enableCompression).filter fun coding =>
    etagMatches headers (codedEtag (computeEtag c.platform.md5 data) (some coding)) ||
      (encodeAsset c.platform.gzip coding data (c.keeps data.length)).isSome

variable {c headers relative data}

lemma codedEtag_ne_plain (etag : Str) (coding : Coding) :
    codedEtag etag (some coding) ≠ codedEtag etag none := by
  cases coding
  intro h
  have hlen := congrArg List.length h
  simp [codedEtag] at hlen

/-- An asset with a tag is answered with a 304 when the tag matches. -/
lemma assetResponse_static (headers : HeaderMap)
    (hstatic : isStaticExtension (extensionOf relative) = true) (body : List Byte) (etag : Str)
    (vary : Bool) (coding : Option Coding) :
    (assetResponse headers relative body etag vary coding).status =
        (if etagMatches headers etag then 304 else 200) ∧
      (assetResponse headers relative body etag vary coding).etag = some (quoted etag) ∧
      (assetResponse headers relative body etag vary coding).vary = varyOn vary := by
  simp only [assetResponse, hstatic, Bool.true_and]
  split <;> exact ⟨rfl, rfl, rfl⟩

/-- The answer is made for the coding in which the request is judged. -/
lemma assetAnswer_judged (c : Client) (headers : HeaderMap) (data : List Byte)
    (hstatic : isStaticExtension (extensionOf relative) = true) :
    ∃ body, c.assetAnswer headers relative data = assetResponse headers relative body
      (codedEtag (computeEtag c.platform.md5 data) (c.judgedCoding headers relative data))
      (negotiatesCoding relative data.length c.cfg.enableCompression)
      (c.judgedCoding headers relative data) := by
  unfold Client.assetAnswer Client.judgedCoding
  simp only [hstatic, Bool.true_and]
  cases assetCoding headers relative data.length c.cfg.enableCompression with
  | none => exact ⟨data, rfl⟩
  | some coding =>
    simp only
    by_cases hlisted : etagMatches headers
        (codedEtag (computeEtag c.platform.md5 data) (some coding)) = true
    · rw [if_pos hlisted, Option.filter_some, if_pos (by simp [hlisted])]
      exact ⟨[], rfl⟩
    · rw [if_neg hlisted]
      cases hencoded : encodeAsset c.platform.gzip coding data (c.keeps data.length) with
      | some encoded =>
        rw [Option.filter_some, if_pos (by simp [hencoded])]
        exact ⟨encoded, rfl⟩
      | none =>
        rw [Option.filter_some, if_neg (by simp [hencoded, hlisted])]
        exact ⟨data, rfl⟩

lemma assetAnswer_static (c : Client) (headers : HeaderMap) (data : List Byte)
    (hstatic : isStaticExtension (extensionOf relative) = true) :
    (c.assetAnswer headers relative data).status =
        (if etagMatches headers (codedEtag (computeEtag c.platform.md5 data)
          (c.judgedCoding headers relative data)) then 304 else 200) ∧
      (c.assetAnswer headers relative data).etag = some (quoted (codedEtag
        (computeEtag c.platform.md5 data) (c.judgedCoding headers relative data))) ∧
      (c.assetAnswer headers relative data).vary =
        varyOn (negotiatesCoding relative data.length c.cfg.enableCompression) := by
  obtain ⟨body, hbody⟩ := assetAnswer_judged c headers data hstatic
  rw [hbody]
  exact assetResponse_static headers hstatic body _ _ _

/-- Without a tag to look for, only the encoding decides. -/
lemma judgedCoding_unconditional :
    c.judgedCoding headers.unconditional relative data = c.sentCoding headers relative data := rfl

lemma judgedCoding_ne_iff :
    c.judgedCoding headers relative data ≠ c.sentCoding headers relative data ↔
      c.Misjudged headers relative data := by
  unfold Client.judgedCoding Client.sentCoding Client.Misjudged
  cases assetCoding headers relative data.length c.cfg.enableCompression with
  | none => simp
  | some coding =>
    rw [Option.filter_some, Option.filter_some]
    cases hencoded : encodeAsset c.platform.gzip coding data (c.keeps data.length) with
    | some encoded => simp [hencoded]
    | none =>
      cases hlisted : etagMatches headers
          (codedEtag (computeEtag c.platform.md5 data) (some coding)) with
      | false => simp [hencoded, hlisted]
      | true => exact ⟨fun _ => ⟨coding, rfl, hencoded, hlisted⟩, fun _ => by simp⟩

/-- A request that is misjudged is answered with a 304 under a tag of its own. -/
lemma Misjudged.judged (h : c.Misjudged headers relative data) :
    ∃ coding, c.judgedCoding headers relative data = some coding ∧
      c.sentCoding headers relative data = none ∧
      etagMatches headers (codedEtag (computeEtag c.platform.md5 data) (some coding)) = true := by
  obtain ⟨coding, hcoding, hencoded, hlisted⟩ := h
  refine ⟨coding, ?_, ?_, hlisted⟩
  · rw [judgedCoding, hcoding, Option.filter_some, if_pos (by simp [hlisted])]
  · rw [sentCoding, hcoding, Option.filter_some, if_neg (by simp [hencoded])]

/-- The two answers to a content. -/
lemma standsFor_assetAnswer (hstatic : isStaticExtension (extensionOf relative) = true) :
    StandsFor headers (c.assetAnswer headers relative data)
        (c.assetAnswer headers.unconditional relative data) ↔
      ¬c.Misjudged headers relative data := by
  obtain ⟨hstatus, hetag, hvary⟩ := assetAnswer_static c headers data hstatic
  obtain ⟨-, hetag', hvary'⟩ := assetAnswer_static c headers.unconditional data hstatic
  rw [judgedCoding_unconditional] at hetag'
  constructor
  · rintro ⟨-, hsame⟩ hmisjudged
    obtain ⟨coding, hjudged, hsent, hlisted⟩ := hmisjudged.judged
    rw [hjudged] at hstatus hetag
    rw [hsent] at hetag'
    rw [if_pos hlisted] at hstatus
    have htags := (hsame hstatus).1
    rw [hetag, hetag', Option.some_inj] at htags
    exact codedEtag_ne_plain _ coding (quoted_inj htags)
  · intro hnot
    have hcoding : c.judgedCoding headers relative data = c.sentCoding headers relative data :=
      not_not.mp fun hne => hnot (judgedCoding_ne_iff.mp hne)
    rw [hcoding] at hstatus hetag
    refine ⟨?_, fun _ => ⟨hetag.trans hetag'.symm, hvary.trans hvary'.symm⟩⟩
    rw [hstatus, hetag']
    simp only [Option.some_inj, exists_eq_left', ← etagMatches_iff]
    split
    · next hmatch => simp [hmatch]
    · next hmatch => simp [hmatch]

/-! ## Requests in a running server -/

variable {s : Server} {md5 : List Byte → Vector Byte 16} {file : CachedFile}

/-- The encoding of a stored file is found or made. -/
lemma encoded_ok (c : Client) (relative : Str) (hsound : s.cache.Sound) {e : Encodings}
    (he : s.encodings[file.encodings]? = some e) (coding : Coding) :
    ∃ r s', (c.encoded relative file coding).exec (Server.perform md5) s = .ok (r, s') := by
  have hget : s.perform md5 (.slotGet file.encodings coding) = .ok (e.slot coding, s) := by
    simp only [Server.perform, index_eq_of_getElem? he, ok_bind]
    rfl
  have hinit : e.slot coding = none → ∀ value, ∃ s', s'.cache = s.cache ∧
      s.perform md5 (.slotInit file.encodings coding value) = .ok ((value, true), s') := by
    intro hslot value
    refine ⟨{ s with encodings := s.encodings.set file.encodings (e.setSlot coding value) },
      rfl, ?_⟩
    simp only [Server.perform, index_eq_of_getElem? he, ok_bind, hslot]
    rfl
  change ∃ r s', (s.perform md5 (.slotGet file.encodings coding) >>= fun x =>
    Prog.exec (Server.perform md5) _ x.2) = .ok (r, s')
  rw [hget, ok_bind]
  cases hslot : e.slot coding with
  | some done => exact ⟨done, s, rfl⟩
  | none =>
    change ∃ r s', Prog.exec _ (if !c.keeps file.data.length then _ else _) s = .ok (r, s')
    split
    · exact ⟨_, s, rfl⟩
    · obtain ⟨s₁, hcache, hperform⟩ := hinit hslot
        (encodeAsset c.platform.gzip coding file.data true)
      change ∃ r s', (s.perform md5 (.slotInit file.encodings coding
        (encodeAsset c.platform.gzip coding file.data true)) >>= fun x =>
          Prog.exec (Server.perform md5) _ x.2) = .ok (r, s')
      rw [hperform, ok_bind]
      cases encodeAsset c.platform.gzip coding file.data true with
      | none => exact ⟨_, s₁, rfl⟩
      | some bytes =>
        -- The first encoding of a file is counted by the cache.
        obtain ⟨cache, hadd, -⟩ := FileCache.addEncoding_spec (hcache ▸ hsound)
          (c.cacheKey relative) file bytes.length
        refine ⟨some bytes, { s₁ with cache := cache, reported := s₁.reported ++ [file.encodings] }, ?_⟩
        change ((s₁.cache.addEncoding _ _ _ >>= _) >>= _) = _
        rw [hadd]
        rfl

/-- The asset branch of a handler, run alone in a server whose requests keep their contract. -/
lemma serveAsset_exec (headers : HeaderMap) {frozen : PathBuf → Prop} {T : FileSystem}
    (hguarded : Guarded c frozen) (hsane : Sane c frozen T s)
    (hknown : s.Known c.platform.md5 (c.cacheKey relative) file) :
    ∃ s', (c.serveAsset headers relative file).exec (Server.perform c.platform.md5) s =
      .ok (c.assetAnswer headers relative file.data, s') := by
  have hrun : ∃ r s', (c.serveAsset headers relative file).exec
      (Server.perform c.platform.md5) s = .ok (r, s') := by
    obtain ⟨-, e, he, -, -⟩ := hknown
    unfold Client.serveAsset
    simp only
    cases assetCoding headers relative file.data.length c.cfg.enableCompression with
    | none => exact ⟨_, s, rfl⟩
    | some coding =>
      simp only
      split
      · exact ⟨_, s, rfl⟩
      · obtain ⟨r, s', hexec⟩ := encoded_ok c relative hsane.sound he coding
        rw [Prog.exec_bind, hexec, ok_bind]
        cases r with
        | some encoded => exact ⟨_, s', rfl⟩
        | none => exact ⟨_, s', rfl⟩
  obtain ⟨r, s', hexec⟩ := hrun
  obtain ⟨rfl, -, -⟩ := (safe_serveAsset hguarded headers hknown).exec hsane hexec
  exact ⟨s', hexec⟩

section

variable {disk : FileSystem} {pool : Pool Action Action.Answer Server Job (Option Response)}
  (hreach : (c.machine fun _ => False).Reachable (Client.start c.cfg disk) pool)
  {gameData : Bool} {s' : Server}
  (hfile : (c.getFileWith relative gameData).exec (Server.perform c.platform.md5) pool.state =
    .ok (some file, s'))

include hreach hfile

/-- A request for a file that the server finds, whatever it did before. -/
lemma serveResolved_exec (headers : HeaderMap) : ∃ s₁,
    (c.serveResolved headers relative gameData).exec (Server.perform c.platform.md5) pool.state =
      .ok (c.assetAnswer headers relative file.data, s₁) := by
  obtain ⟨hdelivers, hsane, -⟩ :=
    (safe_getFileWith guarded_nothing relative gameData).exec (reachable_sane hreach) hfile
  obtain ⟨s₁, hexec⟩ := serveAsset_exec headers guarded_nothing hsane (hdelivers file rfl)
  refine ⟨s₁, ?_⟩
  rw [Client.serveResolved, Prog.exec_bind, hfile, ok_bind]
  exact hexec

/-- **When a 304 for an asset stands for the 200 it replaces**: for every request and every
content but those that are misjudged.  Both answers are those of a server in any state it can
be in. -/
theorem asset_not_modified_iff (hstatic : isStaticExtension (extensionOf relative) = true)
    (headers : HeaderMap) : ∃ answer full s₁ s₂,
      (c.serveResolved headers relative gameData).exec (Server.perform c.platform.md5) pool.state =
        .ok (answer, s₁) ∧
      (c.serveResolved headers.unconditional relative gameData).exec
        (Server.perform c.platform.md5) pool.state = .ok (full, s₂) ∧
      (StandsFor headers answer full ↔ ¬c.Misjudged headers relative file.data) := by
  obtain ⟨s₁, hanswer⟩ := serveResolved_exec hreach hfile headers
  obtain ⟨s₂, hfull⟩ := serveResolved_exec hreach hfile headers.unconditional
  exact ⟨_, _, s₁, s₂, hanswer, hfull, standsFor_assetAnswer hstatic⟩

end

/-- A request for the file in gzip that lists everything. -/
def listingHeaders : HeaderMap :=
  { acceptEncoding := some "gzip".toList, ifNoneMatch := some ['*'] }

/-- The sample server with other digests and another gzip. -/
def fileClient (md5 : List Byte → Vector Byte 16) (gzip : ℕ → List Byte → List Byte) : Client :=
  { sampleClient with platform := { sampleClient.platform with md5 := md5, gzip := gzip } }

def fileDisk (data : List Byte) : FileSystem where
  node := fun path => if path = [['s'], sampleName] then
    some (⟨false, true, data.length, 0⟩, some data) else none
  canonicalize := some

/-- A new server finds the file of its disk. -/
lemma sample_file (md5 : List Byte → Vector Byte 16) (gzip : ℕ → List Byte → List Byte)
    (data : List Byte) : ∃ s', ((fileClient md5 gzip).getFileWith sampleName false).exec
      (Server.perform md5) (Client.start sampleClient.cfg (fileDisk data)) =
        .ok (some ⟨data, computeEtag md5 data, 0⟩, s') := by
  let start : Server := Client.start sampleClient.cfg (fileDisk data)
  have hsound : start.cache.Sound := sound_withBudget _ _
  obtain ⟨cache, hinsert, -⟩ := FileCache.insert_spec md5 hsound sampleName data 0
  let s' : Server := { start with cache := cache, encodings := [⟨sampleName, data, none⟩] }
  have hstore : start.perform md5 (.cacheInsert sampleName data) =
      .ok (⟨data, computeEtag md5 data, 0⟩, s') := by
    change (FileCache.insert md5 start.cache sampleName data 0 >>= _) = _
    rw [hinsert]
    rfl
  refine ⟨s', ?_⟩
  change (start.perform md5 (.cacheInsert sampleName data) >>= _) = _
  rw [hstore]
  rfl

/-- What it answers a request for the file. -/
lemma sample_answer (md5 : List Byte → Vector Byte 16) (gzip : ℕ → List Byte → List Byte)
    (data : List Byte) (headers : HeaderMap) :
    ∃ s', ((fileClient md5 gzip).serveResolved headers sampleName false).exec
      (Server.perform md5) (Client.start sampleClient.cfg (fileDisk data)) =
        .ok ((fileClient md5 gzip).assetAnswer headers sampleName data, s') := by
  obtain ⟨s, hfile⟩ := sample_file md5 gzip data
  exact serveResolved_exec (c := fileClient md5 gzip) .start hfile headers

set_option maxRecDepth 8000 in
/-- The 304 of the sample server says what its full answer says. -/
theorem asset_not_modified_sample : ∃ answer full s₁ s₂,
    (sampleClient.serveResolved listingHeaders sampleName false).exec
      (Server.perform Calls.sampleMd5) (Client.start sampleClient.cfg (fileDisk sampleContent)) =
        .ok (answer, s₁) ∧
    (sampleClient.serveResolved listingHeaders.unconditional sampleName false).exec
      (Server.perform Calls.sampleMd5) (Client.start sampleClient.cfg (fileDisk sampleContent)) =
        .ok (full, s₂) ∧
    StandsFor listingHeaders answer full ∧ answer.status = 304 ∧ full.status = 200 ∧
    full.etag = some (quoted "0000000000000000-gz".toList) := by
  obtain ⟨s, hfile⟩ := sample_file Calls.sampleMd5 (fun _ _ => [0]) sampleContent
  have hnot : ¬sampleClient.Misjudged listingHeaders sampleName sampleContent := by
    rintro ⟨coding, -, hnone, -⟩
    cases coding
    have hsome : encodeAsset sampleClient.platform.gzip .gzip sampleContent
        (sampleClient.keeps sampleContent.length) = some [0] := by decide
    exact absurd (hsome.symm.trans hnone) (by simp)
  obtain ⟨answer, full, s₁, s₂, hanswer, hfull, hiff⟩ :=
    asset_not_modified_iff (c := sampleClient) .start hfile (by decide) listingHeaders
  obtain ⟨_, hanswer'⟩ :=
    sample_answer Calls.sampleMd5 (fun _ _ => [0]) sampleContent listingHeaders
  obtain ⟨_, hfull'⟩ :=
    sample_answer Calls.sampleMd5 (fun _ _ => [0]) sampleContent listingHeaders.unconditional
  obtain ⟨rfl, -⟩ := Prod.mk.inj (Except.ok.inj (hanswer.symm.trans hanswer'))
  obtain ⟨rfl, -⟩ := Prod.mk.inj (Except.ok.inj (hfull.symm.trans hfull'))
  exact ⟨_, _, s₁, s₂, hanswer, hfull, hiff.mpr hnot, by decide, by decide, by decide⟩

/-- A content that gzip only stores, its stream and its digest. -/
def noisyContent : List Byte :=
  (List.range 1024).map fun i => BitVec.ofNat 8 (i * i * i * 40503 / 1021)

def noisyStream : List Byte :=
  [31, 139, 8, 0, 0, 0, 0, 0, 0, 255, 1, 0, 4, 255, 251] ++ noisyContent ++
    [31, 219, 152, 227, 0, 4, 0, 0]

def noisyDigest : Vector Byte 16 := ⟨#[
    42, 203, 245, 108, 182, 222, 137, 51, 103, 146, 89, 9, 182, 154, 78, 38], by decide⟩

def noisyMd5 (data : List Byte) : Vector Byte 16 :=
  if data = noisyContent then noisyDigest else Calls.sampleMd5 data

def noisyGzip (_level : ℕ) (data : List Byte) : List Byte :=
  if data = noisyContent then noisyStream else [0]

/-- The sample server with a gzip that does not make that content smaller. -/
def stubbornClient : Client := fileClient noisyMd5 noisyGzip

lemma noisy_answers : (stubbornClient.assetAnswer listingHeaders sampleName noisyContent).status =
      304 ∧
    (stubbornClient.assetAnswer listingHeaders sampleName noisyContent).etag =
      some (quoted "2acbf56cb6de8933-gz".toList) ∧
    (stubbornClient.assetAnswer listingHeaders.unconditional sampleName noisyContent).status =
      200 ∧
    (stubbornClient.assetAnswer listingHeaders.unconditional sampleName noisyContent).etag =
      some (quoted "2acbf56cb6de8933".toList) := by
  decide +kernel

/-- A server confirms a tag that it never sends. -/
theorem unsent_tag_confirmed : ∃ answer full s₁ s₂,
    (stubbornClient.serveResolved listingHeaders sampleName false).exec
      (Server.perform noisyMd5) (Client.start stubbornClient.cfg (fileDisk noisyContent)) =
        .ok (answer, s₁) ∧
    (stubbornClient.serveResolved listingHeaders.unconditional sampleName false).exec
      (Server.perform noisyMd5) (Client.start stubbornClient.cfg (fileDisk noisyContent)) =
        .ok (full, s₂) ∧
    answer.status = 304 ∧ answer.etag = some (quoted "2acbf56cb6de8933-gz".toList) ∧
    full.status = 200 ∧ full.etag = some (quoted "2acbf56cb6de8933".toList) := by
  obtain ⟨s₁, hanswer⟩ := sample_answer noisyMd5 noisyGzip noisyContent listingHeaders
  obtain ⟨s₂, hfull⟩ :=
    sample_answer noisyMd5 noisyGzip noisyContent listingHeaders.unconditional
  exact ⟨_, _, s₁, s₂, hanswer, hfull, noisy_answers⟩

/-! ## Static files -/

section

/-- The tag of the representation that is selected for a request. -/
def selectedTag (headers : HeaderMap) (metadata : Metadata) (siblings : List Sibling) : Str :=
  weakEtag metadata.len metadata.modified
    (((siblings.find? fun sibling => acceptsEncoding headers sibling.coding).map
      fun sibling => '-' :: sibling.ext).getD [])

/-- The request names a date that is not before that of the file, to the second. -/
def DatedSince (c : Client) (headers : HeaderMap) (modified : ℤ) : Prop :=
  ∃ since, headers.ifModifiedSince.bind c.platform.parseHttpDate = some since ∧
    secondsOf modified ≤ secondsOf since

variable {path : PathBuf} {metadata : Metadata} {siblings : List Sibling} {resp : Response}

lemma notModifiedSince_iff (modified : ℤ) :
    c.notModifiedSince headers modified = true ↔ c.DatedSince headers modified := by
  unfold notModifiedSince DatedSince
  cases headers.ifModifiedSince.bind c.platform.parseHttpDate with
  | none => simp
  | some since => simp

lemma status_compress (headers : HeaderMap) (resp : Response) (body : List Byte) :
    (c.compress headers resp body).status = resp.status := by
  simp only [Client.compress, maybeCompress]
  split <;> rfl

lemma confirmed_iff : (etagMatchesWeak headers (selectedTag headers metadata siblings) ||
      c.notModifiedSince headers metadata.modified) = true ↔
    headers.Lists (selectedTag headers metadata siblings) ∨
      c.DatedSince headers metadata.modified := by
  rw [Bool.or_eq_true, etagMatchesWeak_iff, notModifiedSince_iff]

/-- A 304 needs no read. -/
lemma staticAnswer_confirms (path : PathBuf)
    (h : headers.Lists (selectedTag headers metadata siblings) ∨
      c.DatedSince headers metadata.modified) :
    ∃ resp, (c.staticAnswer headers path metadata siblings).Returns (some resp) ∧
      resp.status = 304 := by
  simp only [staticAnswer]
  split
  · exact ⟨_, rfl, rfl⟩
  · next hnot => exact absurd (confirmed_iff.mpr h) hnot

/-- Every answer is under the selected tag, and is a 304 when that is listed or the date is. -/
lemma staticAnswer_all : (c.staticAnswer headers path metadata siblings).All (fun _ => True)
    fun r => ∀ resp, r = some resp → resp.etag = some (selectedTag headers metadata siblings) ∧
      (resp.status = 304 ↔ headers.Lists (selectedTag headers metadata siblings) ∨
        c.DatedSince headers metadata.modified) := by
  simp only [staticAnswer]
  split
  · next hconfirmed =>
    intro resp heq
    rw [← Option.some.inj heq]
    exact ⟨rfl, iff_of_true rfl (confirmed_iff.mp hconfirmed)⟩
  · next hnot =>
    have hfull : ∀ found : Response, found.etag = some (selectedTag headers metadata siblings) →
        found.status = 200 → found.etag = some (selectedTag headers metadata siblings) ∧
          (found.status = 304 ↔ headers.Lists (selectedTag headers metadata siblings) ∨
            c.DatedSince headers metadata.modified) := by
      intro found hetag hstatus
      exact ⟨hetag, iff_of_false (by simp [hstatus]) fun h => hnot (confirmed_iff.mpr h)⟩
    -- The file that was chosen is read, and nothing goes out when that fails.
    split
    · refine ⟨trivial, fun content => ?_⟩
      cases content with
      | none => exact fun resp heq => absurd heq (by simp)
      | some content =>
        intro resp heq
        rw [← Option.some.inj heq]
        exact hfull _ rfl rfl
    · refine ⟨trivial, fun content => ?_⟩
      cases content with
      | none => exact fun resp heq => absurd heq (by simp)
      | some content =>
        intro resp heq
        rw [← Option.some.inj heq]
        exact hfull _ (etag_compress _ _ _) (status_compress _ _ _)

lemma staticFile_returns (h : (c.staticFile headers path metadata).Returns (some resp)) :
    ∃ path metadata siblings, (c.staticAnswer headers path metadata siblings).Returns (some resp) := by
  unfold staticFile at h
  split at h
  · obtain ⟨siblings, -, h⟩ := Prog.returns_bind.mp h
    exact ⟨path, metadata, siblings, h⟩
  · exact ⟨path, metadata, [], h⟩

/-- What the server finds in the static tree is answered so. -/
lemma serveStatic_returns {relative : Str}
    (h : (c.serveStatic headers relative).Returns (some resp)) :
    ∃ path metadata siblings, (c.staticAnswer headers path metadata siblings).Returns (some resp) := by
  have hnone : (none : Option Response) ≠ some resp := by simp
  unfold serveStatic at h
  split at h
  · exact (hnone h).elim
  · next candidate _ =>
    obtain ⟨found, h⟩ := h
    cases found with
    | none => exact (hnone h).elim
    | some metadata =>
      change Prog.Returns _ (if _ then _ else _) at h
      split at h
      · obtain ⟨page, h⟩ := h
        cases page with
        | none => exact (hnone h).elim
        | some metadata => exact staticFile_returns h
      · exact staticFile_returns h

/-! ### On a disk -/

variable {md5 : List Byte → Vector Byte 16} {s s' : Server}

/-- The siblings that stand beside a file on a disk. -/
def siblingsOn (disk : FileSystem) (path : PathBuf) (modified : ℤ) (codings : List (Str × Str)) :
    List Sibling :=
  codings.filterMap fun p =>
    let sibling := pushSuffix path ('.' :: p.2)
    if (disk.metadata sibling).any fun m => m.isFile && decide (modified ≤ m.modified) then
      some ⟨sibling, p.1, p.2⟩
    else none

/-- What a disk has for a path: the file there or the index page of the directory there, and the
siblings that may stand in for it. -/
structure FoundOn (c : Client) (disk : FileSystem) (relative : Str) (path : PathBuf)
    (metadata : Metadata) (siblings : List Sibling) : Prop where
  path_eq : ∃ candidate asked, safeJoin c.cfg.robrowserPath relative = some candidate ∧
    disk.metadata candidate = some asked ∧
    path = if asked.isDir then candidate ++ ["index.html".toList] else candidate
  metadata_eq : disk.metadata path = some metadata
  siblings_eq : siblings =
    if c.cfg.enableCompression = false ∨
        precompressed.any (fun p => p.2 = extensionOf (pathString path)) then []
    else siblingsOn disk path metadata.modified precompressed

lemma siblingsOn_cons (disk : FileSystem) (path : PathBuf) (modified : ℤ) (p : Str × Str)
    (codings : List (Str × Str)) : siblingsOn disk path modified (p :: codings) =
      if (disk.metadata (pushSuffix path ('.' :: p.2))).any fun m =>
        m.isFile && decide (modified ≤ m.modified)
      then ⟨pushSuffix path ('.' :: p.2), p.1, p.2⟩ :: siblingsOn disk path modified codings
      else siblingsOn disk path modified codings := by
  rw [siblingsOn]
  split
  · next h => exact List.filterMap_cons_some (if_pos h)
  · next h => exact List.filterMap_cons_none (if_neg h)

lemma siblingsIn_exec (path : PathBuf) (modified : ℤ) (codings : List (Str × Str)) :
    (siblingsIn path modified codings).exec (Server.perform md5) s =
      .ok (siblingsOn s.disk path modified codings, s) := by
  induction codings with
  | nil => rfl
  | cons p codings ih =>
    rw [siblingsOn_cons]
    change Prog.exec (Server.perform md5) (siblingsIn path modified codings >>= fun others => _) s = _
    rw [Prog.exec_bind, ih, ok_bind]
    dsimp only
    split <;> rfl

lemma staticFile_exec {path : PathBuf} {metadata : Metadata}
    (h : (c.staticFile headers path metadata).exec (Server.perform md5) s = .ok (some resp, s')) :
    (c.staticAnswer headers path metadata
      (if c.cfg.enableCompression = false ∨
          precompressed.any (fun p => p.2 = extensionOf (pathString path)) then []
      else siblingsOn s.disk path metadata.modified precompressed)).exec
        (Server.perform md5) s = .ok (some resp, s') := by
  unfold staticFile at h
  split at h
  · next hcompress =>
    rw [Prog.exec_bind] at h
    unfold freshSiblings at h
    dsimp only at h
    split at h
    · next hnamed =>
      rw [if_pos (.inr hnamed)]
      exact h
    · next hnamed =>
      rw [siblingsIn_exec, ok_bind] at h
      rw [if_neg (by simp [hcompress, hnamed])]
      exact h
  · next hcompress =>
    rw [if_pos (.inl (by simpa using hcompress))]
    exact h

/-- What the server answers is the answer for what its disk has. -/
lemma serveStatic_exec {relative : Str}
    (h : (c.serveStatic headers relative).exec (Server.perform md5) s = .ok (some resp, s')) :
    ∃ path metadata siblings, c.FoundOn s.disk relative path metadata siblings ∧
      (c.staticAnswer headers path metadata siblings).exec (Server.perform md5) s =
        .ok (some resp, s') := by
  -- Each look at the disk is answered by what it has there, and changes nothing.
  have hlook : ∀ (path : PathBuf) (next : Option Metadata → Work (Option Response)),
      ((Work.metadata path >>= next).exec (Server.perform md5) s) =
        (next (s.disk.metadata path)).exec (Server.perform md5) s := fun _ _ => rfl
  unfold serveStatic at h
  split at h
  · exact absurd (Prod.mk.inj (Except.ok.inj h)).1 (by simp)
  · next candidate hjoin =>
    rw [hlook] at h
    cases hasked : s.disk.metadata candidate with
    | none =>
      rw [hasked] at h
      exact absurd (Prod.mk.inj (Except.ok.inj h)).1 (by simp)
    | some asked =>
      rw [hasked] at h
      dsimp only at h
      split at h
      · next hdir =>
        rw [hlook] at h
        cases hpage : s.disk.metadata (candidate ++ ["index.html".toList]) with
        | none =>
          rw [hpage] at h
          exact absurd (Prod.mk.inj (Except.ok.inj h)).1 (by simp)
        | some metadata =>
          rw [hpage] at h
          exact ⟨_, metadata, _, ⟨⟨candidate, asked, hjoin, hasked, by rw [if_pos hdir]⟩, hpage, rfl⟩,
            staticFile_exec h⟩
      · next hfile =>
        exact ⟨_, asked, _, ⟨⟨candidate, asked, hjoin, hasked, by rw [if_neg hfile]⟩, hasked, rfl⟩,
          staticFile_exec h⟩

end

/-- **When a request for a static file revalidates the bytes it holds**: when it is not confirmed
by its date.  A request that lists tags, but not that of the representation selected for it, is
answered with a 304 exactly when its date is not before that of the file; and every answer of
the static tree is of this kind, for the file and the siblings that the disk has, as long as
nobody changes it in between. -/
theorem static_revalidates_iff (c : Client) (headers : HeaderMap) :
    (∀ relative resp, (c.serveStatic headers relative).Returns (some resp) →
      ∃ path metadata siblings,
        (c.staticAnswer headers path metadata siblings).Returns (some resp)) ∧
    (∀ md5 s s' relative resp,
      (c.serveStatic headers relative).exec (Server.perform md5) s = .ok (some resp, s') →
      ∃ path metadata siblings, c.FoundOn s.disk relative path metadata siblings ∧
        (c.staticAnswer headers path metadata siblings).exec (Server.perform md5) s =
          .ok (some resp, s')) ∧
    ∀ path metadata siblings,
      (headers.ifNoneMatch.isSome → ¬headers.Lists (selectedTag headers metadata siblings) →
        ∀ resp, (c.staticAnswer headers path metadata siblings).Returns (some resp) →
          resp.status ≠ 304) ↔
      (headers.ifNoneMatch.isSome → ¬headers.Lists (selectedTag headers metadata siblings) →
        ¬c.DatedSince headers metadata.modified) := by
  refine ⟨fun relative resp => serveStatic_returns,
    fun md5 s s' relative resp => serveStatic_exec, fun path metadata siblings => ?_⟩
  refine forall_congr' fun _ => forall_congr' fun hunlisted => ⟨fun h hdated => ?_, fun h => ?_⟩
  · obtain ⟨resp, hreturns, hstatus⟩ := staticAnswer_confirms path (.inr hdated)
    exact h resp hreturns hstatus
  · intro resp hreturns hstatus
    rcases (((staticAnswer_all).returns hreturns resp rfl).2.mp hstatus) with hlisted | hdated
    · exact hunlisted hlisted
    · exact h hdated

/-- A server with a static tree, and dates that are all the epoch. -/
def datedClient : Client :=
  { sampleClient with
    platform := { sampleClient.platform with parseHttpDate := fun _ => some 0 }
    cfg := { sampleClient.cfg with enableStaticServe := true } }

/-- A file of one byte and its fresh gzip. -/
def siblingDisk : FileSystem where
  node := fun path => if path = [['w'], sampleName] ∨ path = [['w'], sampleName ++ ".gz".toList]
    then some (⟨false, true, 1, 0⟩, some [0]) else none
  canonicalize := some

/-- A browser that holds the plain file, and now accepts gzip. -/
def datedHeaders : HeaderMap :=
  { acceptEncoding := some "gzip".toList
    ifNoneMatch := some "W/\"1-0\"".toList
    ifModifiedSince := some "Thu, 01 Jan 1970 00:00:00 GMT".toList }

/-- It is told to keep it under the tag of the gzip. -/
theorem other_coding_confirmed : ∃ resp s,
    (datedClient.serveStatic datedHeaders sampleName).exec (Server.perform Calls.sampleMd5)
      (Client.start datedClient.cfg siblingDisk) = .ok (some resp, s) ∧
    resp.status = 304 ∧ resp.etag = some "W/\"1-0-gz\"".toList ∧
    ¬datedHeaders.Lists "W/\"1-0-gz\"".toList := by
  refine ⟨_, _, rfl, rfl, rfl, ?_⟩
  rw [← etagMatchesWeak_iff]
  decide

end Client
end RemoteClient
