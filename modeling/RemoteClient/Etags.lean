/-
# One asset ETag names one byte string

The ETag of an asset is strong: it stands for the bytes that were sent, in the coding they
were sent in.  The level gzip works at depends on whether the cache would keep the file, the
encoding may have been made by any of several racing requests, and gzip may not shrink a file
after all; still the tag of an answer tells its body and its coding, as long as no two of the
contents in play have the same digest (`etag_names_content`).

Only assets have strong tags: those of static files are weak ones.
-/
import RemoteClient.Grf.RoundTrip
import RemoteClient.StaticFiles

namespace RemoteClient

open Exec Http

/-! ## Tags -/

lemma quoted_inj {a b : Str} (h : quoted a = quoted b) : a = b :=
  List.append_cancel_right (List.cons.inj h).2

/-- A digest is made of hex digits. -/
lemma hyphen_notMem_computeEtag (md5 : List Byte → Vector Byte 16) (data : List Byte) :
    '-' ∉ computeEtag md5 data := by
  have hdigit : ∀ n : Fin 16, hexDigit n ≠ '-' := by decide
  intro h
  obtain ⟨byte, -, hbyte⟩ := List.mem_flatMap.mp h
  rcases List.mem_cons.mp hbyte with heq | hbyte
  · exact hdigit _ heq.symm
  · exact hdigit _ (List.mem_singleton.mp hbyte).symm

/-- The tag of a file in a coding tells the digest and the coding. -/
lemma codedEtag_inj {md5 : List Byte → Vector Byte 16} {a b : List Byte} {x y : Option Coding}
    (h : codedEtag (computeEtag md5 a) x = codedEtag (computeEtag md5 b) y) :
    computeEtag md5 a = computeEtag md5 b ∧ x = y := by
  have hplain : ∀ (d : Str) (data : List Byte), computeEtag md5 data ≠ d ++ "-gz".toList := by
    intro d data heq
    exact hyphen_notMem_computeEtag md5 data (heq ▸ List.mem_append_right d (by decide))
  match x, y with
  | none, none => exact ⟨h, rfl⟩
  | some .gzip, some .gzip => exact ⟨List.append_cancel_right h, rfl⟩
  | none, some .gzip => exact absurd h (hplain _ a)
  | some .gzip, none => exact absurd h.symm (hplain _ b)

/-! ## The representations of a content -/

variable (c : Client)

/-- The representation of a content in a coding: its tag, its body and what names its
coding. -/
def Represents (data : List Byte) (coding : Option Coding) (resp : Response) : Prop :=
  resp.etag = some (quoted (codedEtag (computeEtag c.platform.md5 data) coding)) ∧
  resp.contentEncoding = coding.map Coding.name ∧
  match coding with
  | none => resp.body = data
  | some coding =>
    encodeAsset c.platform.gzip coding data (c.keeps data.length) = some resp.body

variable {c}

/-- A representation is determined by the content and the coding. -/
lemma Represents.eq {data : List Byte} {coding : Option Coding} {r r' : Response}
    (h : Represents c data coding r) (h' : Represents c data coding r') :
    r.body = r'.body ∧ r.contentEncoding = r'.contentEncoding := by
  refine ⟨?_, h.2.1.trans h'.2.1.symm⟩
  cases coding with
  | none => exact h.2.2.trans h'.2.2.symm
  | some coding => exact Option.some.inj (h.2.2.symm.trans h'.2.2)

/-- A full answer under a tag is under the tag it was built with, and has the body it was
built with. -/
lemma assetResponse_ok {headers : HeaderMap} {path : Str} {body : List Byte} {etag tag : Str}
    {vary : Bool} {coding : Option Coding}
    (hok : (assetResponse headers path body etag vary coding).status = 200)
    (htag : (assetResponse headers path body etag vary coding).etag = some tag) :
    (assetResponse headers path body etag vary coding).etag = some (quoted etag) ∧
    (assetResponse headers path body etag vary coding).contentEncoding = coding.map Coding.name ∧
    (assetResponse headers path body etag vary coding).body = body ∧
    ¬(isStaticExtension (extensionOf path) && etagMatches headers etag) = true := by
  simp only [assetResponse] at hok htag ⊢
  by_cases hmatch : (isStaticExtension (extensionOf path) && etagMatches headers etag) = true
  · rw [if_pos hmatch] at hok
    exact absurd hok (by simp [notModified])
  · rw [if_neg hmatch] at htag ⊢
    cases hstatic : isStaticExtension (extensionOf path) with
    | false => exact absurd htag (by simp [hstatic])
    | true => exact ⟨rfl, rfl, rfl, hstatic ▸ hmatch⟩

/-- What a full answer under a tag says of its asset. -/
lemma assetAnswer_represents {headers : HeaderMap} {relative : Str} {data : List Byte} {tag : Str}
    (hok : (c.assetAnswer headers relative data).status = 200)
    (htag : (c.assetAnswer headers relative data).etag = some tag) :
    ∃ coding, Represents c data coding (c.assetAnswer headers relative data) := by
  unfold Client.assetAnswer at hok htag ⊢
  cases hcoding : assetCoding headers relative data.length c.cfg.enableCompression with
  | none =>
    simp only [hcoding] at hok htag ⊢
    obtain ⟨hetag, hencoding, hbody, -⟩ := assetResponse_ok hok htag
    exact ⟨none, hetag, hencoding, hbody⟩
  | some coding =>
    simp only [hcoding] at hok htag ⊢
    split at hok
    · next hcond =>
      rw [if_pos hcond] at htag
      exact absurd hcond (assetResponse_ok hok htag).2.2.2
    · next hcond =>
      rw [if_neg hcond] at htag ⊢
      cases hencoded : encodeAsset c.platform.gzip coding data (c.keeps data.length) with
      | none =>
        simp only [hencoded] at hok htag ⊢
        obtain ⟨hetag, hencoding, hbody, -⟩ := assetResponse_ok hok htag
        exact ⟨none, hetag, hencoding, hbody⟩
      | some encoded =>
        simp only [hencoded] at hok htag ⊢
        obtain ⟨hetag, hencoding, hbody, -⟩ := assetResponse_ok hok htag
        exact ⟨some coding, hetag, hencoding, hencoded.trans (congrArg some hbody.symm)⟩

/-! ## Every answer -/

section

variable {frozen : PathBuf → Prop} {T : FileSystem} (hguarded : Guarded c frozen) {s : Server}

/-- A full answer under a strong tag represents a content that was stored. -/
def TagsContent (c : Client) (resp : Response) (s : Server) : Prop :=
  resp.status = 200 → ∀ tag, resp.etag = some tag → Strong tag →
    ∃ e ∈ s.encodings, ∃ coding, Represents c e.data coding resp

lemma Untagged.tagsContent {resp : Response} (h : Untagged resp) : TagsContent c resp s :=
  fun _ tag htag hstrong => absurd hstrong (h tag htag)

lemma TagsContent.grown {resp : Response} {s' : Server} (h : TagsContent c resp s)
    (hgrown : s.Grown s') : TagsContent c resp s' := by
  intro hok tag htag hstrong
  obtain ⟨e, he, coding, hrep⟩ := h hok tag htag hstrong
  obtain ⟨i, hi⟩ := List.mem_iff_getElem?.mp he
  obtain ⟨e', he', -, hdata⟩ := hgrown i e hi
  exact ⟨e', List.mem_of_getElem? he', coding, hdata ▸ hrep⟩

lemma safe_serveResolved (headers : HeaderMap) (relative : Str) (gameData : Bool) :
    (contract hguarded T).Safe (TagsContent c) (c.serveResolved headers relative gameData) s := by
  refine (safe_getFileWith hguarded relative gameData).bind fun file s₁ _ hfile => ?_
  cases file with
  | none => exact (untagged_of_none rfl).tagsContent
  | some file =>
    have hknown := hfile file rfl
    refine (safe_serveAsset hguarded headers hknown).mono fun resp s₂ hgrown hresp => ?_
    subst hresp
    intro hok tag htag _
    obtain ⟨-, e, he, -, hdata⟩ := hknown.grown hgrown
    obtain ⟨coding, hrep⟩ := assetAnswer_represents hok htag
    exact ⟨e, List.mem_of_getElem? he, coding, hdata ▸ hrep⟩

lemma safe_serveFile (headers : HeaderMap) (relative : Str) (gameData : Bool) :
    (contract hguarded T).Safe (TagsContent c) (c.serveFile headers relative gameData) s := by
  have hfallback : ∀ s', (contract hguarded T).Safe (TagsContent c)
      (c.serveFallback headers relative gameData) s' := by
    intro s'
    unfold Client.serveFallback
    split
    · exact (safe_looks hguarded (serveRoot_looks headers served_indexPage)).mono
        fun _ _ _ h => h.untagged.tagsContent
    · exact safe_serveResolved hguarded headers relative gameData
  unfold Client.serveFile
  split
  · refine (safe_looks hguarded (serveStatic_looks headers serves_static)).bind fun r s' _ hr => ?_
    cases r with
    | none => exact hfallback s'
    | some resp => exact (hr resp rfl).untagged.tagsContent
  · exact hfallback s

lemma safe_serveGet (headers : HeaderMap) (relative : Str) (gameData : Bool) :
    (contract hguarded T).Safe (TagsContent c) (c.serveGet headers relative gameData) s := by
  unfold Client.serveGet
  split
  · exact (untagged_of_none rfl).tagsContent
  · split
    · exact safe_serveFile hguarded headers relative gameData
    · refine safe_act hguarded trivial fun bytes s' _ _ => ?_
      cases bytes with
      | none => exact safe_serveFile hguarded headers relative gameData
      | some bytes => exact (untagged_of_none rfl).tagsContent

/-- A GET keeps the body of its answer, and a HEAD drops it. -/
lemma safe_servePath (headers : HeaderMap) (method : Method) (rawPath : Str) (gameData : Bool) :
    (contract hguarded T).Safe (fun resp s => method = .get → TagsContent c resp s)
      (c.servePath headers method rawPath gameData) s := by
  cases method with
  | other => exact fun heq => absurd heq (by simp)
  | get => exact (safe_serveGet hguarded headers _ gameData).bind fun _ _ _ hresp _ => hresp
  | head => exact (safe_serveGet hguarded headers _ gameData).bind fun _ _ _ _ heq =>
      absurd heq (by simp)

/-- What a job promises about its answer: a GET's tag stands for a content. -/
def GetTagsContent (c : Client) (job : Job) (a : Option Response) (s : Server) : Prop :=
  ∀ r raw resp, job = .request r → r.endpoint = .path .get raw → a = some resp →
    TagsContent c resp s

lemma stable_getTagsContent (job : Job) :
    (contract hguarded T).Stable (GetTagsContent c job) := by
  intro a s s' hgrown hjob r raw resp hr hget ha
  exact (hjob r raw resp hr hget ha).grown hgrown

lemma safe_run (job : Job) :
    (contract hguarded T).Safe (GetTagsContent c job) (c.run job) s := by
  cases job with
  | warmUp limit =>
    refine (safe_warmFiles hguarded limit _ 0).bind fun _ _ _ _ => ?_
    exact fun r raw resp heq => absurd heq (by simp)
  | request r =>
    -- Only a GET of a path has to promise anything.
    have hother : ∀ a s', (∀ raw, r.endpoint ≠ .path .get raw) →
        GetTagsContent c (.request r) a s' := by
      intro a s' hne r' raw resp heq hpath
      exact absurd (Job.request.inj heq ▸ hpath) (hne raw)
    change (contract hguarded T).Safe _ (c.handle r) s
    unfold Client.handle
    split
    · next hendpoint => exact hother _ _ fun raw heq => absurd (hendpoint.symm.trans heq) (by simp)
    · next hendpoint => exact hother _ _ fun raw heq => absurd (hendpoint.symm.trans heq) (by simp)
    · next hendpoint =>
      refine (safe_serveBatch hguarded _ _ _).bind fun _ s' _ _ => ?_
      exact hother _ s' fun raw heq => absurd (hendpoint.symm.trans heq) (by simp)
    · next method rawPath hendpoint =>
      refine (safe_servePath hguarded r.headers method rawPath _).bind fun resp s₁ _ hresp => ?_
      intro r' raw resp' heq hpath ha
      obtain rfl := Job.request.inj heq
      rw [← Option.some.inj ha]
      exact hresp (Endpoint.path.inj (hendpoint.symm.trans hpath)).1

end

/-- **One asset ETag names one byte string.**  Whatever jobs ran in whatever order, on a disk
that others change as they like: two full answers to GET under the same strong tag have the
same body in the same coding, if no two of the contents stored so far have the same digest. -/
theorem etag_names_content {disk : FileSystem}
    {pool : Pool Action Action.Answer Server Job (Option Response)}
    (h : (c.machine fun _ => False).Reachable (Client.start c.cfg disk) pool)
    (hmd5 : ∀ e ∈ pool.state.encodings, ∀ e' ∈ pool.state.encodings,
      computeEtag c.platform.md5 e.data = computeEtag c.platform.md5 e'.data → e.data = e'.data)
    {r r' : Request} {raw raw' : Str} (hget : r.endpoint = .path .get raw)
    (hget' : r'.endpoint = .path .get raw') {resp resp' : Response}
    (hdone : (Job.request r, .ret (some resp)) ∈ pool.threads)
    (hdone' : (Job.request r', .ret (some resp')) ∈ pool.threads) (hok : resp.status = 200)
    (hok' : resp'.status = 200) {tag : Str} (hstrong : Strong tag) (htag : resp.etag = some tag)
    (htag' : resp'.etag = some tag) :
    resp.body = resp'.body ∧ resp.contentEncoding = resp'.contentEncoding := by
  have hpost : ∀ {r : Request} {raw : Str} {resp : Response}, r.endpoint = .path .get raw →
      (Job.request r, .ret (some resp)) ∈ pool.threads → TagsContent c resp pool.state := by
    intro r raw resp hget hdone
    have hjob : GetTagsContent c (.request r) (some resp) pool.state :=
      h.post (contract guarded_nothing disk) (stable_getTagsContent guarded_nothing)
        (fun job _ _ => safe_run guarded_nothing job)
        (sane_start disk fun _ hpath => absurd hpath id) hdone
    exact hjob r raw resp rfl hget rfl
  obtain ⟨e, he, coding, hrep⟩ := hpost hget hdone hok tag htag hstrong
  obtain ⟨e', he', coding', hrep'⟩ := hpost hget' hdone' hok' tag htag' hstrong
  have htags := quoted_inj (Option.some.inj
    (hrep.1.symm.trans (htag.trans (htag'.symm.trans hrep'.1))))
  obtain ⟨hdigest, rfl⟩ := codedEtag_inj htags
  have hdata := hmd5 e he e' he' hdigest
  rw [← hdata] at hrep'
  exact hrep.eq hrep'

/-! ## A sample -/

/-- A server of one file, with a gzip that makes everything one byte. -/
def sampleClient : Client where
  platform := {
    text := .ascii
    flate := Grf.Writer.sampleFlate
    crypto := Grf.Writer.noCrypto
    md5 := Calls.sampleMd5
    gzip := fun _ _ => [0]
    regex := fun _ _ => none
    jsonNames := fun _ => []
    jsonFiles := fun _ => []
    jsonFilter := fun _ => none
    parseHttpDate := fun _ => none
    fmtHttpDate := fun _ => []
    statusPage := [] }
  cfg := {
    root := [['s']]
    enableStaticServe := false
    enableCompression := true
    robrowserPath := [['w']]
    dataOverridePath := none
    bgmPath := none
    aiPath := none
    cacheMaxFiles := 1
    cacheMaxMemoryMb := 1
    clientEnablesearch := false
    clientAutoextract := false
    remoteGrfData := false
    autoextract_off := fun _ => rfl }
  grfs := []
  index := AssetIndex.empty

def sampleName : Str := ['a', '.', 't', 'x', 't']

def sampleContent : List Byte := List.replicate 1024 0

def sampleDisk : FileSystem where
  node := fun path => if path = [['s'], sampleName] then
    some (⟨false, true, 1024, 0⟩, some sampleContent) else none
  canonicalize := some

/-- A remote request for the file. -/
def sampleRequest : Request where
  loopback := false
  headers := { acceptEncoding := some "gzip".toList }
  endpoint := .path .get ('/' :: sampleName)

/-- The `i`-th copy of the file. -/
def sampleFile (i : ℕ) : CachedFile :=
  ⟨sampleContent, computeEtag Calls.sampleMd5 sampleContent, i⟩

/-- What a request is answered that finds nothing in the cache, and stores a file and makes its
encoding. -/
def firstAnswer (disk : FileSystem) (file : CachedFile) : (a : Action) → a.Answer
  | .cacheGet _ => none
  | .cacheInsert _ _ => file
  | .addEncoding _ _ _ => ()
  | .slotGet _ _ => none
  | .slotInit _ _ value => (value, true)
  | .isFile path => disk.isFile path
  | .read path => disk.read path
  | .metadata path => disk.metadata path
  | .canonicalize path => disk.canonicalize path
  | .extract _ _ => ()
  | .logMissing _ => ()

/-- What a request is answered that stores the `i`-th copy. -/
abbrev sampleAnswer (i : ℕ) : (a : Action) → a.Answer := firstAnswer sampleDisk (sampleFile i)

def sampleResponse : Response where
  status := 200
  contentType := some "text/plain; charset=utf-8".toList
  cacheControl := some "public, max-age=86400, immutable".toList
  etag := some (quoted "0000000000000000-gz".toList)
  vary := some "Accept-Encoding".toList
  contentEncoding := some "gzip".toList
  body := [0]

set_option maxRecDepth 8000 in
lemma sample_actions (i : ℕ) : (sampleClient.handle sampleRequest).actions (sampleAnswer i) =
    [.isFile [['s'], sampleName], .read [['s'], sampleName], .cacheInsert sampleName sampleContent,
      .slotGet i .gzip, .slotInit i .gzip (some [0]), .addEncoding sampleName (sampleFile i) 1] := by
  rfl

set_option maxRecDepth 8000 in
lemma sample_eval (i : ℕ) : (sampleClient.handle sampleRequest).eval (sampleAnswer i) =
    some sampleResponse := by
  rfl

/-- The request runs on its own: it stores a copy, makes its encoding and reports it. -/
lemma sample_serial {s : Server} (hsound : s.cache.Sound) (hdisk : s.disk = sampleDisk) :
    ∃ s', Serial (Server.perform Calls.sampleMd5) (sampleAnswer s.encodings.length)
        ((sampleClient.handle sampleRequest).actions (sampleAnswer s.encodings.length)) s s' ∧
      s'.cache.Sound ∧ s'.disk = sampleDisk ∧
      s'.encodings = s.encodings ++ [⟨sampleName, sampleContent, some (some [0])⟩] ∧
      s'.reported = s.reported ++ [s.encodings.length] := by
  obtain ⟨cache, hinsert, hsound₁, -⟩ := FileCache.insert_spec Calls.sampleMd5 hsound sampleName
    sampleContent s.encodings.length
  obtain ⟨cache', hadd, hsound₂, -⟩ := FileCache.addEncoding_spec hsound₁ sampleName
    (sampleFile s.encodings.length) 1
  let e : Encodings := ⟨sampleName, sampleContent, none⟩
  let s₁ : Server := { s with cache := cache, encodings := s.encodings ++ [e] }
  let s₂ : Server := { s₁ with encodings := s.encodings ++ [e.setSlot .gzip (some [0])] }
  have hindex : (index s₁.encodings s.encodings.length : Exec Empty Encodings) = .ok e :=
    index_eq_of_getElem? List.getElem?_concat_length
  have hset : s₁.encodings.set s.encodings.length (e.setSlot .gzip (some [0])) = s₂.encodings := by
    change (s.encodings ++ [e]).set s.encodings.length _ = _
    rw [List.set_append_right _ _ le_rfl, Nat.sub_self]
    rfl
  let s₃ : Server := { s₂ with cache := cache', reported := s.reported ++ [s.encodings.length] }
  have hisFile : s.perform Calls.sampleMd5 (.isFile [['s'], sampleName]) = .ok (true, s) := by
    rw [Server.perform, hdisk]
    rfl
  have hread : s.perform Calls.sampleMd5 (.read [['s'], sampleName]) =
      .ok (some sampleContent, s) := by
    rw [Server.perform, hdisk]
    rfl
  have hstore : s.perform Calls.sampleMd5 (.cacheInsert sampleName sampleContent) =
      .ok (sampleFile s.encodings.length, s₁) := by
    simp only [Server.perform, hinsert, ok_bind]
    rfl
  have hlook : s₁.perform Calls.sampleMd5 (.slotGet s.encodings.length .gzip) =
      .ok (none, s₁) := by
    simp only [Server.perform, hindex, ok_bind]
    rfl
  have hfill : s₁.perform Calls.sampleMd5 (.slotInit s.encodings.length .gzip (some [0])) =
      .ok ((some [0], true), s₂) := by
    simp only [Server.perform, hindex, ok_bind]
    rw [hset]
    rfl
  have hreport : s₂.perform Calls.sampleMd5
      (.addEncoding sampleName (sampleFile s.encodings.length) 1) = .ok ((), s₃) := by
    simp only [Server.perform]
    change (cache.addEncoding _ _ _ >>= _) = _
    rw [hadd]
    rfl
  refine ⟨s₃, ?_, hsound₂, hdisk, rfl, rfl⟩
  rw [sample_actions]
  exact .cons hisFile (.cons hread (.cons hstore (.cons hlook (.cons hfill
    (.cons hreport (.nil s₃))))))

/-- So it is answered, on any machine that has the same program for it. -/
lemma sample_reachable {m : Machine Action Action.Answer Server Job (Option Response)}
    {start s : Server} {threads : List (Job × Work (Option Response))}
    (hperform : m.perform = Server.perform Calls.sampleMd5)
    (hmain : m.main (.request sampleRequest) = sampleClient.handle sampleRequest)
    (h : m.Reachable start ⟨s, threads⟩) (hsound : s.cache.Sound) (hdisk : s.disk = sampleDisk) :
    ∃ s', m.Reachable start
        ⟨s', threads ++ [(.request sampleRequest, .ret (some sampleResponse))]⟩ ∧
      s'.cache.Sound ∧ s'.disk = sampleDisk ∧
      s'.encodings = s.encodings ++ [⟨sampleName, sampleContent, some (some [0])⟩] ∧
      s'.reported = s.reported ++ [s.encodings.length] := by
  obtain ⟨s', hserial, hrest⟩ := sample_serial hsound hdisk
  rw [← hmain, ← hperform] at hserial
  have hreach := h.serial hserial
  rw [hmain, sample_eval] at hreach
  exact ⟨s', hreach, hrest⟩

/-- Two requests, each with a copy and an encoding of its own. -/
theorem etag_names_content_sample :
    ∃ pool resp resp', (sampleClient.machine fun _ => False).Reachable
        (Client.start sampleClient.cfg sampleDisk) pool ∧
      pool.threads = [(.request sampleRequest, .ret (some resp)),
        (.request sampleRequest, .ret (some resp'))] ∧
      pool.state.encodings.length = 2 ∧ resp.body = resp'.body ∧
      resp.contentEncoding = resp'.contentEncoding := by
  obtain ⟨s₁, h₁, hsound₁, hdisk₁, hencodings₁, -⟩ :=
    sample_reachable (m := sampleClient.machine fun _ => False)
      (s := Client.start sampleClient.cfg sampleDisk) rfl rfl .start
      (sound_withBudget _ _) rfl
  obtain ⟨s₂, h₂, -, -, hencodings₂, -⟩ := sample_reachable rfl rfl h₁ hsound₁ hdisk₁
  rw [hencodings₁] at hencodings₂
  have hdata : ∀ e ∈ s₂.encodings, e.data = sampleContent := by
    rw [hencodings₂]
    intro e he
    rcases List.mem_cons.mp he with rfl | he
    · rfl
    · rw [List.mem_singleton.mp he]
  have hget : sampleRequest.endpoint = .path .get ('/' :: sampleName) := rfl
  have hstrong : Strong (quoted "0000000000000000-gz".toList) := rfl
  refine ⟨_, sampleResponse, sampleResponse, h₂, rfl, congrArg List.length hencodings₂, ?_⟩
  exact etag_names_content h₂ (fun e he e' he' _ => (hdata e he).trans (hdata e' he').symm)
    hget hget (by simp) (by simp) rfl rfl
    hstrong rfl rfl

end RemoteClient
