/-
# Copies that are confirmed

A client keeps a full answer under its strong tag and asks with that tag again later; a 304 then
tells it to use its copy.  Meanwhile files change, copies are replaced in the cache, and other
requests make encodings.  Still the copy is what the server would send in full, from a content
that a source has for the path (`confirmed_copies_are_current`).

A request that lists tags which nobody was sent may be confirmed a representation that is never
sent.  The tag of a full answer is of another kind: its coding has made the content smaller.
-/
import RemoteClient.Origins
import RemoteClient.Revalidation

namespace RemoteClient

open Exec Http

/-- A full answer to a GET that a client may keep under its tag. -/
structure Copy (pool : Pool Action Action.Answer Server Job (Option Response)) (tag : Str)
    (copy : Response) : Prop where
  answered : ∃ r raw, r.endpoint = .path .get raw ∧
    (Job.request r, .ret (some copy)) ∈ pool.threads
  full : copy.status = 200
  tagged : copy.etag = some tag
  strong : Strong tag

/-- A full answer is what a copy is, and says what a 304 says. -/
structure Confirms (tag : Str) (resp full copy : Response) : Prop where
  status : full.status = 200
  etag : full.etag = some tag
  vary : full.vary = resp.vary
  body : full.body = copy.body
  contentEncoding : full.contentEncoding = copy.contentEncoding

/-- The request lists no tags but those of copies. -/
def ListsCopies (pool : Pool Action Action.Answer Server Job (Option Response))
    (headers : HeaderMap) : Prop :=
  ∀ value, headers.ifNoneMatch = some value → ∀ item ∈ value.splitOn ',',
    ∃ copy, Copy pool (trim item) copy

/-- No two stored contents have one digest. -/
def DigestsDiffer (c : Client) (s : Server) : Prop :=
  ∀ e ∈ s.encodings, ∀ e' ∈ s.encodings,
    computeEtag c.platform.md5 e.data = computeEtag c.platform.md5 e'.data → e.data = e'.data

section

variable {c : Client} {headers : HeaderMap} {relative : Str} {data : List Byte}

/-- Only assets with a static extension have a tag. -/
lemma static_of_tagged {tag : Str} (h : (c.assetAnswer headers relative data).etag = some tag) :
    isStaticExtension (extensionOf relative) = true := by
  by_contra hstatic
  rw [Bool.not_eq_true] at hstatic
  have hnone : ∀ (body : List Byte) (etag : Str) (vary : Bool) (coding : Option Coding),
      (assetResponse headers relative body etag vary coding).etag = none := by
    intro body etag vary coding
    simp [assetResponse, hstatic]
  suffices huntagged : (c.assetAnswer headers relative data).etag = none from
    absurd (h.symm.trans huntagged) (by simp)
  unfold Client.assetAnswer
  simp only
  split
  · exact hnone _ _ _ _
  · split
    · exact hnone _ _ _ _
    · split
      · exact hnone _ _ _ _
      · exact hnone _ _ _ _

/-- Only a listed tag is confirmed. -/
lemma lists_of_notModified {tag : Str}
    (h304 : (c.assetAnswer headers relative data).status = 304)
    (htag : (c.assetAnswer headers relative data).etag = some tag) :
    tag = quoted (codedEtag (computeEtag c.platform.md5 data)
      (c.judgedCoding headers relative data)) ∧ headers.Lists tag := by
  obtain ⟨hstatus, hetag, -⟩ :=
    Client.assetAnswer_static c headers data (static_of_tagged htag)
  have heq := Option.some.inj (htag.symm.trans hetag)
  refine ⟨heq, ?_⟩
  rw [heq, ← etagMatches_iff]
  by_contra hnot
  rw [if_neg hnot] at hstatus
  exact absurd (h304.symm.trans hstatus) (by decide)

/-- A coding in which the content was sent is judged as it is sent. -/
lemma sentCoding_of_represents {copy : Response}
    (h : Represents c data (c.judgedCoding headers relative data) copy) :
    c.judgedCoding headers relative data = c.sentCoding headers relative data := by
  by_contra hne
  obtain ⟨coding, hcoding, hencoded, hlisted⟩ :=
    Client.judgedCoding_ne_iff.mp hne
  have hjudged : c.judgedCoding headers relative data = some coding := by
    rw [Client.judgedCoding, hcoding, Option.filter_some, if_pos (by simp [hlisted])]
  rw [hjudged] at h
  exact absurd (hencoded.symm.trans h.2.2) (by simp)

/-- A 304 under the tag of a copy stands for the copy. -/
lemma full_of_copy {copy : Response} {coding : Option Coding} {e : List Byte} {tag : Str}
    (h304 : (c.assetAnswer headers relative data).status = 304)
    (htag : (c.assetAnswer headers relative data).etag = some tag)
    (hdata : computeEtag c.platform.md5 e = computeEtag c.platform.md5 data → e = data)
    (hcopy : Represents c e coding copy) (hcopyTag : copy.etag = some tag) :
    Confirms tag (c.assetAnswer headers relative data)
      (c.assetAnswer headers.unconditional relative data) copy := by
  have hstatic := static_of_tagged htag
  obtain ⟨rfl, -⟩ := lists_of_notModified h304 htag
  -- The tag tells the content and the coding of the copy.
  obtain ⟨hdigest, rfl⟩ := codedEtag_inj (quoted_inj (Option.some.inj (hcopy.1.symm.trans hcopyTag)))
  obtain rfl := hdata hdigest
  have hsent := sentCoding_of_represents hcopy
  obtain ⟨-, -, hvary⟩ := Client.assetAnswer_static c headers e hstatic
  obtain ⟨hstatus, hetag, hvary'⟩ :=
    Client.assetAnswer_static c headers.unconditional e hstatic
  rw [Client.judgedCoding_unconditional, ← hsent] at hstatus hetag
  have hok : (c.assetAnswer headers.unconditional relative e).status = 200 := by
    rw [hstatus, if_neg]
    simp [etagMatches, HeaderMap.unconditional]
  obtain ⟨coding', hfull⟩ := assetAnswer_represents hok hetag
  obtain ⟨-, rfl⟩ := codedEtag_inj (quoted_inj (Option.some.inj (hfull.1.symm.trans hetag)))
  obtain ⟨hbody, hencoding⟩ := hfull.eq hcopy
  exact ⟨hok, hetag, hvary'.trans hvary.symm, hbody, hencoding⟩

end

section

variable {c : Client} {frozen : PathBuf → Prop} {T disk : FileSystem}
  {pool : Pool Action Action.Answer Server Job (Option Response)}

/-- What a copy represents was stored. -/
lemma Copy.represents (hguarded : Guarded c frozen)
    (hdisk : ∀ path, frozen path → disk.node path = T.node path)
    (h : (c.machine frozen).Reachable (Client.start c.cfg disk) pool) {tag : Str} {copy : Response}
    (hcopy : Copy pool tag copy) :
    ∃ e ∈ pool.state.encodings, ∃ coding, Represents c e.data coding copy := by
  obtain ⟨r, raw, hget, hdone⟩ := hcopy.answered
  have hjob : GetTagsContent c (.request r) (some copy) pool.state :=
    h.post (contract hguarded T) (stable_getTagsContent hguarded)
      (fun job _ _ => safe_run hguarded job) (sane_start disk hdisk) hdone
  exact hjob r raw copy rfl hget rfl hcopy.full tag hcopy.tagged hcopy.strong

end

/-- **A confirmed copy is current.**  Whatever requests and warm-ups run in whatever order, while
others change what is not frozen: when a GET that lists tags of copies is answered with a 304
under a strong tag, there is a copy of that tag, and every copy of that tag has the body and the
coding that the full answer has, for a content that was stored under the key of the path and that
a source has for it. -/
theorem confirmed_copies_are_current {c : Client} {frozen : PathBuf → Prop}
    {links : PathBuf → PathBuf → Prop} {T disk : FileSystem} (hguarded : Guarded c frozen)
    (hdisk : ∀ path, frozen path → disk.node path = T.node path) (hlinks : disk.LinksTo links)
    {pool : Pool Action Action.Answer Server Job (Option Response)}
    (h : (c.linked frozen links).Reachable (Client.start c.cfg disk) pool)
    (hmd5 : DigestsDiffer c pool.state) {r : Request} {raw : Str}
    (hget : r.endpoint = .path .get raw) {resp : Response}
    (hdone : (Job.request r, .ret (some resp)) ∈ pool.threads) (h304 : resp.status = 304)
    {tag : Str} (htag : resp.etag = some tag) (hstrong : Strong tag)
    (hlists : ListsCopies pool r.headers) :
    (∃ copy, Copy pool tag copy) ∧
    ∃ full, c.FromSource frozen links T r.headers.unconditional (c.decoded raw) full pool.state ∧
      ∀ copy, Copy pool tag copy → Confirms tag resp full copy := by
  have hjob : GetAnswersFrom c frozen links T (.request r) (some resp) pool.state :=
    h.post (wholeContract hguarded links T) (stable_getAnswersFrom hguarded)
      (fun job _ _ => answers_run hguarded job) ⟨sane_start disk hdisk, traced_start hdisk hlinks⟩ hdone
  obtain ⟨resp', heq, hfrom⟩ := hjob r raw rfl hget
  obtain rfl := Option.some.inj heq
  obtain ⟨e, he, hkey, hsourced, rfl⟩ := hfrom.sourced.resolve_left fun huntagged =>
    huntagged tag htag hstrong
  -- The star is the tag of no copy, so the tag itself is listed.
  obtain ⟨-, value, hvalue, item, hitem, hlisted⟩ := lists_of_notModified h304 htag
  obtain ⟨copy, hcopy⟩ := hlists value hvalue item hitem
  have hitemTag : trim item = tag := by
    refine hlisted.resolve_right fun hstar => ?_
    have hhead := hcopy.strong
    rw [hstar] at hhead
    exact absurd hhead (by simp [Strong])
  rw [hitemTag] at hcopy
  refine ⟨⟨copy, hcopy⟩, _, ⟨e, he, hkey, hsourced, rfl⟩, fun copy' hcopy' => ?_⟩
  obtain ⟨e', he', coding, hrepresents⟩ := hcopy'.represents hguarded hdisk h.of_keeping
  exact full_of_copy h304 htag (hmd5 e' he' e he) hrepresents hcopy'.tagged

/-! ## A sample -/

/-- The tag of the sample file in gzip. -/
def sampleTag : Str := quoted "0000000000000000-gz".toList

/-- The sample request, by a client that has its answer. -/
def sampleRevalidation : Request :=
  { sampleRequest with
    headers := { acceptEncoding := some "gzip".toList, ifNoneMatch := some sampleTag } }

def sampleNotModified : Response where
  status := 304
  cacheControl := some "public, max-age=86400, immutable".toList
  etag := some sampleTag
  vary := some "Accept-Encoding".toList
  body := []

set_option maxRecDepth 8000 in
lemma revalidation_actions (i : ℕ) :
    (sampleClient.handle sampleRevalidation).actions (sampleAnswer i) =
      [.isFile [['s'], sampleName], .read [['s'], sampleName],
        .cacheInsert sampleName sampleContent] := by
  rfl

set_option maxRecDepth 8000 in
lemma revalidation_eval (i : ℕ) : (sampleClient.handle sampleRevalidation).eval (sampleAnswer i) =
    some sampleNotModified := by
  rfl

/-- No path of the sample disk is a link. -/
def sampleLinks (path file : PathBuf) : Prop := file = path

/-- The sample server on a disk that nobody changes. -/
abbrev sampleMachine : Machine Action Action.Answer Server Job (Option Response) :=
  sampleClient.linked (fun _ => True) sampleLinks

lemma revalidation_reachable {start s : Server} {threads : List (Job × Work (Option Response))}
    (h : sampleMachine.Reachable start ⟨s, threads⟩)
    (hsound : s.cache.Sound) (hdisk : s.disk = sampleDisk) :
    ∃ s', sampleMachine.Reachable start
        ⟨s', threads ++ [(.request sampleRevalidation, .ret (some sampleNotModified))]⟩ ∧
      s'.encodings = s.encodings ++ [⟨sampleName, sampleContent, none⟩] := by
  obtain ⟨cache, hinsert, -⟩ := FileCache.insert_spec Calls.sampleMd5 hsound sampleName
    sampleContent s.encodings.length
  let s' : Server :=
    { s with cache := cache, encodings := s.encodings ++ [⟨sampleName, sampleContent, none⟩] }
  have hisFile : s.perform Calls.sampleMd5 (.isFile [['s'], sampleName]) = .ok (true, s) := by
    rw [Server.perform, hdisk]
    rfl
  have hread : s.perform Calls.sampleMd5 (.read [['s'], sampleName]) =
      .ok (some sampleContent, s) := by
    rw [Server.perform, hdisk]
    rfl
  have hstore : s.perform Calls.sampleMd5 (.cacheInsert sampleName sampleContent) =
      .ok (sampleFile s.encodings.length, s') := by
    simp only [Server.perform, hinsert, ok_bind]
    rfl
  have hserial : Serial (Server.perform Calls.sampleMd5) (sampleAnswer s.encodings.length)
      ((sampleClient.handle sampleRevalidation).actions (sampleAnswer s.encodings.length)) s s' := by
    rw [revalidation_actions]
    exact .cons hisFile (.cons hread (.cons hstore (.nil s')))
  have hmain : sampleMachine.main (.request sampleRevalidation) =
      sampleClient.handle sampleRevalidation := rfl
  have hperform : sampleMachine.perform = Server.perform Calls.sampleMd5 := rfl
  rw [← hmain, ← hperform] at hserial
  have hreach := h.serial hserial
  rw [hmain, revalidation_eval] at hreach
  exact ⟨s', hreach, rfl⟩

/-- The sample file is sent, and then its copy is confirmed. -/
theorem confirmed_copies_are_current_sample : ∃ pool full copy,
    sampleMachine.Reachable (Client.start sampleClient.cfg sampleDisk) pool ∧
      Copy pool sampleTag copy ∧ Confirms sampleTag sampleNotModified full copy := by
  have hguarded : Guarded sampleClient fun _ => True := fun _ _ => rfl
  have hlinks : sampleDisk.LinksTo sampleLinks := fun _ _ h => (Option.some.inj h).symm
  obtain ⟨s₁, h₁, hsound₁, hdisk₁, hencodings₁, -⟩ :=
    sample_reachable (m := sampleMachine) (s := Client.start sampleClient.cfg sampleDisk) rfl rfl
      .start (sound_withBudget _ _) rfl
  obtain ⟨s₂, h₂, hencodings₂⟩ := revalidation_reachable h₁ hsound₁ hdisk₁
  rw [hencodings₁] at hencodings₂
  have hdata : ∀ e ∈ s₂.encodings, e.data = sampleContent := by
    rw [hencodings₂]
    intro e he
    rcases List.mem_cons.mp he with rfl | he
    · rfl
    · rw [List.mem_singleton.mp he]
  have hget : sampleRequest.endpoint = .path .get ('/' :: sampleName) := rfl
  have hcopy : Copy ⟨s₂, [] ++ [(.request sampleRequest, .ret (some sampleResponse))] ++
      [(.request sampleRevalidation, .ret (some sampleNotModified))]⟩ sampleTag sampleResponse :=
    ⟨⟨sampleRequest, _, hget, by simp⟩, rfl, rfl, rfl⟩
  have hlists : ListsCopies ⟨s₂, [] ++ [(.request sampleRequest, .ret (some sampleResponse))] ++
      [(.request sampleRevalidation, .ret (some sampleNotModified))]⟩
      sampleRevalidation.headers := by
    intro value hvalue item hitem
    obtain rfl := Option.some.inj hvalue
    rw [show sampleTag.splitOn ',' = [sampleTag] by decide] at hitem
    rw [List.mem_singleton.mp hitem]
    exact ⟨sampleResponse, hcopy⟩
  have hget' : sampleRevalidation.endpoint = .path .get ('/' :: sampleName) := rfl
  have hdone : (Job.request sampleRevalidation, .ret (some sampleNotModified)) ∈
      [(.request sampleRequest, .ret (some sampleResponse))] ++
        [(.request sampleRevalidation, (.ret (some sampleNotModified) : Work _))] := by simp
  have hstrong : Strong sampleTag := rfl
  obtain ⟨-, full, -, hfull⟩ := confirmed_copies_are_current hguarded (fun _ _ => rfl) hlinks h₂
    (fun e he e' he' _ => (hdata e he).trans (hdata e' he').symm) hget' hdone rfl rfl hstrong hlists
  exact ⟨_, full, sampleResponse, h₂, hcopy, hfull sampleResponse hcopy⟩

end RemoteClient
