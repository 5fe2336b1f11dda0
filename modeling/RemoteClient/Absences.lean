/-
# What the record of misses tells

A path is noted when the archives were asked for it and have nothing that can be read.  The
record of the server says neither too much nor too little, whatever requests run in whatever
order (`misses_are_recorded`): every path in it was asked for by a request that may have the
game data, and the archives have no file for it; and when such a request ends without the file
of a path that is looked for, and the archives have none, the path is in the record.
-/
import RemoteClient.Extraction
import RemoteClient.Lib.Trail
import RemoteClient.Misses
import RemoteClient.Origins
import RemoteClient.Revalidation

namespace RemoteClient

open Exec Http

/-! ## Resolving -/

namespace Client

variable (c : Client)

/-- A path that is looked for, and that no archive has a readable file for. -/
structure Absent (reqPath : Str) : Prop where
  looksFor : c.looksFor reqPath = true
  archives : c.archiveData reqPath = .ok none

/-- An action that notes nothing, or an absent path that is asked for. -/
def NotesAbsent (asked : Str → Prop) : Action → Prop
  | .logMissing reqPath => asked reqPath ∧ c.Absent reqPath
  | _ => True

/-- The one path that is asked for, with the game data. -/
def AskedAs (reqPath : Str) (gameData : Bool) (path : Str) : Prop := gameData = true ∧ path = reqPath

/-- Where nothing was found, an absent path has been noted. -/
def MissNoted (reqPath : Str) (gameData : Bool) (found : Option CachedFile) (past : List Action) :
    Prop :=
  found = none → gameData = true → c.Absent reqPath → .logMissing reqPath ∈ past

/-- A program that looks for a path, and notes that path at most. -/
abbrev Noting {α : Type} (reqPath : Str) (gameData : Bool) (found : α → Option CachedFile)
    (past : List Action) (p : Work α) : Prop :=
  p.Trail (c.NotesAbsent (AskedAs reqPath gameData))
    (fun r past => c.MissNoted reqPath gameData (found r) past) past

end Client

section

variable {c : Client} {reqPath : Str} {gameData : Bool} {past : List Action}

lemma missNoted_some (file : CachedFile) : c.MissNoted reqPath gameData (some file) past :=
  fun hnone => absurd hnone (by simp)

lemma noting_store (key : Str) (content : List Byte) (source : Source) :
    c.Noting reqPath gameData Client.joined past (Client.store key content source) :=
  ⟨trivial, fun file => missNoted_some file⟩

lemma noting_missed (hgame : gameData = true) (habsent : c.Absent reqPath) :
    c.Noting reqPath gameData Client.joined past (Client.missed reqPath) :=
  ⟨⟨⟨hgame, rfl⟩, habsent⟩, fun _ _ _ _ => List.mem_cons_self⟩

lemma noting_resolveArchive (key : Str) (hgame : gameData = true)
    (hlooks : c.looksFor reqPath = true) :
    c.Noting reqPath gameData Client.joined past (c.resolveArchive key reqPath) := by
  -- A path that the archives cannot be asked for is not absent.
  have hstop : c.archiveData reqPath ≠ .ok none → ∀ stop : Stop Empty,
      c.Noting reqPath gameData Client.joined past (.ret (.error stop)) :=
    fun hne _ _ _ habsent => absurd habsent.archives hne
  unfold Client.resolveArchive
  cases hhit : c.archiveHit reqPath with
  | error stop => exact hstop (by simp [Client.archiveData, hhit]) stop
  | ok hit =>
    cases hit with
    | none => exact noting_missed hgame ⟨hlooks, by simp [Client.archiveData, hhit]⟩
    | some found =>
      simp only
      cases hread : c.readFound found with
      | ok content =>
        change Prog.Trail _ _ _ (if c.cfg.clientAutoextract = true then _ else _)
        split
        · unfold Client.extractFile
          split
          · exact noting_store key content (.grf found.grf)
          · exact ⟨trivial, fun _ => noting_store key content (.grf found.grf)⟩
        · exact noting_store key content (.grf found.grf)
      | error stop =>
        cases stop with
        | err _ => exact noting_missed hgame ⟨hlooks, by simp [Client.archiveData, hhit, hread]⟩
        | panic => exact hstop (by simp [Client.archiveData, hhit, hread]) _
        | hang => exact hstop (by simp [Client.archiveData, hhit, hread]) _

lemma noting_resolveGameData (key : Str) (hlooks : c.looksFor reqPath = true) :
    c.Noting reqPath gameData Client.joined past (c.resolveGameData key reqPath gameData) := by
  cases gameData with
  | true => exact noting_resolveArchive key rfl hlooks
  | false => exact fun _ hgame => absurd hgame (by simp)

lemma noting_storeFile (key : Str) (path : PathBuf) (source : Source) {next : Work Resolved}
    (hnext : ∀ past, c.Noting reqPath gameData Client.joined past next) :
    c.Noting reqPath gameData Client.joined past (Client.storeFile key path source next) := by
  refine ⟨trivial, fun content => ?_⟩
  cases content with
  | some content => exact noting_store key content source
  | none => exact hnext _

lemma noting_file (key : Str) (path : PathBuf) (source : Source) {next : Work Resolved}
    (hnext : ∀ past, c.Noting reqPath gameData Client.joined past next) :
    c.Noting reqPath gameData Client.joined past (do
      if ← Work.isFile path then Client.storeFile key path source next else next) := by
  refine ⟨trivial, fun isFile => ?_⟩
  cases isFile with
  | true => exact noting_storeFile key path source hnext
  | false => exact hnext _

lemma noting_resolveOverride (key : Str) (hlooks : c.looksFor reqPath = true) :
    c.Noting reqPath gameData Client.joined past (c.resolveOverride key reqPath gameData) := by
  unfold Client.resolveOverride
  simp only
  split
  · exact noting_resolveGameData key hlooks
  · exact noting_file key _ _ fun past => noting_resolveGameData key hlooks

/-- To look for a file within a directory notes nothing. -/
lemma noting_confinedFile (root : PathBuf) (rel : Str) :
    (Client.confinedFile root rel).Trail (c.NotesAbsent (Client.AskedAs reqPath gameData))
      (fun _ _ => True) past := by
  unfold Client.confinedFile
  split
  · trivial
  · refine ⟨trivial, fun base => ?_⟩
    cases base with
    | none => trivial
    | some base =>
      refine ⟨trivial, fun file => ?_⟩
      cases file with
      | none => trivial
      | some file =>
        change Prog.Trail _ _ _ (if base.isPrefixOf file then _ else _)
        split
        · refine ⟨trivial, fun isFile => ?_⟩
          cases isFile <;> trivial
        · trivial

lemma noting_resolveClientDirectory (key : Str) (hlooks : c.looksFor reqPath = true) :
    c.Noting reqPath gameData Client.joined past
      (c.resolveClientDirectory key reqPath gameData) := by
  unfold Client.resolveClientDirectory
  cases (c.clientDirectory reqPath).filter fun _ => gameData with
  | none => exact noting_resolveOverride key hlooks
  | some x =>
    refine (noting_confinedFile x.1 x.2).bind fun found past' _ => ?_
    cases found with
    | none => exact noting_resolveOverride key hlooks
    | some path => exact noting_storeFile key path _ fun past => noting_resolveOverride key hlooks

/-- **A path is noted when it is not found.** -/
lemma noting_resolveWith (reqPath : Str) (gameData : Bool) :
    c.Noting reqPath gameData Client.joined past (c.resolveWith reqPath gameData) := by
  have hunlooked : c.looksFor reqPath = false →
      c.Noting reqPath gameData Client.joined past (.ret (.ok none)) :=
    fun hnot _ _ habsent => absurd (hnot.symm.trans habsent.looksFor) (by simp)
  unfold Client.resolveWith
  cases hpublic : publicAssetPath reqPath with
  | false => exact hunlooked (by rw [Client.looksFor, hpublic, Bool.false_and])
  | true =>
    cases hjoin : safeJoin c.cfg.root reqPath with
    | none => exact hunlooked (by rw [Client.looksFor, hjoin, Option.isSome_none, Bool.and_false])
    | some path =>
      have hlooks : c.looksFor reqPath = true := by rw [Client.looksFor, hpublic, hjoin]; rfl
      have hlocal : ∀ past, c.Noting reqPath gameData Client.joined past
          (c.resolveLocal (c.cacheKey reqPath) reqPath path gameData) := fun past =>
        noting_file _ path _ fun past => noting_resolveClientDirectory _ hlooks
      cases gameData with
      | false => exact hlocal past
      | true =>
        refine ⟨trivial, fun hit => ?_⟩
        cases hit with
        | some file => exact missNoted_some file
        | none => exact hlocal _

lemma noting_getFileWith (reqPath : Str) (gameData : Bool) :
    c.Noting reqPath gameData id past (c.getFileWith reqPath gameData) := by
  have hjoined : ∀ gameData past, c.Noting reqPath gameData id past
      (Client.joined <$> c.resolveWith reqPath gameData) := fun gameData past =>
    (noting_resolveWith reqPath gameData).bind fun _ _ h => h
  unfold Client.getFileWith
  cases gameData with
  | false => exact hjoined false past
  | true =>
    change c.Noting reqPath true id past (c.getFile reqPath)
    unfold Client.getFile Client.cached
    cases publicAssetPath reqPath with
    | false => exact hjoined true past
    | true =>
      refine ⟨trivial, fun hit => ?_⟩
      cases hit with
      | some file => exact missNoted_some file
      | none => exact hjoined true _

end

/-! ## Answers -/

/-- An action that notes nothing. -/
def Unnoting : Action → Prop
  | .logMissing _ => False
  | _ => True

/-- A program that notes nothing and never answers that there is no such file. -/
abbrev Present (p : Work Response) : Prop := p.All Unnoting fun resp => resp.status ≠ 404

section

variable {c : Client} {past : List Action}

lemma Unnoting.notesAbsent {asked : Str → Prop} {a : Action} (h : Unnoting a) :
    c.NotesAbsent asked a := by
  cases a with
  | logMissing reqPath => exact h.elim
  | _ => trivial

lemma Client.NotesAbsent.mono {asked asked' : Str → Prop} (h : ∀ path, asked path → asked' path)
    {a : Action} (ha : c.NotesAbsent asked a) : c.NotesAbsent asked' a := by
  cases a with
  | logMissing reqPath => exact ⟨h reqPath ha.1, ha.2⟩
  | _ => trivial

lemma present_encoded (reqPath : Str) (file : CachedFile) (coding : Coding) :
    (c.encoded reqPath file coding).All Unnoting fun _ => True := by
  unfold Client.encoded
  refine ⟨trivial, fun done => ?_⟩
  cases done with
  | some done => trivial
  | none =>
    change Prog.All _ _ (if !c.keeps file.data.length then _ else _)
    split
    · trivial
    · refine ⟨trivial, fun r => ?_⟩
      match r with
      | (some bytes, true) => exact ⟨trivial, fun _ => trivial⟩
      | (some bytes, false) => trivial
      | (none, _) => trivial

lemma status_assetResponse (headers : HeaderMap) (path : Str) (body : List Byte) (etag : Str)
    (vary : Bool) (coding : Option Coding) :
    (assetResponse headers path body etag vary coding).status ≠ 404 := by
  simp only [assetResponse]
  split
  · simp [notModified]
  · simp

lemma present_serveAsset (headers : HeaderMap) (relative : Str) (file : CachedFile) :
    Present (c.serveAsset headers relative file) := by
  have hrespond : ∀ body etag vary coding,
      Present (.ret (assetResponse headers relative body etag vary coding)) :=
    status_assetResponse headers relative
  unfold Client.serveAsset
  simp only
  split
  · exact hrespond _ _ _ _
  · split
    · exact hrespond _ _ _ _
    · refine (present_encoded relative file _).bind fun made _ => ?_
      cases made with
      | some bytes => exact hrespond _ _ _ _
      | none => exact hrespond _ _ _ _

lemma present_serveRoot (headers : HeaderMap) : Present (c.serveRoot headers) := by
  have hpage : ∀ (cacheControl : Option Str) (body : List Byte), (c.compress headers
      { status := 200
        contentType := some "text/html; charset=utf-8".toList
        cacheControl := cacheControl
        body := [] } body).status ≠ 404 := by
    intro cacheControl body
    rw [Client.status_compress]
    simp
  refine ⟨trivial, fun isFile => ?_⟩
  cases isFile with
  | false => exact hpage _ _
  | true =>
    refine ⟨trivial, fun content => ?_⟩
    cases content <;> exact hpage _ _

/-- A static file is served, or it is not there. -/
abbrev PresentFile (p : Work (Option Response)) : Prop :=
  p.All Unnoting fun r => ∀ resp, r = some resp → resp.status ≠ 404

lemma presentFile_none : ∀ resp : Response, none = some resp → resp.status ≠ 404 :=
  fun resp heq => absurd heq (by simp)

lemma present_siblingsIn (path : PathBuf) (modified : ℤ) (codings : List (Str × Str)) :
    (Client.siblingsIn path modified codings).All Unnoting fun _ => True := by
  induction codings with
  | nil => trivial
  | cons x codings ih =>
    refine ⟨trivial, fun metadata => ih.bind fun others _ => ?_⟩
    split <;> trivial

lemma present_staticAnswer (headers : HeaderMap) (path : PathBuf) (metadata : Metadata)
    (siblings : List Client.Sibling) :
    PresentFile (c.staticAnswer headers path metadata siblings) := by
  simp only [Client.staticAnswer]
  split
  · intro resp heq
    rw [← Option.some.inj heq]
    simp
  · split
    · refine ⟨trivial, fun content => ?_⟩
      cases content with
      | none => exact presentFile_none
      | some content =>
        intro resp heq
        rw [← Option.some.inj heq]
        simp
    · refine ⟨trivial, fun content => ?_⟩
      cases content with
      | none => exact presentFile_none
      | some content =>
        intro resp heq
        rw [← Option.some.inj heq, Client.status_compress]
        simp

lemma present_staticFile (headers : HeaderMap) (path : PathBuf) (metadata : Metadata) :
    PresentFile (c.staticFile headers path metadata) := by
  unfold Client.staticFile
  split
  · refine Prog.All.bind (P := fun _ => True) ?_ fun siblings _ =>
      present_staticAnswer headers path metadata siblings
    unfold Client.freshSiblings
    simp only
    split
    · trivial
    · exact present_siblingsIn path _ _
  · exact present_staticAnswer headers path metadata []

lemma present_serveStatic (headers : HeaderMap) (relative : Str) :
    PresentFile (c.serveStatic headers relative) := by
  unfold Client.serveStatic
  split
  · exact presentFile_none
  · next candidate _ =>
    refine ⟨trivial, fun metadata => ?_⟩
    cases metadata with
    | none => exact presentFile_none
    | some metadata =>
      change Prog.All _ _ (if metadata.isDir = true then _ else _)
      split
      · refine ⟨trivial, fun page => ?_⟩
        cases page with
        | none => exact presentFile_none
        | some page => exact present_staticFile headers _ page
      · exact present_staticFile headers candidate metadata

end

/-! ## Requests -/

/-- The paths that a request asks for. -/
inductive Request.Asks (c : Client) (r : Request) (reqPath : Str) : Prop
  | path {method : Method} {raw : Str} (h : r.endpoint = .path method raw)
      (hmethod : method ≠ .other) (hdecoded : c.decoded raw = reqPath)
  | batch {files : List Str} (h : r.endpoint = .batch (some files)) (hmem : reqPath ∈ files)

/-- What a job asks for with the game data. -/
def Job.Asks (c : Client) (job : Job) (reqPath : Str) : Prop :=
  ∃ r, job = .request r ∧ r.gameData c.cfg = true ∧ r.Asks c reqPath

/-- Every absent path that an answer has no file for is noted. -/
structure Client.Accounts (c : Client) (noted : Str → Prop) (r : Request) (a : Option Response) :
    Prop where
  path : ∀ {method raw}, r.endpoint = .path method raw → method ≠ .other →
    ∃ resp, a = some resp ∧ (resp.status = 404 → c.Absent (c.decoded raw) → noted (c.decoded raw))
  batch : ∀ {files}, r.endpoint = .batch (some files) → files ≠ [] →
    files.length ≤ Client.maxBatchFiles → ∃ results : Std.TreeMap Str Str,
      a = some (c.jsonResponse r.headers (c.platform.jsonFiles results.toList) none) ∧
      ∀ path ∈ files, results[path]? = none → c.Absent path → noted path

section

variable {c : Client} {past : List Action} {gameData : Bool} {asked : Str → Prop}

lemma noting_serveResolved (headers : HeaderMap) (relative : Str) (gameData : Bool) :
    (c.serveResolved headers relative gameData).Trail
      (c.NotesAbsent (Client.AskedAs relative gameData))
      (fun resp past => resp.status = 404 → gameData = true → c.Absent relative →
        .logMissing relative ∈ past) past := by
  refine (noting_getFileWith relative gameData).bind fun found past' hfound => ?_
  cases found with
  | none => exact fun _ => hfound rfl
  | some file =>
    refine (present_serveAsset headers relative file).trail.mono (fun _ ha => ha.notesAbsent) ?_
    exact fun _ _ hpresent h404 => absurd h404 hpresent

lemma noting_serveFile (headers : HeaderMap) (relative : Str) (gameData : Bool) :
    (c.serveFile headers relative gameData).Trail
      (c.NotesAbsent (Client.AskedAs relative gameData))
      (fun resp past => resp.status = 404 → gameData = true → c.Absent relative →
        .logMissing relative ∈ past) past := by
  have hfallback : ∀ past, (c.serveFallback headers relative gameData).Trail
      (c.NotesAbsent (Client.AskedAs relative gameData))
      (fun resp past => resp.status = 404 → gameData = true → c.Absent relative →
        .logMissing relative ∈ past) past := by
    intro past
    unfold Client.serveFallback
    split
    · refine (present_serveRoot headers).trail.mono (fun _ ha => ha.notesAbsent) ?_
      exact fun _ _ hpresent h404 => absurd h404 hpresent
    · exact noting_serveResolved headers relative gameData
  unfold Client.serveFile
  split
  · refine ((present_serveStatic headers relative).trail.mono (fun _ ha => ha.notesAbsent)
      fun _ _ h => h).bind fun r past' hpresent => ?_
    cases r with
    | some resp => exact fun h404 => absurd h404 (hpresent resp rfl)
    | none => exact hfallback past'
  · exact hfallback past

lemma noting_serveGet (headers : HeaderMap) (relative : Str) (gameData : Bool) :
    (c.serveGet headers relative gameData).Trail
      (c.NotesAbsent (Client.AskedAs relative gameData))
      (fun resp past => resp.status = 404 → gameData = true → c.Absent relative →
        .logMissing relative ∈ past) past := by
  unfold Client.serveGet
  split
  · next hprivate =>
    intro _ _ habsent
    have hlooks := habsent.looksFor
    rw [Client.looksFor, (Bool.not_eq_true' _).mp hprivate, Bool.false_and] at hlooks
    exact absurd hlooks (by simp)
  · split
    · exact noting_serveFile headers relative gameData
    · refine ⟨trivial, fun bytes => ?_⟩
      cases bytes with
      | some bytes => exact fun h404 => absurd h404 (by simp)
      | none => exact noting_serveFile headers relative gameData

/-- What a batch has nothing for is noted where it is absent. -/
lemma noting_fetchFiles {files : List Str} (hasked : ∀ path ∈ files, gameData = true → asked path)
    (results : Std.TreeMap Str Str) :
    (c.fetchFiles gameData files results).Trail (c.NotesAbsent asked)
      (fun out past => ∀ path, out[path]? = none → results[path]? = none ∧
        (path ∈ files → gameData = true → c.Absent path → .logMissing path ∈ past)) past := by
  induction files generalizing results past with
  | nil => exact fun path hout => ⟨hout, fun hmem => absurd hmem (by simp)⟩
  | cons first files ih =>
    have hrest : ∀ path ∈ files, gameData = true → asked path := fun path hmem =>
      hasked path (List.mem_cons_of_mem first hmem)
    have hfirst : (c.getFileWith first gameData).Trail (c.NotesAbsent asked)
        (c.MissNoted first gameData) past := by
      refine (noting_getFileWith first gameData).mono (fun a ha => ha.mono ?_) fun _ _ h => h
      rintro path ⟨hgame, rfl⟩
      exact hasked path List.mem_cons_self hgame
    rw [Client.fetchFiles]
    refine hfirst.bind fun found past₁ hfound => ?_
    cases found with
    | none =>
      refine (ih hrest results).grows.mono (fun _ ha => ha) ?_
      rintro out past₂ ⟨hsub, hout⟩ path hnone
      refine ⟨(hout path hnone).1, fun hmem hgame habsent => ?_⟩
      rcases List.mem_cons.mp hmem with rfl | hmem
      · exact hsub (hfound rfl hgame habsent)
      · exact (hout path hnone).2 hmem hgame habsent
    | some file =>
      refine (ih hrest _).mono (fun _ ha => ha) ?_
      intro out past₂ hout path hnone
      obtain ⟨hinsert, hmissed⟩ := hout path hnone
      rw [Std.TreeMap.getElem?_insert] at hinsert
      split at hinsert
      · exact absurd hinsert (by simp)
      · next hne =>
        refine ⟨hinsert, fun hmem hgame habsent => ?_⟩
        rcases List.mem_cons.mp hmem with rfl | hmem
        · exact absurd Std.ReflCmp.compare_self hne
        · exact hmissed hmem hgame habsent

lemma present_warmFiles (limit : ℕ) (reachable : List (BitVec 32)) (warmed : ℕ) :
    (c.warmFiles limit reachable warmed).All Unnoting fun _ => True := by
  induction reachable generalizing warmed with
  | nil => trivial
  | cons i reachable ih =>
    unfold Client.warmFiles
    split
    · trivial
    · split
      · trivial
      · split
        · exact ih warmed
        · split
          · exact ⟨trivial, fun _ => ih (warmed + 1)⟩
          · exact ih warmed
          · trivial
          · trivial

lemma noting_servePath (r : Request) {method : Method} (hmethod : method ≠ .other) (raw : Str)
    (gameData : Bool) :
    (c.servePath r.headers method raw gameData).Trail
      (c.NotesAbsent (Client.AskedAs (c.decoded raw) gameData))
      (fun resp past => resp.status = 404 → gameData = true → c.Absent (c.decoded raw) →
        .logMissing (c.decoded raw) ∈ past) past := by
  unfold Client.servePath
  rw [if_neg hmethod]
  refine (noting_serveGet r.headers (c.decoded raw) gameData).bind fun resp past' hresp => ?_
  have hstatus : (Client.finish (method = .head) resp).status = resp.status := by
    unfold Client.finish
    split <;> rfl
  change (Client.finish (method = .head) resp).status = 404 → _
  rwa [hstatus]

lemma noting_batch (r : Request) (files : List Str) (gameData : Bool)
    (hasked : ∀ path ∈ files, gameData = true → asked path) :
    (c.serveBatch r.headers (some files) gameData).Trail (c.NotesAbsent asked)
      (fun resp past => files ≠ [] → files.length ≤ Client.maxBatchFiles →
        ∃ results : Std.TreeMap Str Str,
          resp = c.jsonResponse r.headers (c.platform.jsonFiles results.toList) none ∧
          ∀ path ∈ files, results[path]? = none → gameData = true → c.Absent path →
            .logMissing path ∈ past) past := by
  simp only [Client.serveBatch, Option.getD_some]
  split
  · next hbad =>
    intro hne hmax
    exact absurd hbad (not_or.mpr ⟨hne, not_lt.mpr hmax⟩)
  · refine (noting_fetchFiles hasked ∅).bind fun out past' hout => ?_
    exact fun _ _ => ⟨out, rfl, fun path hmem hnone => (hout path hnone).2 hmem⟩

/-- **A job notes only absent paths that it asks for, and all that it does not get.** -/
lemma noting_run (job : Job) :
    (c.run job).Trail (c.NotesAbsent (Job.Asks c job))
      (fun a past => ∀ r, job = .request r → r.gameData c.cfg = true →
        c.Accounts (fun path => .logMissing path ∈ past) r a) [] := by
  cases job with
  | warmUp limit =>
    refine ((present_warmFiles limit c.index.reachable 0).trail.mono (fun _ ha => ha.notesAbsent)
      fun _ _ h => h).bind fun _ _ _ => ?_
    exact fun r heq => absurd heq (by simp)
  | request r =>
    change Prog.Trail _ _ _ (c.handle r)
    unfold Client.handle
    cases hendpoint : r.endpoint with
    | listFiles | search =>
      rintro r' heq -
      obtain rfl := Job.request.inj heq
      exact ⟨fun h => absurd (hendpoint.symm.trans h) (by simp),
        fun h => absurd (hendpoint.symm.trans h) (by simp)⟩
    | batch files =>
      have hasked : ∀ path ∈ files.getD [], r.gameData c.cfg = true →
          Job.Asks c (.request r) path := by
        intro path hmem hgame
        cases files with
        | none => exact absurd hmem (by simp)
        | some files => exact ⟨r, rfl, hgame, .batch hendpoint hmem⟩
      have hsame : c.serveBatch r.headers files (r.gameData c.cfg) =
          c.serveBatch r.headers (some (files.getD [])) (r.gameData c.cfg) := rfl
      refine (hsame ▸ noting_batch r (files.getD []) _ hasked).bind fun resp past' hresp => ?_
      rintro r' heq hgame
      obtain rfl := Job.request.inj heq
      refine ⟨fun h => absurd (hendpoint.symm.trans h) (by simp), fun {files'} h hne hmax => ?_⟩
      obtain rfl := Endpoint.batch.inj (hendpoint.symm.trans h)
      obtain ⟨results, rfl, hall⟩ := hresp hne hmax
      exact ⟨results, rfl, fun path hmem hnone => hall path hmem hnone hgame⟩
    | path method raw =>
      by_cases hmethod : method = .other
      · subst hmethod
        rintro r' heq -
        obtain rfl := Job.request.inj heq
        refine ⟨fun {method' raw'} h hmethod' => ?_,
          fun h => absurd (hendpoint.symm.trans h) (by simp)⟩
        obtain ⟨rfl, -⟩ := Endpoint.path.inj (hendpoint.symm.trans h)
        exact absurd rfl hmethod'
      · refine ((noting_servePath r hmethod raw (r.gameData c.cfg)).mono (fun a ha => ha.mono ?_)
          fun _ _ h => h).bind fun resp past' hresp => ?_
        · rintro path ⟨hgame, rfl⟩
          exact ⟨r, rfl, hgame, .path hendpoint hmethod rfl⟩
        · rintro r' heq hgame
          obtain rfl := Job.request.inj heq
          refine ⟨fun {method' raw'} h _ => ?_,
            fun h => absurd (hendpoint.symm.trans h) (by simp)⟩
          obtain ⟨rfl, rfl⟩ := Endpoint.path.inj (hendpoint.symm.trans h)
          exact ⟨resp, rfl, fun h404 => hresp h404 hgame⟩

end

/-! ## Runs -/

structure MissingSummary where
  total : ℕ
  files : List MissingEntry
  logFile : Str
deriving DecidableEq, Repr

def missingSummarySize : ℕ := 50

def Client.missingSummary (c : Client) (s : Server) : MissingSummary where
  total := s.missing.entries.length
  files := s.missing.entries.drop (s.missing.entries.length - missingSummarySize)
  logFile := pathString c.cfg.missingFilesLog

section

variable {c : Client} {s s' : Server}

lemma mem_seen_record {missing : Missing} {path q : Str} :
    q ∈ (missing.record path).seen ↔ q ∈ missing.seen ∨ q = path := by
  unfold Missing.record
  split
  · next hmem =>
    constructor
    · exact .inl
    · rintro (hq | rfl)
      · exact hq
      · exact hmem
  · rw [List.mem_append, List.mem_singleton]

/-- What an action adds to the record is the path that it notes. -/
lemma mem_seen_perform {a : Action} {r : a.Answer} (h : s.perform c.platform.md5 a = .ok (r, s'))
    {path : Str} :
    path ∈ s'.missing.seen ↔ path ∈ s.missing.seen ∨ a = .logMissing path := by
  rcases perform_missing h with ⟨q, rfl, hnew⟩ | ⟨hnone, hsame⟩
  · rw [hnew, mem_seen_record, Action.logMissing.injEq, @eq_comm _ q]
  · rw [hsame, or_iff_left (hnone path)]

/-- The environment leaves the record alone. -/
lemma missing_outside {frozen : PathBuf → Prop} (h : c.Outside frozen s s') :
    s'.missing = s.missing := by
  cases h <;> rfl

/-- The report tells the newest of all the paths that were noted. -/
lemma missingSummary_recordAll {misses : List Str} (h : s.missing = Missing.recordAll misses) :
    s.missing.seen.Nodup ∧
      (c.missingSummary s).total = min s.missing.seen.length maxMissingTracked ∧
      (c.missingSummary s).files =
        (s.missing.seen.drop (s.missing.seen.length - missingSummarySize)).map Missing.entryOf := by
  have hseen : s.missing.seen = firstMisses misses := by rw [h, Missing.seen_recordAll]
  have hentries : s.missing.entries = (Missing.newest s.missing.seen).map Missing.entryOf := by
    rw [hseen, h, Missing.entries_recordAll]
  have hlength : (Missing.newest s.missing.seen).length =
      s.missing.seen.length - (s.missing.seen.length - maxMissingTracked) := List.length_drop
  have hsize : missingSummarySize ≤ maxMissingTracked := by decide
  refine ⟨?_, ?_, ?_⟩
  · rw [hseen]
    exact nodup_firstMisses misses
  · change s.missing.entries.length = _
    rw [hentries, List.length_map, hlength]
    omega
  · change s.missing.entries.drop (s.missing.entries.length - missingSummarySize) = _
    have hskip : ∀ n, n - maxMissingTracked + (n - (n - maxMissingTracked) - missingSummarySize) =
        n - missingSummarySize := by omega
    rw [hentries, List.length_map, ← List.map_drop, hlength, Missing.newest, List.drop_drop, hskip]

end

/-- **The record of misses is right.**  Whatever requests and warm-ups run in whatever order,
while others change the disk as they like: every path in the record was asked for by a request
that may have the game data, and the archives have no file for it.  When such a request has
ended without a file for a path that is looked for, and that the archives have no file for, the
path is in the record.  What is reported of the record are the newest of all these paths, each
once. -/
theorem misses_are_recorded {c : Client} {frozen : PathBuf → Prop} {disk : FileSystem}
    {pool : Pool Action Action.Answer Server Job (Option Response)}
    (h : (c.machine frozen).Reachable (Client.start c.cfg disk) pool) :
    (∀ path ∈ pool.state.missing.seen, c.Absent path ∧ ∃ r p, (Job.request r, p) ∈ pool.threads ∧
      r.gameData c.cfg = true ∧ r.Asks c path) ∧
    (∀ r a, (Job.request r, .ret a) ∈ pool.threads → r.gameData c.cfg = true →
      c.Accounts (· ∈ pool.state.missing.seen) r a) ∧
    pool.state.missing.seen.Nodup ∧
    (c.missingSummary pool.state).total = min pool.state.missing.seen.length maxMissingTracked ∧
    (c.missingSummary pool.state).files = (pool.state.missing.seen.drop
      (pool.state.missing.seen.length - missingSummarySize)).map Missing.entryOf := by
  have hall : ∀ job, (c.run job).All (fun a => ∀ {s : Server} {r s' path},
      s.perform c.platform.md5 a = .ok (r, s') → path ∈ s'.missing.seen →
        path ∈ s.missing.seen ∨ Job.Asks c job path ∧ c.Absent path) fun _ => True := by
    intro job
    refine (noting_run job).all.mono (fun a ha => ?_) fun _ _ => trivial
    intro s r s' path hperform hpath
    rcases (mem_seen_perform hperform).mp hpath with hold | rfl
    · exact .inl hold
    · exact .inr ha
  have hkept : ∀ t ∈ pool.threads, ∃ past, t.2.Trail (c.NotesAbsent (Job.Asks c t.1))
      (fun a past => ∀ r, t.1 = .request r → r.gameData c.cfg = true →
        c.Accounts (fun path => .logMissing path ∈ past) r a) past ∧
      ∀ a ∈ past, ∀ path, a = .logMissing path → path ∈ pool.state.missing.seen := by
    refine h.trail (fun s a => ∀ path, a = .logMissing path → path ∈ s.missing.seen)
      noting_run ?_ ?_ ?_
    · intro s s' a r hperform path heq
      exact (mem_seen_perform hperform).mpr (.inr heq)
    · intro s s' a r b hperform hb path heq
      exact (mem_seen_perform hperform).mpr (.inl (hb path heq))
    · intro s s' b henv hb path heq
      rw [missing_outside henv]
      exact hb path heq
  obtain ⟨misses, hmisses⟩ := reachable_missing h
  refine ⟨fun path hpath => ?_, fun r a hdone hgame => ?_, missingSummary_recordAll hmisses⟩
  · obtain ⟨⟨job, p⟩, ht, ⟨r, rfl, hgame, hasks⟩, habsent⟩ :=
      h.noted (fun s path => path ∈ s.missing.seen)
        (fun job path => Job.Asks c job path ∧ c.Absent path) hall
        (fun henv hq => missing_outside henv ▸ hq) (fun _ => by simp [Client.start]) hpath
    exact ⟨habsent, r, p, ht, hgame, hasks⟩
  · obtain ⟨past, htrail, hpast⟩ := hkept _ hdone
    obtain ⟨hpath, hbatch⟩ := htrail r rfl hgame
    refine ⟨fun hendpoint hmethod => ?_, fun hendpoint hne hmax => ?_⟩
    · obtain ⟨resp, ha, hresp⟩ := hpath hendpoint hmethod
      exact ⟨resp, ha, fun h404 habsent => hpast _ (hresp h404 habsent) _ rfl⟩
    · obtain ⟨results, ha, hresults⟩ := hbatch hendpoint hne hmax
      exact ⟨results, ha, fun path hmem hnone habsent =>
        hpast _ (hresults path hmem hnone habsent) _ rfl⟩

/-! ## A sample -/

def missingName : Str := ['b', '.', 't', 'x', 't']

/-- A request from this machine for a file that is nowhere. -/
def missingRequest : Request where
  loopback := true
  headers := {}
  endpoint := .path .get ('/' :: missingName)

lemma missing_hit : sampleClient.archiveHit missingName = .ok none :=
  Client.archiveHit_empty rfl missingName

lemma missing_local : sampleClient.resolveLocal missingName missingName [['s'], missingName] true =
    .act (.isFile [['s'], missingName]) fun isFile =>
      if isFile then Client.storeFile missingName [['s'], missingName] .localFile
        (Client.missed missingName)
      else Client.missed missingName := by
  have harchive : sampleClient.resolveClientDirectory missingName missingName true =
      Client.missed missingName := by
    change sampleClient.resolveArchive missingName missingName = _
    rw [Client.resolveArchive, missing_hit]
  unfold Client.resolveLocal
  rw [harchive]
  rfl

lemma missing_resolve : sampleClient.resolveWith missingName true = .act (.cacheGet missingName)
    fun hit => match hit with
      | some hit => .ret (.ok (some (hit, .cache)))
      | none => sampleClient.resolveLocal missingName missingName [['s'], missingName] true := by
  have hpublic : publicAssetPath missingName = true := by decide
  have hjoin : safeJoin sampleClient.cfg.root missingName = some [['s'], missingName] := by decide
  have hkey : sampleClient.cacheKey missingName = missingName := by decide
  rw [Client.resolveWith, hpublic, hjoin, hkey]
  rfl

lemma missing_call : sampleClient.handle missingRequest =
    (sampleClient.serveResolved {} missingName true >>= fun resp =>
      .ret (Client.finish false resp)) >>= fun resp => .ret (some resp) := by
  rfl

lemma missing_actions : (sampleClient.handle missingRequest).actions (sampleAnswer 0) =
    [.cacheGet missingName, .cacheGet missingName, .isFile [['s'], missingName],
      .logMissing missingName] := by
  rw [missing_call]
  change .cacheGet missingName :: (((((sampleClient.resolveWith missingName true >>= fun r =>
    .ret (Client.joined r)) >>= _) >>= _) >>= _).actions _) = _
  rw [missing_resolve, missing_local]
  rfl

lemma missing_eval : (sampleClient.handle missingRequest).eval (sampleAnswer 0) =
    some notFound := by
  rw [missing_call]
  change ((((sampleClient.resolveWith missingName true >>= fun r =>
    .ret (Client.joined r)) >>= _) >>= _) >>= _).eval _ = _
  rw [missing_resolve, missing_local]
  rfl

lemma missing_reachable : ∃ s, (sampleClient.machine fun _ => False).Reachable
    (Client.start sampleClient.cfg sampleDisk)
      ⟨s, [(.request missingRequest, .ret (some notFound))]⟩ ∧
    s.missing.seen = [missingName] := by
  let s₀ : Server := Client.start sampleClient.cfg sampleDisk
  obtain ⟨cache₁, hget₁, hsound₁, hempty₁, -⟩ := perform_cacheGet_empty Calls.sampleMd5 (s := s₀)
    (sound_withBudget _ _) (recency_withBudget _ _) missingName
  let s₁ : Server := { s₀ with cache := cache₁ }
  obtain ⟨cache₂, hget₂, -⟩ := perform_cacheGet_empty Calls.sampleMd5 (s := s₁) hsound₁ hempty₁
    missingName
  let s₂ : Server := { s₁ with cache := cache₂ }
  let s₃ : Server := { s₂ with missing := s₂.missing.record missingName }
  have hserial : Serial (Server.perform Calls.sampleMd5) (sampleAnswer 0)
      ((sampleClient.handle missingRequest).actions (sampleAnswer 0)) s₀ s₃ := by
    rw [missing_actions]
    exact .cons hget₁ (.cons hget₂ (.cons rfl (.cons rfl (.nil s₃))))
  have hreach : (sampleClient.machine fun _ => False).Reachable s₀
      ⟨s₃, [] ++ [(.request missingRequest,
        .ret ((sampleClient.handle missingRequest).eval (sampleAnswer 0)))]⟩ :=
    Machine.Reachable.start.serial hserial
  rw [missing_eval] at hreach
  exact ⟨s₃, hreach, rfl⟩

/-- The archives of the sample server have no file for the path, and so it is reported. -/
theorem misses_are_recorded_sample : ∃ s,
    (sampleClient.machine fun _ => False).Reachable (Client.start sampleClient.cfg sampleDisk)
      ⟨s, [(.request missingRequest, .ret (some notFound))]⟩ ∧
    sampleClient.Absent missingName ∧
    (sampleClient.missingSummary s).files = [Missing.entryOf missingName] := by
  obtain ⟨s, hreach, hseen⟩ := missing_reachable
  obtain ⟨hrecorded, -, -, -, hfiles⟩ := misses_are_recorded hreach
  rw [hseen] at hrecorded hfiles
  exact ⟨s, hreach, (hrecorded missingName List.mem_cons_self).1, hfiles⟩

end RemoteClient
