/-
# What a batch is answered

A batch asks for several files at once, while other requests store copies in the cache it reads
from.  Whatever it holds for a path decodes to bytes that a source has for that path, and a file
that the archives have is not left out (`batches_are_sourced`).
-/
import RemoteClient.Origins
import RemoteClient.Payloads
import RemoteClient.Progress

namespace RemoteClient

open Exec Http

/-! ## What is fetched -/

namespace Client

variable (c : Client) (frozen : PathBuf → Prop) (links : PathBuf → PathBuf → Prop)
  (T : FileSystem) (gameData : Bool)

/-- The text of some bytes that a source has for the path. -/
def Carries (path text : Str) : Prop :=
  ∃ data, Base64.decode text = some data ∧ c.Sourced frozen links T (c.cacheKey path) data

/-- A path that the archives have, for someone who may have the game data. -/
def InArchives (path : Str) : Prop :=
  c.looksFor path = true ∧ gameData = true ∧ ∃ data, c.archiveData path = .ok (some data)

/-- What is fetched for some paths, beside what was there. -/
structure Fetched (files : List Str) (old results : Std.TreeMap Str Str) : Prop where
  sourced : ∀ path text : Str, results[path]? = some text →
    old[path]? = some text ∨ path ∈ files ∧ c.Carries frozen links T path text
  kept : ∀ path text : Str, old[path]? = some text → ∃ text' : Str, results[path]? = some text'
  found : ∀ path ∈ files, c.InArchives gameData path → ∃ text : Str, results[path]? = some text

variable {c frozen links T gameData}

lemma Fetched.nil (old : Std.TreeMap Str Str) : c.Fetched frozen links T gameData [] old old where
  sourced := fun _ _ h => .inl h
  kept := fun _ text h => ⟨text, h⟩
  found := fun _ h => absurd h List.not_mem_nil

/-- A path that is not found leaves things as they are. -/
lemma Fetched.skip {path : Str} {files : List Str} {old results : Std.TreeMap Str Str}
    (hmiss : ¬c.InArchives gameData path) (h : c.Fetched frozen links T gameData files old results) :
    c.Fetched frozen links T gameData (path :: files) old results where
  sourced := fun path' text hget =>
    (h.sourced path' text hget).imp_right fun hnew => ⟨List.mem_cons_of_mem _ hnew.1, hnew.2⟩
  kept := h.kept
  found := by
    intro path' hmem harchives
    rcases List.mem_cons.mp hmem with rfl | hmem
    · exact absurd harchives hmiss
    · exact h.found path' hmem harchives

/-- A path that is found is put to them. -/
lemma Fetched.put {path text : Str} {files : List Str} {old results : Std.TreeMap Str Str}
    (hcarries : c.Carries frozen links T path text)
    (h : c.Fetched frozen links T gameData files (old.insert path text) results) :
    c.Fetched frozen links T gameData (path :: files) old results where
  sourced := by
    intro path' text' hget
    rcases h.sourced path' text' hget with hold | ⟨hmem, hnew⟩
    · rw [Std.TreeMap.getElem?_insert] at hold
      split at hold
      · next heq =>
        obtain rfl := Option.some.inj hold
        obtain rfl := Std.LawfulEqCmp.eq_of_compare heq
        exact .inr ⟨List.mem_cons_self, hcarries⟩
      · exact .inl hold
    · exact .inr ⟨List.mem_cons_of_mem _ hmem, hnew⟩
  kept := by
    intro path' text' hold
    by_cases heq : path = path'
    · subst heq
      exact h.kept path text (Std.TreeMap.getElem?_insert_self)
    · refine h.kept path' text' ?_
      rw [Std.TreeMap.getElem?_insert, if_neg fun hcmp => heq (Std.LawfulEqCmp.eq_of_compare hcmp)]
      exact hold
  found := by
    intro path' hmem harchives
    rcases List.mem_cons.mp hmem with rfl | hmem
    · exact h.kept path' text (Std.TreeMap.getElem?_insert_self)
    · exact h.found path' hmem harchives

/-- **The run of a batch**, one path after the other. -/
lemma tracing_fetched (files : List Str) (old : Std.TreeMap Str Str) :
    c.Tracing frozen links T (c.Fetched frozen links T gameData files old)
      (c.fetchFiles gameData files old) := by
  induction files generalizing old with
  | nil => exact Fetched.nil old
  | cons path files ih =>
    refine (tracing_getFileWith path gameData).bind fun found htraces => ?_
    cases found with
    | some file =>
      have hdecode : Base64.decode (base64Encode file.data) = some file.data := by
        rw [base64Encode_eq]
        exact Base64.decode_encode _
      exact (ih _).mono fun _ h =>
        h.put ⟨file.data, hdecode, htraces.sourced file rfl⟩
    | none =>
      refine (ih old).mono fun _ h => h.skip ?_
      rintro ⟨hlooks, hgame, hdata⟩
      obtain ⟨file, hfile⟩ := htraces.found hlooks hgame hdata
      exact absurd hfile (by simp)

/-! ## Answers -/

variable (c frozen links T gameData)

/-- What the answer to a batch holds. -/
structure BatchFrom (files : List Str) (results : Std.TreeMap Str Str) : Prop where
  sourced : ∀ path text, (path, text) ∈ results.toList → path ∈ files ∧
    c.Carries frozen links T path text
  found : ∀ path ∈ files, c.InArchives gameData path → ∃ text, (path, text) ∈ results.toList

/-- A batch is refused that asks for nothing or for too much, and otherwise answered with what
was fetched. -/
structure AnswersBatch (headers : HeaderMap) (files : List Str) (resp : Response) : Prop where
  refused : files = [] ∨ maxBatchFiles < files.length → resp.status = 400
  served : files ≠ [] → files.length ≤ maxBatchFiles → ∃ results,
    c.BatchFrom frozen links T gameData files results ∧
    resp = c.jsonResponse headers (c.platform.jsonFiles results.toList) none

variable {c frozen links T gameData}

lemma tracing_serveBatch (headers : HeaderMap) (files : Option (List Str)) :
    c.Tracing frozen links T (c.AnswersBatch frozen links T gameData headers (files.getD []))
      (c.serveBatch headers files gameData) := by
  simp only [serveBatch]
  split
  · next hbad =>
    refine ⟨fun _ => rfl, fun hne hle => ?_⟩
    exact absurd hbad (not_or.mpr ⟨hne, not_lt.mpr hle⟩)
  · next hgood =>
    refine (tracing_fetched (files.getD []) ∅).bind fun results hfetched => ?_
    refine ⟨fun hbad => absurd hbad hgood, fun _ _ => ⟨results, ⟨?_, ?_⟩, rfl⟩⟩
    · intro path text hmem
      have hget := Std.TreeMap.mem_toList_iff_getElem?_eq_some.mp hmem
      exact (hfetched.sourced path text hget).resolve_left (by simp)
    · intro path hpath harchives
      obtain ⟨text, hget⟩ := hfetched.found path hpath harchives
      exact ⟨text, Std.TreeMap.mem_toList_iff_getElem?_eq_some.mpr hget⟩

end Client

section

variable {c : Client} {frozen : PathBuf → Prop} {links : PathBuf → PathBuf → Prop}
  {T disk : FileSystem}

/-- What a job promises about its answer: a batch is answered from the sources of its paths. -/
def BatchAnswersFrom (c : Client) (frozen : PathBuf → Prop) (links : PathBuf → PathBuf → Prop)
    (T : FileSystem) (job : Job) (a : Option Response) : Prop :=
  ∀ r files, job = .request r → r.endpoint = .batch files → ∃ resp, a = some resp ∧
    c.AnswersBatch frozen links T (r.gameData c.cfg) r.headers (files.getD []) resp

lemma tracing_batch (job : Job) :
    c.Tracing frozen links T (BatchAnswersFrom c frozen links T job) (c.run job) := by
  by_cases hbatch : ∃ r files, job = .request r ∧ r.endpoint = .batch files
  · obtain ⟨r, files, rfl, hendpoint⟩ := hbatch
    change c.Tracing frozen links T _ (c.handle r)
    unfold Client.handle
    rw [hendpoint]
    refine (Client.tracing_serveBatch r.headers files).bind fun resp hresp => ?_
    intro r' files' heq hendpoint'
    obtain rfl := Job.request.inj heq
    obtain rfl := Endpoint.batch.inj (hendpoint.symm.trans hendpoint')
    exact ⟨resp, rfl, hresp⟩
  · refine (tracing_run job).mono fun _ _ r files heq hendpoint => ?_
    exact absurd ⟨r, files, heq, hendpoint⟩ hbatch

/-- **A batch is answered from the sources.**  Whatever requests and warm-ups run in whatever
order, while others change what is not frozen: what a batch holds for a path is the Base64 of
bytes that a source has for a path of the same key, it holds nothing for paths it was not asked
for, and it leaves nothing out that the archives have. -/
theorem batches_are_sourced (hguarded : Guarded c frozen)
    (hdisk : ∀ path, frozen path → disk.node path = T.node path) (hlinks : disk.LinksTo links)
    {pool : Pool Action Action.Answer Server Job (Option Response)}
    (h : (c.linked frozen links).Reachable (Client.start c.cfg disk) pool) {r : Request}
    {files : Option (List Str)} (hbatch : r.endpoint = .batch files) {a : Option Response}
    (hdone : (Job.request r, .ret a) ∈ pool.threads) :
    ∃ resp, a = some resp ∧
      c.AnswersBatch frozen links T (r.gameData c.cfg) r.headers (files.getD []) resp := by
  have hjob : BatchAnswersFrom c frozen links T (.request r) a :=
    h.post (tracingContract hguarded links T) (fun _ _ _ _ _ hjob => hjob)
      (fun job _ _ => safe_tracing hguarded (tracing_batch job)) (traced_start hdisk hlinks) hdone
  exact hjob r files rfl hbatch

end

/-! ## A sample -/

/-- JSON of an object, for strings in which nothing is escaped. -/
def plainObject (fields : List (Str × Str)) : List Byte :=
  utf8Bytes (['\x7b'] ++ List.intercalate [','] (fields.map fun x =>
    quoted x.1 ++ [':'] ++ quoted x.2) ++ ['\x7d'])

/-- The server with music elsewhere, which writes such objects. -/
def batchClient : Client :=
  { musicClient with platform := { musicClient.platform with jsonFiles := plainObject } }

/-- A batch of the music and of a private file. -/
def batchRequest : Request where
  loopback := true
  headers := {}
  endpoint := .batch (some [musicName, ".env".toList])

def batchResponse : Response where
  status := 200
  contentType := some "application/json; charset=utf-8".toList
  body := plainObject [(musicName, "AQ==".toList)]

lemma batch_actions : (batchClient.handle batchRequest).actions musicAnswer = musicActions := by
  rfl

lemma batch_eval : (batchClient.handle batchRequest).eval musicAnswer = some batchResponse := by
  rfl

/-- The batch is answered with the music, whose bytes alone may be there, and not with the private
file. -/
theorem batches_are_sourced_sample : ∃ s resp,
    (batchClient.linked (fun _ => True) musicLinks).Reachable
      (Client.start batchClient.cfg musicDisk)
      ⟨s, [(.request batchRequest, .ret (some batchResponse))]⟩ ∧
    some batchResponse = some resp ∧
    batchClient.AnswersBatch (fun _ => True) musicLinks musicDisk true {}
      [musicName, ".env".toList] resp ∧
    resp.body = utf8Bytes "\x7b\"BGM/a.txt\":\"AQ==\"\x7d".toList ∧
    Base64.decode "AQ==".toList = some musicContent ∧
    ∀ data, batchClient.Sourced (fun _ => True) musicLinks musicDisk musicKey data →
      data = musicContent := by
  have hguarded : Guarded batchClient fun _ => True := fun _ _ => rfl
  have hlinks : musicDisk.LinksTo musicLinks := fun _ _ h => h
  obtain ⟨s, hreach⟩ := music_reachable (fun _ => True) musicLinks (c := batchClient) rfl rfl
    batch_actions
  rw [batch_eval] at hreach
  have hbatch : batchRequest.endpoint = .batch (some [musicName, ".env".toList]) := rfl
  obtain ⟨resp, hresp, hanswers⟩ := batches_are_sourced hguarded (fun _ _ => rfl) hlinks hreach
    hbatch (List.mem_singleton_self _)
  obtain rfl := Option.some.inj hresp
  exact ⟨s, _, hreach, rfl, hanswers, by decide, by decide, fun _ => music_sourced (c := batchClient) rfl rfl⟩

end RemoteClient
