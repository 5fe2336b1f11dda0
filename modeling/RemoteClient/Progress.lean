/-
# Requests get done

The actions of a request can fail: the cache counts bytes in machine words, and a slot is looked
up by its number.  Under the contract none of them does.  Only a look at a slot asks for more
than the contract, namely that the slot exists (`Sure`), and the one program that looks at a slot
has its number from a file that was stored (`live_serveAsset`).

So no job ever panics over what it shares, and each can always be brought to its end
(`jobs_finish`).
-/
import RemoteClient.Etags

namespace RemoteClient

open Exec Http

/-- An action that succeeds wherever it is allowed. -/
def Sure : Action → Prop
  | .slotGet _ _ => False
  | _ => True

section

variable {c : Client} {frozen : PathBuf → Prop} {T : FileSystem} {s : Server}

/-- **The step lemma.**  Under the contract the sums of the cache stay in range and the slots are
where their files say. -/
lemma perform_sure {a : Action} (ha : Sure a) (h : Sane c frozen T s) (hallowed : Allowed c s a) :
    ∃ r s', s.perform c.platform.md5 a = .ok (r, s') := by
  cases a with
  | cacheInsert key data =>
    obtain ⟨cache, hok, -⟩ := h.insert key data
    exact ⟨_, _, hok⟩
  | addEncoding key file bytes =>
    obtain ⟨cache, hok, -⟩ := FileCache.addEncoding_spec h.sound key file bytes
    exact ⟨(), { s with cache := cache, reported := s.reported ++ [file.encodings] },
      by simp only [Server.perform, hok, ok_bind]; rfl⟩
  | slotGet encodings coding => exact ha.elim
  | slotInit encodings coding value =>
    obtain ⟨e, he, -⟩ := hallowed
    simp only [Server.perform, index_eq_of_getElem? he, ok_bind]
    cases e.slot coding with
    | some done => exact ⟨_, _, rfl⟩
    | none => exact ⟨_, _, rfl⟩
  | cacheGet | isFile | read | metadata | canonicalize | extract | logMissing => exact ⟨_, _, rfl⟩

lemma LooksAt.sure {served : PathBuf → Prop} {a : Action} (h : LooksAt served a) : Sure a := by
  cases a with
  | isFile | read | metadata => trivial
  | _ => exact absurd h (by simp [LooksAt])

/-! ## Programs that look at no slot -/

/-- A program that looks at no slot. -/
abbrev TakesSure {α : Type} (p : Work α) : Prop := p.All Sure fun _ => True

lemma TakesSure.looks {α : Type} {served : PathBuf → Prop} {P : α → Prop} {p : Work α}
    (h : p.All (LooksAt served) P) : TakesSure p := h.mono (fun _ ha => ha.sure) fun _ _ => trivial

lemma sure_store (key : Str) (content : List Byte) (source : Source) :
    TakesSure (Client.store key content source) := ⟨trivial, fun _ => trivial⟩

lemma sure_missed (reqPath : Str) : TakesSure (Client.missed reqPath) :=
  ⟨trivial, fun _ => trivial⟩

lemma sure_extractFile (reqPath : Str) (content : List Byte) :
    TakesSure (c.extractFile reqPath content) := by
  unfold Client.extractFile
  split
  · trivial
  · exact ⟨trivial, fun _ => trivial⟩

lemma sure_resolveArchive (key reqPath : Str) : TakesSure (c.resolveArchive key reqPath) := by
  unfold Client.resolveArchive
  split
  · trivial
  · exact sure_missed reqPath
  · split
    · split
      · exact (sure_extractFile reqPath _).bind fun _ _ => sure_store key _ _
      · exact sure_store key _ _
    · exact sure_missed reqPath
    · trivial
    · trivial

lemma sure_resolveGameData (key reqPath : Str) (gameData : Bool) :
    TakesSure (c.resolveGameData key reqPath gameData) := by
  unfold Client.resolveGameData
  split
  · exact sure_resolveArchive key reqPath
  · trivial

lemma sure_storeFile (key : Str) (path : PathBuf) (source : Source) {next : Work Resolved}
    (hnext : TakesSure next) : TakesSure (Client.storeFile key path source next) := by
  refine ⟨trivial, fun content => ?_⟩
  cases content with
  | some content => exact sure_store key content source
  | none => exact hnext

lemma sure_resolveOverride (key reqPath : Str) (gameData : Bool) :
    TakesSure (c.resolveOverride key reqPath gameData) := by
  have hnext : TakesSure (c.resolveGameData key reqPath gameData) :=
    sure_resolveGameData key reqPath gameData
  unfold Client.resolveOverride
  split
  · exact hnext
  · refine ⟨trivial, fun isFile => ?_⟩
    cases isFile with
    | true => exact sure_storeFile key _ .dataOverride hnext
    | false => exact hnext

lemma sure_confinedFile (root : PathBuf) (rel : Str) : TakesSure (Client.confinedFile root rel) := by
  unfold Client.confinedFile
  split
  · trivial
  · refine ⟨trivial, fun base => ?_⟩
    cases base with
    | none => trivial
    | some base =>
      refine ⟨trivial, fun file => ?_⟩
      cases file with
      | none => trivial
      | some file =>
        change TakesSure (if base.isPrefixOf file then _ else _)
        split
        · refine ⟨trivial, fun isFile => ?_⟩
          cases isFile <;> trivial
        · trivial

lemma sure_resolveClientDirectory (key reqPath : Str) (gameData : Bool) :
    TakesSure (c.resolveClientDirectory key reqPath gameData) := by
  have hnext : TakesSure (c.resolveOverride key reqPath gameData) :=
    sure_resolveOverride key reqPath gameData
  unfold Client.resolveClientDirectory
  split
  · exact hnext
  · refine (sure_confinedFile _ _).bind fun path _ => ?_
    cases path with
    | some path => exact sure_storeFile key path .clientDirectory hnext
    | none => exact hnext

lemma sure_resolveLocal (key reqPath : Str) (path : PathBuf) (gameData : Bool) :
    TakesSure (c.resolveLocal key reqPath path gameData) := by
  have hnext : TakesSure (c.resolveClientDirectory key reqPath gameData) :=
    sure_resolveClientDirectory key reqPath gameData
  refine ⟨trivial, fun isFile => ?_⟩
  cases isFile with
  | true => exact sure_storeFile key path .localFile hnext
  | false => exact hnext

lemma sure_resolveWith (reqPath : Str) (gameData : Bool) :
    TakesSure (c.resolveWith reqPath gameData) := by
  unfold Client.resolveWith
  split
  · trivial
  · split
    · trivial
    · split
      · refine ⟨trivial, fun hit => ?_⟩
        cases hit with
        | none => exact sure_resolveLocal _ reqPath _ gameData
        | some file => trivial
      · exact sure_resolveLocal _ reqPath _ gameData

lemma sure_getFileWith (reqPath : Str) (gameData : Bool) :
    TakesSure (c.getFileWith reqPath gameData) := by
  have hjoined : ∀ gameData, TakesSure (Client.joined <$> c.resolveWith reqPath gameData) :=
    fun gameData => (sure_resolveWith reqPath gameData).bind fun _ _ => trivial
  have hcached : TakesSure (c.cached reqPath) := by
    unfold Client.cached
    split
    · trivial
    · exact ⟨trivial, fun _ => trivial⟩
  unfold Client.getFileWith
  split
  · refine hcached.bind fun hit _ => ?_
    cases hit with
    | some file => trivial
    | none => exact hjoined true
  · exact hjoined false

lemma sure_fetchFiles (gameData : Bool) (files : List Str) (results : Std.TreeMap Str Str) :
    TakesSure (c.fetchFiles gameData files results) := by
  induction files generalizing results with
  | nil => trivial
  | cons path files ih =>
    refine (sure_getFileWith path gameData).bind fun file _ => ?_
    cases file with
    | some file => exact ih _
    | none => exact ih _

lemma sure_serveBatch (headers : HeaderMap) (files : Option (List Str)) (gameData : Bool) :
    TakesSure (c.serveBatch headers files gameData) := by
  simp only [Client.serveBatch]
  split
  · trivial
  · exact (sure_fetchFiles gameData _ _).bind fun _ _ => trivial

lemma sure_warmFiles (limit : ℕ) (reachable : List (BitVec 32)) (warmed : ℕ) :
    TakesSure (c.warmFiles limit reachable warmed) := by
  induction reachable generalizing warmed with
  | nil => trivial
  | cons i reachable ih =>
    unfold Client.warmFiles
    split
    · trivial
    · split
      · trivial
      · split
        · exact ih warmed
        · split
          · exact ⟨trivial, fun _ => ih (warmed + 1)⟩
          · exact ih warmed
          · trivial
          · trivial

/-- Making an encoding starts with a look at the slot of the file, and it is the only one. -/
lemma sure_encoded (reqPath : Str) (file : CachedFile) (coding : Coding) :
    ∃ next, c.encoded reqPath file coding = .act (.slotGet file.encodings coding) next ∧
      ∀ done, TakesSure (next done) := by
  refine ⟨_, rfl, fun done => ?_⟩
  cases done with
  | some done => trivial
  | none =>
    change TakesSure (if !c.keeps file.data.length then _ else _)
    split
    · trivial
    · refine ⟨trivial, fun r => ?_⟩
      match r with
      | (some bytes, true) => exact ⟨trivial, fun _ => trivial⟩
      | (some bytes, false) => trivial
      | (none, _) => trivial

/-! ## Live jobs -/

variable (hguarded : Guarded c frozen)

/-- A safe program that looks at no slot is live. -/
lemma live_of_sure {α : Type} {Post : α → Server → Prop} {p : Work α}
    (h : (contract hguarded T).Safe Post p s) (hsure : TakesSure p) :
    (contract hguarded T).live.Safe Post p s :=
  h.live hsure fun _ ha _ hsane hallowed => perform_sure ha hsane hallowed

lemma live_encoded {reqPath : Str} {file : CachedFile}
    (hknown : s.Known c.platform.md5 (c.cacheKey reqPath) file) (coding : Coding) :
    (contract hguarded T).live.Safe (fun _ _ => True) (c.encoded reqPath file coding) s := by
  have hsafe := (safe_encoded hguarded (T := T) hknown coding).mono fun _ _ _ _ => trivial
  obtain ⟨next, heq, hsure⟩ := sure_encoded (c := c) reqPath file coding
  rw [heq] at hsafe ⊢
  intro s₁ hgrown hsane
  obtain ⟨hallowed, hstep⟩ := hsafe s₁ hgrown hsane
  obtain ⟨-, e, he, -⟩ := hknown.grown hgrown
  refine ⟨⟨hallowed, e.slot coding, s₁, ?_⟩, fun done s₂ hperform => ?_⟩
  · change s₁.perform c.platform.md5 (.slotGet file.encodings coding) = _
    simp only [Server.perform, index_eq_of_getElem? he, ok_bind]
    rfl
  · obtain ⟨hsane₂, hgrown₂, hnext⟩ := hstep done s₂ hperform
    exact ⟨hsane₂, hgrown₂, live_of_sure hguarded hnext (hsure done)⟩

lemma live_serveAsset (headers : HeaderMap) {relative : Str} {file : CachedFile}
    (hknown : s.Known c.platform.md5 (c.cacheKey relative) file) :
    (contract hguarded T).live.Safe (fun _ _ => True) (c.serveAsset headers relative file) s := by
  unfold Client.serveAsset
  simp only
  split
  · trivial
  · next coding _ =>
    split
    · trivial
    · refine (live_encoded hguarded hknown coding).bind fun made _ _ _ => ?_
      cases made <;> trivial

lemma live_serveResolved (headers : HeaderMap) (relative : Str) (gameData : Bool) :
    (contract hguarded T).live.Safe (fun _ _ => True)
      (c.serveResolved headers relative gameData) s := by
  refine (live_of_sure hguarded (safe_getFileWith hguarded relative gameData)
    (sure_getFileWith relative gameData)).bind fun file s' _ hdelivers => ?_
  cases file with
  | some file => exact live_serveAsset hguarded headers (hdelivers file rfl)
  | none => trivial

/-- A program that only looks at the disk is live. -/
lemma live_looks {α : Type} {served : PathBuf → Prop} {P : α → Prop} {p : Work α}
    (h : p.All (LooksAt served) P) : (contract hguarded T).live.Safe (fun _ _ => True) p s :=
  live_of_sure hguarded ((safe_looks hguarded h).mono fun _ _ _ _ => trivial) (.looks h)

lemma live_serveFile (headers : HeaderMap) (relative : Str) (gameData : Bool) :
    (contract hguarded T).live.Safe (fun _ _ => True) (c.serveFile headers relative gameData) s := by
  have hfallback : ∀ s', (contract hguarded T).live.Safe (fun _ _ => True)
      (c.serveFallback headers relative gameData) s' := by
    intro s'
    unfold Client.serveFallback
    split
    · exact live_looks hguarded (serveRoot_looks headers served_indexPage)
    · exact live_serveResolved hguarded headers relative gameData
  unfold Client.serveFile
  split
  · refine (live_looks hguarded (serveStatic_looks headers serves_static)).bind fun r s' _ _ => ?_
    cases r with
    | some resp => trivial
    | none => exact hfallback s'
  · exact hfallback s

lemma live_serveGet (headers : HeaderMap) (relative : Str) (gameData : Bool) :
    (contract hguarded T).live.Safe (fun _ _ => True) (c.serveGet headers relative gameData) s := by
  unfold Client.serveGet
  split
  · trivial
  · split
    · exact live_serveFile hguarded headers relative gameData
    · next name _ =>
      have hlooks : (Work.read (c.cfg.root ++ [name])).All (LooksAt fun _ => True) fun _ => True :=
        ⟨trivial, fun _ => trivial⟩
      refine (live_looks hguarded hlooks).bind fun bytes s' _ _ => ?_
      cases bytes with
      | some bytes => trivial
      | none => exact live_serveFile hguarded headers relative gameData

/-- **Every job is live.** -/
lemma live_run (job : Job) :
    (contract hguarded T).live.Safe (fun _ _ => True) (c.run job) s := by
  cases job with
  | warmUp limit =>
    refine (live_of_sure hguarded (safe_warmFiles hguarded limit _ 0)
      (sure_warmFiles limit _ 0)).bind fun _ _ _ _ => trivial
  | request r =>
    change (contract hguarded T).live.Safe _ (c.handle r) s
    unfold Client.handle
    split
    · trivial
    · trivial
    · exact (live_of_sure hguarded (safe_serveBatch hguarded _ _ _)
        (sure_serveBatch _ _ _)).bind fun _ _ _ _ => trivial
    · next method rawPath _ =>
      refine Contract.Safe.bind (Q := fun _ _ => True) ?_ fun _ _ _ _ => trivial
      unfold Client.servePath
      split
      · trivial
      · exact (live_serveGet hguarded _ _ _).bind fun _ _ _ _ => trivial

/-! ## Runs -/

lemma stable_true {α : Type} : (contract hguarded T).live.Stable fun (_ : α) _ => True :=
  fun _ _ _ _ _ => trivial

/-- Every job that was reached can be brought to its end. -/
lemma job_ends (hguarded : Guarded c frozen) {disk : FileSystem}
    (hdisk : ∀ path, frozen path → disk.node path = T.node path) {job : Job} {p : Work (Option Response)}
    (pre post : List (Job × Work (Option Response)))
    (h : (c.machine frozen).Reachable (Client.start c.cfg disk) ⟨s, pre ++ (job, p) :: post⟩) :
    ∃ a s', (c.machine frozen).Reachable (Client.start c.cfg disk)
      ⟨s', pre ++ (job, .ret a) :: post⟩ :=
  h.ends (contract hguarded T) (fun _ => stable_true hguarded)
    (fun job _ _ => live_run hguarded job) (sane_start disk hdisk) pre post

end

/-- **Requests get done.**  Whatever requests and warm-ups run in whatever order, while others
change the disk as they like: no action that a job is about to take fails, and every job can be
brought to its end while all others wait. -/
theorem jobs_finish {c : Client} {disk : FileSystem}
    {pool : Pool Action Action.Answer Server Job (Option Response)}
    (h : (c.machine fun _ => False).Reachable (Client.start c.cfg disk) pool) :
    (∀ job a next, (job, .act a next) ∈ pool.threads →
      ∃ r s', pool.state.perform c.platform.md5 a = .ok (r, s')) ∧
    ∀ pre job p post, pool.threads = pre ++ (job, p) :: post →
      ∃ a s', (c.machine fun _ => False).Reachable (Client.start c.cfg disk)
        ⟨s', pre ++ (job, .ret a) :: post⟩ := by
  have hguarded : Guarded c fun _ => False := guarded_nothing
  have hnone : ∀ path, False → disk.node path = disk.node path := fun _ _ => rfl
  refine ⟨fun job a next hact => ?_, fun pre job p post hthreads => ?_⟩
  · exact (h.may (contract hguarded disk).live (fun _ => stable_true hguarded)
      (fun job _ _ => live_run hguarded job)
      (sane_start disk hnone) hact).2
  · obtain ⟨s, threads⟩ := pool
    obtain rfl : threads = pre ++ (job, p) :: post := hthreads
    exact job_ends hguarded hnone pre post h

/-- A request of the sample server can be brought to its end. -/
theorem jobs_finish_sample : ∃ a s',
    (sampleClient.machine fun _ => False).Reachable (Client.start sampleClient.cfg sampleDisk)
      ⟨s', [(.request sampleRequest, .ret a)]⟩ :=
  (jobs_finish (Machine.Reachable.step .start
    (.arrive (Client.start sampleClient.cfg sampleDisk) [] (.request sampleRequest)))).2
    [] _ _ [] rfl

end RemoteClient
