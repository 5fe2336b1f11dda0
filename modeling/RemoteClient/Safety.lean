/-
# Requests keep the contract

One lemma for each program: run among any others, it keeps the contract, and what it returns
is what the lemma says.  A file that is resolved was stored under the key of its path; the
encoding of a file, and so the whole answer for it, depends on its bytes alone
(`safe_serveAsset`), whichever request made the encoding.
-/
import RemoteClient.Sharing

namespace RemoteClient

open Exec Http

section

variable {c : Client} {frozen : PathBuf → Prop} {T : FileSystem} (hguarded : Guarded c frozen)
  {s : Server}

/-! ## Resolving -/

/-- What was resolved was stored under the key. -/
def Resolves (c : Client) (key : Str) (r : Resolved) (s : Server) : Prop :=
  ∀ file source, r = .ok (some (file, source)) → s.Known c.platform.md5 key file

/-- What was found was stored under the key. -/
def Delivers (c : Client) (key : Str) (r : Option CachedFile) (s : Server) : Prop :=
  ∀ file, r = some file → s.Known c.platform.md5 key file

lemma safe_store (key : Str) (content : List Byte) (source : Source) :
    (contract hguarded T).Safe (Resolves c key) (Client.store key content source) s := by
  refine safe_act hguarded trivial fun file s' _ hfile => ?_
  intro file' source' heq
  obtain ⟨rfl, -⟩ := Prod.mk.inj (Option.some.inj (Except.ok.inj heq))
  exact hfile.2

lemma safe_missed (key reqPath : Str) :
    (contract hguarded T).Safe (Resolves c key) (Client.missed reqPath) s :=
  safe_act hguarded trivial fun _ _ _ _ _ _ heq => absurd heq (by simp)

lemma safe_stopped (key : Str) (stop : Stop Empty) :
    (contract hguarded T).Safe (Resolves c key) (.ret (.error stop)) s :=
  fun _ _ heq => absurd heq (by simp)

lemma safe_extractFile (reqPath : Str) (content : List Byte)
    (hextract : c.cfg.clientAutoextract = true) :
    (contract hguarded T).Safe (fun _ _ => True) (c.extractFile reqPath content) s := by
  unfold Client.extractFile
  split
  · trivial
  · exact safe_act hguarded hextract fun _ _ _ _ => trivial

lemma safe_resolveArchive (key reqPath : Str) :
    (contract hguarded T).Safe (Resolves c key) (c.resolveArchive key reqPath) s := by
  unfold Client.resolveArchive
  split
  · exact safe_stopped hguarded key _
  · exact safe_missed hguarded key reqPath
  · next found _ =>
    split
    · next content _ =>
      split
      · next hextract =>
        refine (safe_extractFile hguarded reqPath content hextract).bind fun _ s' _ _ => ?_
        exact safe_store hguarded key content (.grf found.grf)
      · exact safe_store hguarded key content (.grf found.grf)
    · exact safe_missed hguarded key reqPath
    · exact safe_stopped hguarded key _
    · exact safe_stopped hguarded key _

lemma safe_resolveGameData (key reqPath : Str) (gameData : Bool) :
    (contract hguarded T).Safe (Resolves c key) (c.resolveGameData key reqPath gameData) s := by
  unfold Client.resolveGameData
  split
  · exact safe_resolveArchive hguarded key reqPath
  · exact fun _ _ heq => absurd heq (by simp)

lemma safe_storeFile (key : Str) (path : PathBuf) (source : Source) {next : Work Resolved}
    (hnext : ∀ s', (contract hguarded T).Safe (Resolves c key) next s') :
    (contract hguarded T).Safe (Resolves c key) (Client.storeFile key path source next) s := by
  refine safe_act hguarded trivial fun content s' _ _ => ?_
  cases content with
  | some content => exact safe_store hguarded key content source
  | none => exact hnext s'

lemma safe_resolveOverride (key reqPath : Str) (gameData : Bool) :
    (contract hguarded T).Safe (Resolves c key) (c.resolveOverride key reqPath gameData) s := by
  unfold Client.resolveOverride
  split
  · exact safe_resolveGameData hguarded key reqPath gameData
  · next path _ =>
    refine safe_act hguarded trivial fun isFile s' _ _ => ?_
    cases isFile with
    | true =>
      exact safe_storeFile hguarded key path .dataOverride fun _ =>
        safe_resolveGameData hguarded key reqPath gameData
    | false => exact safe_resolveGameData hguarded key reqPath gameData

lemma safe_confinedFile (root : PathBuf) (rel : Str) :
    (contract hguarded T).Safe (fun _ _ => True) (Client.confinedFile root rel) s := by
  unfold Client.confinedFile
  split
  · trivial
  · next candidate _ =>
    refine safe_act hguarded trivial fun base s' _ _ => ?_
    cases base with
    | none => trivial
    | some base =>
      refine safe_act hguarded trivial fun file s'' _ _ => ?_
      cases file with
      | none => trivial
      | some file =>
        change (contract hguarded T).Safe _ (if base.isPrefixOf file then _ else _) s''
        split
        · refine safe_act hguarded trivial fun isFile _ _ _ => ?_
          cases isFile <;> trivial
        · trivial

lemma safe_resolveClientDirectory (key reqPath : Str) (gameData : Bool) :
    (contract hguarded T).Safe (Resolves c key) (c.resolveClientDirectory key reqPath gameData) s := by
  have hnext : ∀ s', (contract hguarded T).Safe (Resolves c key)
      (c.resolveOverride key reqPath gameData) s' := fun _ =>
    safe_resolveOverride hguarded key reqPath gameData
  unfold Client.resolveClientDirectory
  split
  · exact hnext s
  · next dir relative _ =>
    refine (safe_confinedFile hguarded dir relative).bind fun path s' _ _ => ?_
    cases path with
    | some path => exact safe_storeFile hguarded key path .clientDirectory hnext
    | none => exact hnext s'

lemma safe_resolveLocal (key reqPath : Str) (path : PathBuf) (gameData : Bool) :
    (contract hguarded T).Safe (Resolves c key) (c.resolveLocal key reqPath path gameData) s := by
  have hnext : ∀ s', (contract hguarded T).Safe (Resolves c key)
      (c.resolveClientDirectory key reqPath gameData) s' := fun _ =>
    safe_resolveClientDirectory hguarded key reqPath gameData
  refine safe_act hguarded trivial fun isFile s' _ _ => ?_
  cases isFile with
  | true => exact safe_storeFile hguarded key path .localFile hnext
  | false => exact hnext s'

lemma safe_resolveWith (reqPath : Str) (gameData : Bool) :
    (contract hguarded T).Safe (Resolves c (c.cacheKey reqPath)) (c.resolveWith reqPath gameData) s := by
  unfold Client.resolveWith
  split
  · exact fun _ _ heq => absurd heq (by simp)
  · split
    · exact fun _ _ heq => absurd heq (by simp)
    · next path _ =>
      split
      · refine safe_act hguarded trivial fun hit s' _ hhit => ?_
        cases hit with
        | none => exact safe_resolveLocal hguarded _ reqPath path gameData
        | some file =>
          intro file' source heq
          obtain ⟨rfl, -⟩ := Prod.mk.inj (Option.some.inj (Except.ok.inj heq))
          exact hhit file rfl
      · exact safe_resolveLocal hguarded _ reqPath path gameData

/-- What a blocking task leaves of a resolved file. -/
lemma Resolves.joined {key : Str} {r : Resolved} (h : Resolves c key r s) :
    Delivers c key (Client.joined r) s := by
  intro file hfile
  match r, h with
  | .ok (some (file', source)), h => exact h file source (by rw [← Option.some.inj hfile])

lemma safe_joined (reqPath : Str) (gameData : Bool) :
    (contract hguarded T).Safe (Delivers c (c.cacheKey reqPath))
      (Client.joined <$> c.resolveWith reqPath gameData) s :=
  (safe_resolveWith hguarded reqPath gameData).bind fun _ _ _ h => h.joined

lemma safe_cached (reqPath : Str) :
    (contract hguarded T).Safe (Delivers c (c.cacheKey reqPath)) (c.cached reqPath) s := by
  unfold Client.cached
  split
  · exact fun _ hfile => absurd hfile (by simp)
  · exact safe_act hguarded trivial fun _ _ _ hhit => hhit

lemma safe_getFileWith (reqPath : Str) (gameData : Bool) :
    (contract hguarded T).Safe (Delivers c (c.cacheKey reqPath)) (c.getFileWith reqPath gameData) s := by
  unfold Client.getFileWith
  split
  · refine (safe_cached hguarded reqPath).bind fun hit s' _ hhit => ?_
    cases hit with
    | some file => exact hhit
    | none => exact safe_joined hguarded reqPath true
  · exact safe_joined hguarded reqPath false

/-! ## Encodings and answers -/

/-- The encoding of a file in a coding depends on its bytes alone. -/
lemma safe_encoded {reqPath : Str} {file : CachedFile}
    (hknown : s.Known c.platform.md5 (c.cacheKey reqPath) file) (coding : Coding) :
    (contract hguarded T).Safe
      (fun r _ => r = encodeAsset c.platform.gzip coding file.data (c.keeps file.data.length))
      (c.encoded reqPath file coding) s := by
  refine safe_act hguarded trivial fun done s₁ hgrown₁ hdone => ?_
  have hknown₁ := hknown.grown hgrown₁
  obtain ⟨-, e, he, -, hdata⟩ := id hknown₁
  -- A filled slot holds what was made of the bytes; an empty one is filled, perhaps by another
  -- request in the meantime.
  cases done with
  | some done =>
    obtain ⟨hmade, hkeeps⟩ := hdone done e rfl he
    rw [hdata] at hmade hkeeps
    rw [hkeeps]
    exact hmade
  | none =>
    change (contract hguarded T).Safe _ (if !c.keeps file.data.length then _ else _) s₁
    split
    · next hnot =>
      rw [Bool.not_eq_true'] at hnot
      rw [hnot]
      exact rfl
    · next hkeeps =>
      rw [Bool.not_eq_true', Bool.not_eq_false] at hkeeps
      rw [hkeeps]
      refine safe_act hguarded ⟨e, he, by rw [hdata]; rfl, hdata ▸ hkeeps⟩ fun r s₂ hgrown₂ hr => ?_
      have hknown₂ := hknown₁.grown hgrown₂
      obtain ⟨-, e₂, he₂, -, hdata₂⟩ := id hknown₂
      have hresult : r.1 = encodeAsset c.platform.gzip coding file.data true := by
        rw [hr e₂ he₂, hdata₂]
        rfl
      match r, hresult with
      | (some bytes, true), hresult =>
        exact safe_act hguarded hknown₂ fun _ _ _ _ => hresult
      | (some bytes, false), hresult => exact hresult
      | (none, _), hresult => exact hresult

/-- The answer for an asset with these bytes. -/
def Client.assetAnswer (c : Client) (headers : HeaderMap) (relative : Str) (data : List Byte) :
    Response :=
  let etag := computeEtag c.platform.md5 data
  let len := data.length
  let respond (body : List Byte) (coding : Option Coding) : Response :=
    assetResponse headers relative body (codedEtag etag coding)
      (negotiatesCoding relative len c.cfg.enableCompression) coding
  match assetCoding headers relative len c.cfg.enableCompression with
  | none => respond data none
  | some coding =>
    if isStaticExtension (extensionOf relative) &&
        etagMatches headers (codedEtag etag (some coding)) then respond [] (some coding)
    else
      match encodeAsset c.platform.gzip coding data (c.keeps len) with
      | some encoded => respond encoded (some coding)
      | none => respond data none

/-- **The answer for a file depends on its bytes alone**, whoever made its encoding. -/
lemma safe_serveAsset (headers : HeaderMap) {relative : Str} {file : CachedFile}
    (hknown : s.Known c.platform.md5 (c.cacheKey relative) file) :
    (contract hguarded T).Safe (fun r _ => r = c.assetAnswer headers relative file.data)
      (c.serveAsset headers relative file) s := by
  have hetag := hknown.1
  unfold Client.serveAsset Client.assetAnswer
  simp only [← hetag]
  cases assetCoding headers relative file.data.length c.cfg.enableCompression with
  | none => exact rfl
  | some coding =>
    by_cases hrevalidated : (isStaticExtension (extensionOf relative) &&
        etagMatches headers (codedEtag file.etag (some coding))) = true
    · simp only [if_pos hrevalidated]
      exact rfl
    · simp only [if_neg hrevalidated]
      refine (safe_encoded hguarded hknown coding).bind fun r _ _ hr => ?_
      rw [← hr]
      cases r <;> exact rfl

/-! ## The other jobs -/

lemma safe_warmFiles (limit : ℕ) (reachable : List (BitVec 32)) (warmed : ℕ) :
    (contract hguarded T).Safe (fun _ _ => True) (c.warmFiles limit reachable warmed) s := by
  induction reachable generalizing warmed s with
  | nil => trivial
  | cons i reachable ih =>
    unfold Client.warmFiles
    split
    · trivial
    · next file _ =>
      split
      · trivial
      · split
        · exact ih warmed
        · split
          · exact safe_act hguarded trivial fun _ _ _ _ => ih (warmed + 1)
          · exact ih warmed
          · trivial
          · trivial

lemma safe_fetchFiles (gameData : Bool) (files : List Str) (results : Std.TreeMap Str Str) :
    (contract hguarded T).Safe (fun _ _ => True) (c.fetchFiles gameData files results) s := by
  induction files generalizing results s with
  | nil => trivial
  | cons path files ih =>
    refine (safe_getFileWith hguarded path gameData).bind fun file s' _ _ => ?_
    cases file with
    | some file => exact ih _
    | none => exact ih _

lemma safe_serveBatch (headers : HeaderMap) (files : Option (List Str)) (gameData : Bool) :
    (contract hguarded T).Safe (fun _ _ => True) (c.serveBatch headers files gameData) s := by
  simp only [Client.serveBatch]
  split
  · trivial
  · exact (safe_fetchFiles hguarded gameData _ _).bind fun _ _ _ _ => trivial

end

end RemoteClient
