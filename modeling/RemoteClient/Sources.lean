/-
# What the sources have

On a disk that nobody changes, each source has some bytes for a path or has none, and the first
one that has some decides (`sourceData`).  The program that asks them one after the other
returns just that, and stores it under the key of the path if it stores anything
(`reads_resolveLocal`).

A whole call then returns what is cached under its key, or else what the sources have
(`resolveWith_exec`).
-/
import RemoteClient.Remote

namespace RemoteClient

open Exec Http

/-! ## The sources -/

/-- Where a path leads within a directory, if there is a file. -/
def FileSystem.confined (T : FileSystem) (root : PathBuf) (rel : Str) : Option PathBuf :=
  (safeJoin root rel).bind fun candidate =>
    (T.canonicalize root).bind fun base =>
      (T.canonicalize candidate).bind fun file =>
        if base.isPrefixOf file then if T.isFile file then some file else none else none

/-- The bytes of a resolved file. -/
def Resolved.bytes (r : Resolved) : Exec Empty (Option (List Byte)) :=
  r.map fun found => found.map fun x => x.1.data

/-- What one source has, or else what the next ones have. -/
def firstOf (found : Option (List Byte)) (next : Exec Empty (Option (List Byte))) :
    Exec Empty (Option (List Byte)) :=
  match found with
  | some data => .ok (some data)
  | none => next

namespace Client

variable (c : Client) (T : FileSystem)

/-- The bytes of a path in the selected client directory it is in. -/
def clientData (reqPath : Str) : Option (List Byte) :=
  (c.clientDirectory reqPath).bind fun (dir, relative) => (T.confined dir relative).bind T.read

/-- The bytes of a path in the archives. -/
def archiveData (reqPath : Str) : Exec Empty (Option (List Byte)) :=
  match c.archiveHit reqPath with
  | .error stop => .error stop
  | .ok none => .ok none
  | .ok (some found) =>
    match c.readFound found with
    | .ok content => .ok (some content)
    | .error (.err _) => .ok none
    | .error .panic => .error .panic
    | .error .hang => .error .hang

variable {c} in
/-- An index without files leads nowhere. -/
lemma archiveHit_empty (hindex : c.index = AssetIndex.empty) (reqPath : Str) :
    c.archiveHit reqPath = .ok none := by
  have hlookup : ∀ path, c.index.lookup c.platform.text path = .ok none := fun path => by
    rw [hindex]
    simp [AssetIndex.lookup, AssetIndex.empty]
  have hdecoded : archiveHit.lookupDecoded c reqPath = .ok none := by
    unfold archiveHit.lookupDecoded
    simp only
    split
    · exact hlookup _
    · rfl
  unfold archiveHit
  rw [hlookup, ok_bind, hdecoded, ok_bind]
  cases Encoding.windows1252ToLatin1 reqPath with
  | none => rfl
  | some latin1 =>
    simp only
    rw [hlookup, hlookup]
    rfl

/-- What the archives have for those who may have the game data. -/
def gameBytes (reqPath : Str) (gameData : Bool) : Exec Empty (Option (List Byte)) :=
  if gameData then c.archiveData reqPath else .ok none

/-- What the sources behind the loose files have. -/
def fallbackData (reqPath : Str) (gameData : Bool) : Exec Empty (Option (List Byte)) :=
  firstOf (if gameData then c.clientData T reqPath else none)
    (firstOf (c.overrideData T reqPath) (c.gameBytes reqPath gameData))

/-- What the sources have for a path, the first one that has something. -/
def sourceData (reqPath : Str) (gameData : Bool) : Exec Empty (Option (List Byte)) :=
  if !publicAssetPath reqPath then .ok none
  else
    match safeJoin c.cfg.root reqPath with
    | none => .ok none
    | some path => firstOf (T.fileData path) (c.fallbackData T reqPath gameData)

end Client

/-! ## Asking the sources -/

/-- The disk is as it is, and the cache stores what it is given. -/
def OnDisk (T : FileSystem) : (a : Action) → a.Answer → Prop
  | .isFile path, r => r = T.isFile path
  | .read path, r => r = T.read path
  | .canonicalize path, r => r = T.canonicalize path
  | .cacheInsert _ data, file => file.data = data
  | _, _ => True

/-- Nothing is stored but what has an origin. -/
def Stores (Origin : Str → List Byte → Prop) : Action → Prop
  | .cacheInsert key data => Origin key data
  | .isFile _ => True
  | .read _ => True
  | .canonicalize _ => True
  | .extract _ _ => True
  | .logMissing _ => True
  | _ => False

/-- What was found under a key. -/
def Found (key : Str) (d : Exec Empty (Option (List Byte))) (key' : Str) (data : List Byte) :
    Prop :=
  key' = key ∧ d = .ok (some data)

/-- A program finds some bytes on a disk, and stores nothing else. -/
abbrev Reads (T : FileSystem) (key : Str) (d : Exec Empty (Option (List Byte)))
    (p : Work Resolved) : Prop :=
  p.Within (OnDisk T) (Stores (Found key d)) fun r => r.bytes = d

section

variable {c : Client} {T : FileSystem} {key reqPath : Str}
  {d : Exec Empty (Option (List Byte))}

lemma reads_store (content : List Byte) (source : Source) :
    Reads T key (.ok (some content)) (Client.store key content source) :=
  ⟨⟨rfl, rfl⟩, fun _ hfile => congrArg (fun data => Except.ok (some data)) hfile⟩

lemma reads_missed : Reads T key (.ok none) (Client.missed reqPath) := ⟨trivial, fun _ _ => rfl⟩

lemma extractFile_quiet (content : List Byte) :
    (c.extractFile reqPath content).Within (OnDisk T) (Stores (Found key d)) fun _ => True := by
  unfold Client.extractFile
  cases safeJoin c.cfg.root reqPath with
  | none => trivial
  | some path => exact ⟨trivial, fun _ _ => trivial⟩

lemma reads_resolveArchive :
    Reads T key (c.archiveData reqPath) (c.resolveArchive key reqPath) := by
  unfold Client.resolveArchive Client.archiveData
  cases c.archiveHit reqPath with
  | error stop => exact rfl
  | ok hit =>
    cases hit with
    | none => exact reads_missed
    | some found =>
      simp only
      cases c.readFound found with
      | ok content =>
        change Reads T key (.ok (some content)) (if c.cfg.clientAutoextract = true then _ else _)
        split
        · exact (extractFile_quiet content).bind fun _ _ => reads_store content _
        · exact reads_store content _
      | error stop =>
        cases stop with
        | err _ => exact reads_missed
        | panic => exact rfl
        | hang => exact rfl

lemma reads_resolveGameData (gameData : Bool) :
    Reads T key (c.gameBytes reqPath gameData) (c.resolveGameData key reqPath gameData) := by
  cases gameData with
  | true => exact reads_resolveArchive
  | false => exact rfl

lemma reads_storeFile (path : PathBuf) (source : Source) {next : Work Resolved}
    (hnext : Reads T key d next) :
    Reads T key (firstOf (T.read path) d) (Client.storeFile key path source next) := by
  refine ⟨trivial, fun content hcontent => ?_⟩
  obtain rfl : content = T.read path := hcontent
  cases T.read path with
  | some content => exact reads_store content source
  | none => exact hnext

/-- A file is read if it is there. -/
lemma reads_file (path : PathBuf) (source : Source) {next : Work Resolved}
    (hnext : Reads T key d next) :
    Reads T key (firstOf (T.fileData path) d) (do
      if ← Work.isFile path then Client.storeFile key path source next else next) := by
  refine ⟨trivial, fun isFile hisFile => ?_⟩
  obtain rfl : isFile = T.isFile path := hisFile
  unfold FileSystem.fileData
  cases T.isFile path with
  | true => exact reads_storeFile path source hnext
  | false => exact hnext

lemma reads_resolveOverride (gameData : Bool) :
    Reads T key (firstOf (c.overrideData T reqPath) (c.gameBytes reqPath gameData))
      (c.resolveOverride key reqPath gameData) := by
  unfold Client.resolveOverride Client.overrideData
  cases c.cfg.dataOverridePath.bind fun dir => safeJoin dir (stripLeadingData reqPath) with
  | none => exact reads_resolveGameData gameData
  | some path => exact reads_file path .dataOverride (reads_resolveGameData gameData)

lemma confinedFile_confined (root : PathBuf) (rel : Str) :
    (Client.confinedFile root rel).Within (OnDisk T) (Stores (Found key d))
      fun found => found = T.confined root rel := by
  unfold Client.confinedFile FileSystem.confined
  cases safeJoin root rel with
  | none => exact rfl
  | some candidate =>
    simp only [Option.bind_some]
    refine ⟨trivial, fun base hbase => ?_⟩
    obtain rfl : base = T.canonicalize root := hbase
    cases T.canonicalize root with
    | none => exact rfl
    | some base =>
      simp only [Option.bind_some]
      refine ⟨trivial, fun file hfile => ?_⟩
      obtain rfl : file = T.canonicalize candidate := hfile
      cases T.canonicalize candidate with
      | none => exact rfl
      | some file =>
        simp only [Option.bind_some]
        change Prog.Within _ _ (fun found => found = if base.isPrefixOf file then _ else _)
          (if base.isPrefixOf file then _ else _)
        split
        · refine ⟨trivial, fun isFile hisFile => ?_⟩
          obtain rfl : isFile = T.isFile file := hisFile
          cases T.isFile file <;> exact rfl
        · exact rfl

lemma reads_resolveClientDirectory (gameData : Bool) :
    Reads T key (c.fallbackData T reqPath gameData)
      (c.resolveClientDirectory key reqPath gameData) := by
  have hnext : Reads T key (firstOf (c.overrideData T reqPath) (c.gameBytes reqPath gameData))
      (c.resolveOverride key reqPath gameData) := reads_resolveOverride gameData
  unfold Client.resolveClientDirectory Client.fallbackData Client.clientData
  cases gameData with
  | false =>
    cases c.clientDirectory reqPath <;> exact hnext
  | true =>
    cases c.clientDirectory reqPath with
    | none => exact hnext
    | some x =>
      refine (confinedFile_confined x.1 x.2).bind fun found hfound => ?_
      subst hfound
      change Reads T key (firstOf ((T.confined x.1 x.2).bind T.read) _) _
      cases T.confined x.1 x.2 with
      | none => exact hnext
      | some file => exact reads_storeFile file .clientDirectory hnext

/-- **What the sources have is what is found**, beginning with the loose files. -/
lemma reads_resolveLocal (path : PathBuf) (gameData : Bool) :
    Reads T key (firstOf (T.fileData path) (c.fallbackData T reqPath gameData))
      (c.resolveLocal key reqPath path gameData) :=
  reads_file path .localFile (reads_resolveClientDirectory gameData)

end

/-! ## A call on a cache -/

/-- The bytes that are cached under a key. -/
def Server.copy (s : Server) (key : Str) : Option (List Byte) :=
  (s.cache.get key).1.map CachedFile.data

/-- The disk is `T`, and each cached copy has an origin. -/
structure Holds (T : FileSystem) (Origin : Str → List Byte → Prop) (s : Server) : Prop where
  disk : s.disk = T
  sound : s.cache.Sound
  cached : ∀ it ∈ s.cache.recency, Origin it.key it.value.data

section

variable {T : FileSystem} {Origin Origin' : Str → List Byte → Prop} {s : Server}

lemma Holds.mono (h : Holds T Origin s) (hOrigin : ∀ key data, Origin key data → Origin' key data) :
    Holds T Origin' s :=
  ⟨h.disk, h.sound, fun it hit => hOrigin _ _ (h.cached it hit)⟩

/-- Before the first request nothing is cached. -/
lemma holds_start (cfg : Config) (T : FileSystem) :
    Holds T (fun _ _ => False) (Client.start cfg T) := by
  refine ⟨rfl, sound_withBudget _ _, fun it hit => ?_⟩
  change it ∈ (FileCache.withBudget _ _).recency at hit
  rw [recency_withBudget] at hit
  exact absurd hit List.not_mem_nil

/-- What is cached under a key came from somewhere. -/
lemma Holds.copy (h : Holds T Origin s) {key : Str} {data : List Byte}
    (hcopy : s.copy key = some data) : Origin key data := by
  obtain ⟨file, hfile, rfl⟩ := Option.map_eq_some_iff.mp hcopy
  rw [(FileCache.get_spec h.sound key).1] at hfile
  obtain ⟨it, hit, rfl⟩ := Option.map_eq_some_iff.mp hfile
  obtain ⟨hmem, rfl⟩ := Lru.find?_key hit
  exact h.cached it hmem

/-- A hit moves its file, and nothing is added. -/
lemma Holds.get (h : Holds T Origin s) (key : Str) :
    Holds T Origin { s with cache := (s.cache.get key).2 } := by
  obtain ⟨-, hsound, -, hrecency⟩ := FileCache.get_spec h.sound key
  refine ⟨h.disk, hsound, fun it hit => h.cached it ?_⟩
  change it ∈ (s.cache.get key).2.recency at hit
  rw [hrecency] at hit
  exact (Lru.hit_perm key h.sound.nodup_keys).subset hit

/-- One action of a program that reads the sources. -/
lemma holds_perform (md5 : List Byte → Vector Byte 16)
    (hOrigin : ∀ key data, Origin' key data → Origin key data) (s : Server) (a : Action)
    (h : Holds T Origin s) (ha : Stores Origin' a) :
    ∃ r s', s.perform md5 a = .ok (r, s') ∧ OnDisk T a r ∧ Holds T Origin s' := by
  cases a with
  | cacheInsert key data =>
    obtain ⟨cache, hinsert, hsound, -, hrecency⟩ :=
      FileCache.insert_spec md5 h.sound key data s.encodings.length
    let file : CachedFile := ⟨data, computeEtag md5 data, s.encodings.length⟩
    let s' : Server :=
      { s with cache := cache, encodings := s.encodings ++ [⟨key, data, none⟩] }
    refine ⟨file, s', ?_, rfl, h.disk, hsound, fun it hit => ?_⟩
    · simp only [Server.perform, hinsert, ok_bind]
      rfl
    · change it ∈ cache.recency at hit
      rw [hrecency] at hit
      split at hit
      · rcases List.mem_append.mp hit with hit | hit
        · exact h.cached it (Lru.mem_trim_others _ _ _ it hit).1
        · rw [List.mem_singleton.mp hit]
          exact hOrigin key data ha
      · exact h.cached it hit
  | isFile path => exact ⟨_, s, rfl, congrArg (FileSystem.isFile · path) h.disk, h⟩
  | read path => exact ⟨_, s, rfl, congrArg (FileSystem.read · path) h.disk, h⟩
  | canonicalize path => exact ⟨_, s, rfl, congrArg (FileSystem.canonicalize · path) h.disk, h⟩
  | extract path content => exact ⟨(), _, rfl, trivial, ⟨h.disk, h.sound, h.cached⟩⟩
  | logMissing path => exact ⟨(), _, rfl, trivial, ⟨h.disk, h.sound, h.cached⟩⟩
  | cacheGet | addEncoding | slotGet | slotInit | metadata => exact ha.elim

/-- What a call answers: the copy under its key, or else what the sources have. -/
def Client.answered (c : Client) (T : FileSystem) (s : Server) (reqPath : Str) (gameData : Bool) :
    Exec Empty (Option (List Byte)) :=
  if c.looksFor reqPath && gameData then
    firstOf (s.copy (c.cacheKey reqPath)) (c.sourceData T reqPath gameData)
  else c.sourceData T reqPath gameData

/-- **A call is answered from its copy or from the sources**, and what it stores is what the
sources have. -/
lemma resolveWith_exec {c : Client} (h : Holds T Origin s) (reqPath : Str) (gameData : Bool) :
    ∃ r s', (c.resolveWith reqPath gameData).exec (Server.perform c.platform.md5) s = .ok (r, s') ∧
      r.bytes = c.answered T s reqPath gameData ∧
      Holds T (fun key data => Origin key data ∨
        key = c.cacheKey reqPath ∧ c.sourceData T reqPath gameData = .ok (some data)) s' := by
  have hmore : ∀ key data, Origin key data → Origin key data ∨
      key = c.cacheKey reqPath ∧ c.sourceData T reqPath gameData = .ok (some data) :=
    fun _ _ => .inl
  unfold Client.resolveWith Client.answered Client.looksFor
  cases hpublic : publicAssetPath reqPath with
  | false =>
    refine ⟨_, s, rfl, ?_, h.mono hmore⟩
    simp [Client.sourceData, hpublic, Resolved.bytes]
    rfl
  | true =>
    cases hjoin : safeJoin c.cfg.root reqPath with
    | none =>
      refine ⟨_, s, rfl, ?_, h.mono hmore⟩
      simp [Client.sourceData, hjoin, Resolved.bytes]
      rfl
    | some path =>
      have hsource : c.sourceData T reqPath gameData =
          firstOf (T.fileData path) (c.fallbackData T reqPath gameData) := by
        simp [Client.sourceData, hpublic, hjoin]
      -- The call on a cache without its key.
      have hmiss : ∀ s, Holds T Origin s → ∃ r s',
          (c.resolveLocal (c.cacheKey reqPath) reqPath path gameData).exec
            (Server.perform c.platform.md5) s = .ok (r, s') ∧
          r.bytes = c.sourceData T reqPath gameData ∧
          Holds T (fun key data => Origin key data ∨
            key = c.cacheKey reqPath ∧ c.sourceData T reqPath gameData = .ok (some data)) s' := by
        intro s h
        rw [hsource] at hmore ⊢
        exact (reads_resolveLocal path gameData).exec
          (holds_perform _ fun _ _ => .inr) (h.mono hmore)
      cases gameData with
      | false => exact hmiss s h
      | true =>
        have hcopy : s.copy (c.cacheKey reqPath) =
          (s.cache.get (c.cacheKey reqPath)).1.map CachedFile.data := rfl
        have hget : s.perform c.platform.md5 (.cacheGet (c.cacheKey reqPath)) =
            .ok ((s.cache.get (c.cacheKey reqPath)).1,
              { s with cache := (s.cache.get (c.cacheKey reqPath)).2 }) := rfl
        change ∃ r s', (s.perform c.platform.md5 (.cacheGet (c.cacheKey reqPath)) >>= fun x =>
          Prog.exec (Server.perform c.platform.md5) _ x.2) = _ ∧ _
        rw [hget, ok_bind, hcopy]
        cases (s.cache.get (c.cacheKey reqPath)).1 with
        | some hit => exact ⟨_, _, rfl, rfl, (h.get _).mono hmore⟩
        | none => exact hmiss _ (h.get _)

end

end RemoteClient
