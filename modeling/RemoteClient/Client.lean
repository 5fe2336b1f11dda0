/-
# Asset resolution

Everything between a request path and some bytes.  `resolveWith` asks the cache, the files
beside the server, the selected client directories, the override directory and the archives,
in this order; without the game data it asks only for what the server itself adds to the game.

A step of the code that falls through to the next source is a function of its own here, which
calls the next one.  What runs on the blocking pool may panic, and a panic counts as a miss.
-/
import RemoteClient.Server

namespace RemoteClient

open Exec Http

/-! ## What a client is made of -/

/-- What other libraries do, and the bytes of the status page. -/
structure Platform where
  text : TextLib
  flate : Grf.Flate
  crypto : Grf.Crypto
  md5 : List Byte → Vector Byte 16
  /-- Gzip at a level. -/
  gzip : ℕ → List Byte → List Byte
  /-- A regular expression, case-insensitive or as it is written, as what it matches. -/
  regex : (caseInsensitive : Bool) → Str → Option (Str → Bool)
  /-- JSON of an array of strings. -/
  jsonNames : List Str → List Byte
  /-- JSON of an object of strings. -/
  jsonFiles : List (Str × Str) → List Byte
  /-- The `filter` of a JSON search body, which it may lack. -/
  jsonFilter : List Byte → Option (Option Str)
  /-- HTTP dates, in nanoseconds since the Unix epoch. -/
  parseHttpDate : Str → Option ℤ
  fmtHttpDate : ℤ → Str
  statusPage : List Byte

/-- The settings that decide about assets. -/
structure Config where
  root : PathBuf
  enableStaticServe : Bool
  enableCompression : Bool
  robrowserPath : PathBuf
  dataOverridePath : Option PathBuf
  /-- Read-only fallbacks scoped to BGM/ and AI/. -/
  bgmPath : Option PathBuf
  aiPath : Option PathBuf
  cacheMaxFiles : ℕ
  cacheMaxMemoryMb : ℕ
  clientEnablesearch : Bool
  /-- Write every served asset out to `<root>/<path>` as it is extracted. -/
  clientAutoextract : Bool
  /-- When off, the archives and the selected client directories go only to this machine. -/
  remoteGrfData : Bool
  /-- `from_env` turns auto-extract off with it: an extracted copy is a loose file. -/
  autoextract_off : remoteGrfData = false → clientAutoextract = false

def Config.logsDir (cfg : Config) : PathBuf := cfg.root ++ ["logs".toList]

def Config.missingFilesLog (cfg : Config) : PathBuf := cfg.logsDir ++ ["missing-files.log".toList]

/-- Where a resolved file came from. -/
inductive Source where
  | cache
  | localFile
  | clientDirectory
  | dataOverride
  | grf (i : BitVec 16)
deriving DecidableEq, Repr

/-- What a request cannot change. -/
structure Client where
  platform : Platform
  cfg : Config
  grfs : List Grf
  index : AssetIndex

/-- What resolving returns: a file and its source, a miss, or a panic. -/
abbrev Resolved : Type := Exec Empty (Option (CachedFile × Source))

namespace Client

def new (platform : Platform) (cfg : Config) (grfs : List Grf) : Client where
  platform := platform
  cfg := cfg
  grfs := grfs
  index := if grfs = [] then AssetIndex.empty else AssetIndex.build platform.text grfs

/-- The cache of a client before the first request. -/
def newCache (cfg : Config) : FileCache := FileCache.new cfg.cacheMaxFiles cfg.cacheMaxMemoryMb

/-- The shared state before the first request. -/
def start (cfg : Config) (disk : FileSystem) : Server where
  cache := newCache cfg
  encodings := []
  disk := disk
  extractions := []
  missing := ⟨[], []⟩
  reported := []

variable (c : Client)

def cacheKey (path : Str) : Str := Encoding.jsLowercase c.platform.text path

/-- `FileCache::keeps` reads only the limits of the cache. -/
def keeps (len : ℕ) : Bool := (newCache c.cfg).keeps len

/-- Cache-only lookup. -/
def cached (reqPath : Str) : Work (Option CachedFile) :=
  if !publicAssetPath reqPath then return none else Work.cacheGet (c.cacheKey reqPath)

/-! ## The archives -/

/-- The names an archive may know a path under: the path, its Korean reading, and both with
windows-1252 letters put back to their bytes. -/
def archiveHit (reqPath : Str) : Exec Empty (Option IndexedFile) := do
  match ← c.index.lookup c.platform.text reqPath with
  | some found => return some found
  | none =>
    match ← lookupDecoded with
    | some found => return some found
    | none =>
      match Encoding.windows1252ToLatin1 reqPath with
      | none => return none
      | some latin1 =>
        match ← c.index.lookup c.platform.text latin1 with
        | some found => return some found
        | none => c.index.lookup c.platform.text (Encoding.decodeMojibake c.platform.text latin1)
where
  lookupDecoded : Exec Empty (Option IndexedFile) :=
    let decoded := Encoding.decodeMojibake c.platform.text reqPath
    if decoded ≠ reqPath then c.index.lookup c.platform.text decoded else return none

/-- Read a file of the index out of its archive. -/
def readFound (found : IndexedFile) : Exec Grf.IoError (List Byte) := do
  let grf ← lift (Exec.index c.grfs found.grf.toNat)
  Grf.readEntry c.platform.flate c.platform.crypto grf found.entry

/-! ## Resolving -/

/-- Store what was read, and return it. -/
def store (key : Str) (content : List Byte) (source : Source) : Work Resolved := do
  let file ← Work.cacheInsert key content
  return .ok (some (file, source))

/-- A file that is nowhere. -/
def missed (reqPath : Str) : Work Resolved := do
  Work.logMissing reqPath
  return .ok none

/-- Write an extracted asset out beside the server. -/
def extractFile (reqPath : Str) (content : List Byte) : Work Unit :=
  match safeJoin c.cfg.root reqPath with
  | none => return ()
  | some path => Work.extract path content

/-- The archives, under the requested spelling and then under the others. -/
def resolveArchive (key reqPath : Str) : Work Resolved :=
  match c.archiveHit reqPath with
  | .error stop => return .error stop
  | .ok none => missed reqPath
  | .ok (some found) =>
    match c.readFound found with
    | .ok content =>
      if c.cfg.clientAutoextract then do
        c.extractFile reqPath content
        store key content (.grf found.grf)
      else store key content (.grf found.grf)
    | .error (.err _) => missed reqPath
    | .error .panic => return .error .panic
    | .error .hang => return .error .hang

/-- The archives are only for those who may have the game data. -/
def resolveGameData (key reqPath : Str) (gameData : Bool) : Work Resolved :=
  if gameData then c.resolveArchive key reqPath else return .ok none

/-- Read a file that is there and store it; what cannot be read is looked for further on. -/
def storeFile (key : Str) (path : PathBuf) (source : Source) (next : Work Resolved) :
    Work Resolved := do
  match ← Work.read path with
  | some content => store key content source
  | none => next

/-- The override directory, before the archives. -/
def resolveOverride (key reqPath : Str) (gameData : Bool) : Work Resolved :=
  let next := c.resolveGameData key reqPath gameData
  match c.cfg.dataOverridePath.bind fun dir => safeJoin dir (stripLeadingData reqPath) with
  | none => next
  | some path => do
    if ← Work.isFile path then storeFile key path .dataOverride next else next

/-- Read-only lookup within an explicitly selected directory. -/
def confinedFile (root : PathBuf) (rel : Str) : Work (Option PathBuf) :=
  match safeJoin root rel with
  | none => return none
  | some candidate => do
    match ← Work.canonicalize root with
    | none => return none
    | some base =>
      match ← Work.canonicalize candidate with
      | none => return none
      | some file =>
        if base.isPrefixOf file then
          if ← Work.isFile file then return some file else return none
        else return none

/-- The selected client directory a path is in, and the path within it. -/
def clientDirectory (reqPath : Str) : Option (PathBuf × Str) :=
  match splitOnce '/' (toForward reqPath) with
  | none => none
  | some (namespaceName, relative) =>
    if eqIgnoreAsciiCase namespaceName "BGM".toList then c.cfg.bgmPath.map fun dir => (dir, relative)
    else if eqIgnoreAsciiCase namespaceName "AI".toList then
      c.cfg.aiPath.map fun dir => (dir, relative)
    else none

/-- Selected client directories are fallback reads. -/
def resolveClientDirectory (key reqPath : Str) (gameData : Bool) : Work Resolved :=
  let next := c.resolveOverride key reqPath gameData
  match (c.clientDirectory reqPath).filter fun _ => gameData with
  | none => next
  | some (dir, relative) => do
    match ← confinedFile dir relative with
    | some path => storeFile key path .clientDirectory next
    | none => next

/-- Loose files shipped beside the server, and anything auto-extract has written out. -/
def resolveLocal (key reqPath : Str) (path : PathBuf) (gameData : Bool) : Work Resolved := do
  let next := c.resolveClientDirectory key reqPath gameData
  if ← Work.isFile path then storeFile key path .localFile next else next

/-- Resolve a request path to bytes, or with `gameData` false only to what this server adds to
the game. -/
def resolveWith (reqPath : Str) (gameData : Bool) : Work Resolved :=
  if !publicAssetPath reqPath then return .ok none
  else
    match safeJoin c.cfg.root reqPath with
    | none => return .ok none
    | some path =>
      let key := c.cacheKey reqPath
      if gameData then do
        match ← Work.cacheGet key with
        | some hit => return .ok (some (hit, .cache))
        | none => c.resolveLocal key reqPath path gameData
      else c.resolveLocal key reqPath path gameData

/-- Whether a path is looked for at all. -/
def looksFor (reqPath : Str) : Bool :=
  publicAssetPath reqPath && (safeJoin c.cfg.root reqPath).isSome

def resolve (reqPath : Str) : Work Resolved := c.resolveWith reqPath true

/-- What is left of a blocking task when it is awaited. -/
def joined : Resolved → Option CachedFile
  | .ok resolved => resolved.map Prod.fst
  | .error _ => none

/-- Fast path on a cache hit, blocking pool otherwise. -/
def getFile (reqPath : Str) : Work (Option CachedFile) := do
  match ← c.cached reqPath with
  | some hit => return some hit
  | none => joined <$> c.resolve reqPath

/-- `getFile`, or with `gameData` false only what `resolveWith` allows. -/
def getFileWith (reqPath : Str) (gameData : Bool) : Work (Option CachedFile) :=
  if gameData then c.getFile reqPath else joined <$> c.resolveWith reqPath false

/-! ## Encodings -/

/-- `file`'s bytes in `coding`, made once and kept with the cached entry; `none` when that
coding does not make it smaller.  A file the cache would not keep is encoded cheaply for each
request instead. -/
def encoded (reqPath : Str) (file : CachedFile) (coding : Coding) : Work (Option (List Byte)) := do
  match ← Work.slotGet file.encodings coding with
  | some done => return done
  | none =>
    if !c.keeps file.data.length then return encodeAsset c.platform.gzip coding file.data false
    else do
      let made := encodeAsset c.platform.gzip coding file.data true
      match ← Work.slotInit file.encodings coding made with
      -- the closure ran here, and its encoding is smaller than the file
      | (some bytes, true) =>
        Work.addEncoding (c.cacheKey reqPath) file bytes.length
        return some bytes
      | (result, _) => return result

/-! ## Lists and warm-up -/

/-- Every reachable file, spelled as its archive spells it. -/
def listFiles : Exec Empty (List Str) :=
  c.index.reachable.mapM fun i => do
    let file ← Exec.index c.index.files i.toNat
    return file.name

def search (isMatch : Str → Bool) : Exec Empty (List Str) := do
  let names ← c.listFiles
  return names.filter isMatch

/-- Interface textures, the default spawn map, every map's altitude and world data, player
sprites, palettes and the small Lua files loaded during boot. -/
def warmUpPatterns : List Str := [
  "(?i)data.texture.유저인터페이스", "(?i)data.texture.userinterface", "(?i)loading.",
  "(?i)cardbmp.", "(?i)prontera\\.gat$", "(?i)prontera\\.gnd$", "(?i)prontera\\.rsw$",
  "(?i)\\.gat$", "(?i)\\.rsw$", "(?i)data.sprite.인간족", "(?i)\\.pal$", "(?i)\\.lub$"].map
    String.toList

/-- Whether a name is one of those the client always asks for. -/
def isWarm (name : Str) : Bool :=
  (warmUpPatterns.filterMap (c.platform.regex false)).any fun isMatch => isMatch name

/-- Preload files of the index, each under the key the browser will request. -/
def warmFiles (limit : ℕ) : List (BitVec 32) → ℕ → Work (Exec Empty ℕ)
  | [], warmed => return .ok warmed
  | i :: reachable, warmed =>
    match Exec.index c.index.files i.toNat with
    | .error stop => return .error stop
    | .ok file =>
      if limit ≤ warmed then return .ok warmed
      else if !c.isWarm file.name then warmFiles limit reachable warmed
      else
        match c.readFound file with
        | .ok content => do
          let key := normForward c.platform.text (Encoding.toMojibake c.platform.text file.name)
          let _ ← Work.cacheInsert key content
          warmFiles limit reachable (warmed + 1)
        | .error (.err _) => warmFiles limit reachable warmed
        | .error .panic => return .error .panic
        | .error .hang => return .error .hang

/-- Preload assets the client always asks for. -/
def warmCache (limit : ℕ) : Work (Exec Empty ℕ) := c.warmFiles limit c.index.reachable 0

end Client
end RemoteClient
