/-
# What requests share

All requests work on one cache, one set of encodings, one file system and one record of
misses.  `Server` is that state and `Action` what a request can do to it in one atomic step: a
call of the cache under its lock, a look at a once-only slot, one call of the file system.

Two parts of the state are history and nothing reads them: the key and the content every
place for encodings was allocated for, and the places whose encodings were reported.
-/
import RemoteClient.Cache
import RemoteClient.Http
import RemoteClient.Lib.Interleave

namespace RemoteClient

open Exec Http

/-! ## The file system -/

structure Metadata where
  isDir : Bool
  isFile : Bool
  len : ℕ
  /-- Nanoseconds since the Unix epoch. -/
  modified : ℤ
deriving DecidableEq, Repr

/-- A file system at one moment. -/
structure FileSystem where
  /-- What a path leads to, links followed, and its bytes when they can be read.  Of a
  directory this says only that it is one: nothing looks at its size or time. -/
  node : PathBuf → Option (Metadata × Option (List Byte))
  canonicalize : PathBuf → Option PathBuf

namespace FileSystem

def metadata (fs : FileSystem) (path : PathBuf) : Option Metadata := (fs.node path).map Prod.fst

def isFile (fs : FileSystem) (path : PathBuf) : Bool := (fs.metadata path).any Metadata.isFile

def read (fs : FileSystem) (path : PathBuf) : Option (List Byte) := (fs.node path).bind Prod.snd

end FileSystem

/-! ## The encodings of a file -/

/-- The place where the copies of one stored file keep its encodings.  In a slot, the inner
`none` means that the coding was tried and came out no smaller. -/
structure Encodings where
  /-- The key the file was stored under: history. -/
  key : Str
  /-- The bytes of the file: history. -/
  data : List Byte
  gzip : Option (Option (List Byte))
deriving DecidableEq

namespace Encodings

def slot (e : Encodings) : Coding → Option (Option (List Byte))
  | .gzip => e.gzip

def setSlot (e : Encodings) (coding : Coding) (value : Option (List Byte)) : Encodings :=
  match coding with
  | .gzip => { e with gzip := some value }

end Encodings

/-! ## The record of misses -/

/-- In-memory ring of misses. -/
def maxMissingTracked : ℕ := 1000

structure MissingEntry where
  requestedPath : Str
  grfPath : Str
deriving DecidableEq, Repr

structure Missing where
  seen : List Str
  /-- The oldest first. -/
  entries : List MissingEntry
deriving DecidableEq, Repr

/-- Note a miss, unless the path has missed before. -/
def Missing.record (missing : Missing) (reqPath : Str) : Missing :=
  if reqPath ∈ missing.seen then missing
  else
    let entries := missing.entries ++ [⟨reqPath, toBackward reqPath⟩]
    { seen := missing.seen ++ [reqPath]
      entries := if maxMissingTracked < entries.length then entries.tail else entries }

/-! ## The state and its actions -/

structure Server where
  cache : FileCache
  encodings : List Encodings
  disk : FileSystem
  /-- Extracted files handed to the blocking pool to be written. -/
  extractions : List (PathBuf × List Byte)
  missing : Missing
  /-- The places whose encodings were reported to the cache: history. -/
  reported : List ℕ

inductive Action where
  | cacheGet (key : Str)
  | cacheInsert (key : Str) (data : List Byte)
  | addEncoding (key : Str) (file : CachedFile) (bytes : ℕ)
  /-- `OnceLock::get`. -/
  | slotGet (encodings : ℕ) (coding : Coding)
  /-- `OnceLock::get_or_init`, with the value its closure would make. -/
  | slotInit (encodings : ℕ) (coding : Coding) (value : Option (List Byte))
  | isFile (path : PathBuf)
  | read (path : PathBuf)
  | metadata (path : PathBuf)
  | canonicalize (path : PathBuf)
  /-- Hand an extracted file to the blocking pool. -/
  | extract (path : PathBuf) (content : List Byte)
  | logMissing (reqPath : Str)

/-- What an action returns. -/
abbrev Action.Answer : Action → Type
  | cacheGet _ => Option CachedFile
  | cacheInsert _ _ => CachedFile
  | addEncoding _ _ _ => Unit
  | slotGet _ _ => Option (Option (List Byte))
  -- the value of the slot, and whether the closure ran
  | slotInit _ _ _ => Option (List Byte) × Bool
  | isFile _ => Bool
  | read _ => Option (List Byte)
  | metadata _ => Option Metadata
  | canonicalize _ => Option PathBuf
  | extract _ _ => Unit
  | logMissing _ => Unit

/-- A request or a job, as the actions it takes. -/
abbrev Work (α : Type) : Type := Prog Action Action.Answer α

namespace Work

abbrev cacheGet (key : Str) : Work (Option CachedFile) := .act (.cacheGet key) .ret

abbrev cacheInsert (key : Str) (data : List Byte) : Work CachedFile :=
  .act (.cacheInsert key data) .ret

abbrev addEncoding (key : Str) (file : CachedFile) (bytes : ℕ) : Work Unit :=
  .act (.addEncoding key file bytes) .ret

abbrev slotGet (encodings : ℕ) (coding : Coding) : Work (Option (Option (List Byte))) :=
  .act (.slotGet encodings coding) .ret

abbrev slotInit (encodings : ℕ) (coding : Coding) (value : Option (List Byte)) :
    Work (Option (List Byte) × Bool) :=
  .act (.slotInit encodings coding value) .ret

abbrev isFile (path : PathBuf) : Work Bool := .act (.isFile path) .ret

abbrev read (path : PathBuf) : Work (Option (List Byte)) := .act (.read path) .ret

abbrev metadata (path : PathBuf) : Work (Option Metadata) := .act (.metadata path) .ret

abbrev canonicalize (path : PathBuf) : Work (Option PathBuf) := .act (.canonicalize path) .ret

abbrev extract (path : PathBuf) (content : List Byte) : Work Unit :=
  .act (.extract path content) .ret

abbrev logMissing (reqPath : Str) : Work Unit := .act (.logMissing reqPath) .ret

end Work

namespace Server

variable (md5 : List Byte → Vector Byte 16)

/-- What an action does. -/
def perform (s : Server) : (a : Action) → Exec Empty (a.Answer × Server)
  | .cacheGet key =>
    let (hit, cache) := s.cache.get key
    .ok (hit, { s with cache := cache })
  | .cacheInsert key data => do
    let (file, cache) ← s.cache.insert md5 key data s.encodings.length
    return (file, { s with cache := cache, encodings := s.encodings ++ [⟨key, data, none⟩] })
  | .addEncoding key file bytes => do
    let cache ← s.cache.addEncoding key file bytes
    return ((), { s with cache := cache, reported := s.reported ++ [file.encodings] })
  | .slotGet encodings coding => do
    let e ← index s.encodings encodings
    return (e.slot coding, s)
  | .slotInit encodings coding value => do
    let e ← index s.encodings encodings
    match e.slot coding with
    | some done => return ((done, false), s)
    | none =>
      let e := e.setSlot coding value
      return ((value, true), { s with encodings := s.encodings.set encodings e })
  | .isFile path => .ok (s.disk.isFile path, s)
  | .read path => .ok (s.disk.read path, s)
  | .metadata path => .ok (s.disk.metadata path, s)
  | .canonicalize path => .ok (s.disk.canonicalize path, s)
  | .extract path content => .ok ((), { s with extractions := s.extractions ++ [(path, content)] })
  | .logMissing reqPath => .ok ((), { s with missing := s.missing.record reqPath })

end Server

end RemoteClient
