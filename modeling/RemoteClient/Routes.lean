/-
# The HTTP surface

What each route answers.  Route order is load-bearing: static files are served before asset
resolution, and asset resolution is the fallback for everything else.

A request is what the handler of its route receives; routing and the parsing of bodies that
the framework does have happened.  No response means that the handler panicked and the
connection was dropped.
-/
import Std.Data.TreeMap.Basic
import RemoteClient.Client

namespace RemoteClient

open Exec Http

/-! ## Requests -/

inductive Method where
  | get
  | head
  | other
deriving DecidableEq, Repr

/-- The handler of a request and what it reads of it, headers apart. -/
inductive Endpoint where
  | listFiles
  | search (body : List Byte)
  | batch (files : Option (List Str))
  | path (method : Method) (rawPath : Str)
deriving DecidableEq, Repr

structure Request where
  /-- Whether the peer has a loopback address; a request without a peer address has none. -/
  loopback : Bool
  headers : HeaderMap
  endpoint : Endpoint
deriving DecidableEq, Repr

/-- Everyone gets the game data unless `remoteGrfData` is off; then only a loopback peer that
no proxy has marked remote does. -/
def Request.gameData (cfg : Config) (r : Request) : Bool :=
  cfg.remoteGrfData || (r.loopback && !r.headers.xRagnarokRemote)

namespace Client

variable (c : Client) (headers : HeaderMap)

/-! ## JSON endpoints -/

def compress (response : Response) (body : List Byte) : Response :=
  maybeCompress c.platform.gzip headers response body c.cfg.enableCompression

def jsonResponse (body : List Byte) (cacheControl : Option Str) : Response :=
  c.compress headers
    { status := 200
      contentType := some "application/json; charset=utf-8".toList
      cacheControl := cacheControl
      body := [] } body

/-- The list is the archives' names, so there is nothing in it for a request that may not
have them. -/
def serveListFiles (gameData : Bool) : Option Response :=
  match if gameData then c.listFiles else .ok [] with
  | .ok names =>
    some (c.jsonResponse headers (c.platform.jsonNames names) (some "public, max-age=300".toList))
  | .error _ => none

/-- Percent-and-plus decoding for one form value. -/
def formDecode (value : Str) : Str :=
  let plusExpanded := value.map fun ch => if ch = '+' then ' ' else ch
  c.platform.text.fromUtf8Lossy (c.platform.text.percentDecode (utf8Bytes plusExpanded))

/-- Pull `filter` out of a body that may be JSON or a form. -/
def searchFilter (body : List Byte) : Option Str :=
  if "application/x-www-form-urlencoded".toList.isPrefixOf (headers.contentType.getD []) then
    match c.platform.text.fromUtf8 body with
    | none => none
    | some form =>
      (form.splitOn '&').findSome? fun pair =>
        match splitOnce '=' pair with
        | none => none
        | some (key, value) => if key = "filter".toList then some (c.formDecode value) else none
  else (c.platform.jsonFilter body).join

def serveSearch (body : List Byte) (gameData : Bool) : Option Response :=
  let filter := (c.searchFilter headers body).getD []
  if !c.cfg.clientEnablesearch || filter.isEmpty then
    some (text 400 "Search feature is disabled or invalid filter")
  else
    match c.platform.regex true filter with
    | none => some (text 400 "Invalid filter expression")
    | some isMatch =>
      match if gameData then c.search isMatch else .ok [] with
      | .error _ => none
      | .ok matched =>
        some (c.compress headers
          { status := 200
            contentType := some "text/plain; charset=utf-8".toList
            body := [] } (utf8Bytes (List.intercalate ['\n'] matched)))

def maxBatchFiles : ℕ := 50

/-- Fetch the files of a batch; a failure is omitted. -/
def fetchFiles (gameData : Bool) : List Str → Std.TreeMap Str Str → Work (Std.TreeMap Str Str)
  | [], results => return results
  | path :: files, results => do
    match ← c.getFileWith path gameData with
    | some file => fetchFiles gameData files (results.insert path (base64Encode file.data))
    | none => fetchFiles gameData files results

/-- Fetch several assets in one round trip. -/
def serveBatch (files : Option (List Str)) (gameData : Bool) : Work Response :=
  let files := files.getD []
  if files = [] ∨ maxBatchFiles < files.length then
    return {
      status := 400
      contentType := some "application/json; charset=utf-8".toList
      body := c.platform.jsonFiles [("error".toList, "Invalid files array (1-50 files)".toList)] }
  else do
    let results ← c.fetchFiles gameData files ∅
    return c.jsonResponse headers (c.platform.jsonFiles results.toList) none

/-! ## Static files -/

/-- Nothing of a time before the epoch is left. -/
def millisOf (t : ℤ) : ℕ := (t / 1000000).toNat

def secondsOf (t : ℤ) : ℕ := (t / 1000000000).toNat

def weakEtag (len : ℕ) (modified : ℤ) (suffix : Str) : Str :=
  ['W', '/', '"'] ++ Nat.toDigits 16 len ++ ['-'] ++ Nat.toDigits 16 (millisOf modified) ++
    suffix ++ ['"']

def etagMatchesWeak (etag : Str) : Bool :=
  match headers.ifNoneMatch with
  | none => false
  | some value => (value.splitOn ',').any fun item => trim item = etag || trim item = ['*']

/-- HTTP dates have one-second resolution. -/
def notModifiedSince (modified : ℤ) : Bool :=
  match headers.ifModifiedSince.bind c.platform.parseHttpDate with
  | none => false
  | some since => secondsOf modified ≤ secondsOf since

/-- A precompressed file beside another. -/
structure Sibling where
  path : PathBuf
  coding : Str
  ext : Str

/-- Codings the client build may have precompressed a file into, best first, with the
extension of the sibling that holds each. -/
def precompressed : List (Str × Str) := [("br".toList, "br".toList), ("gzip".toList, "gz".toList)]

/-- The siblings in some codings that are regular files no older than the file. -/
def siblingsIn (path : PathBuf) (modified : ℤ) : List (Str × Str) → Work (List Sibling)
  | [] => return []
  | (coding, ext) :: codings => do
    let sibling := pushSuffix path ('.' :: ext)
    let metadata ← Work.metadata sibling
    let others ← siblingsIn path modified codings
    if metadata.any fun m => m.isFile && modified ≤ m.modified then
      return ⟨sibling, coding, ext⟩ :: others
    else return others

/-- The precompressed siblings of `path`.  A sibling asked for by name is just a file. -/
def freshSiblings (path : PathBuf) (modified : ℤ) : Work (List Sibling) :=
  let ext := extensionOf (pathString path)
  if precompressed.any fun p => p.2 = ext then return [] else siblingsIn path modified precompressed

/-- Answer with the file at `path`, or with the best sibling the client accepts. -/
def staticAnswer (path : PathBuf) (metadata : Metadata) (siblings : List Sibling) :
    Work (Option Response) :=
  let modified := metadata.modified
  let vary := varyOn !siblings.isEmpty
  let chosen := siblings.find? fun sibling => acceptsEncoding headers sibling.coding
  let suffix := (chosen.map fun sibling => '-' :: sibling.ext).getD []
  let etag := weakEtag metadata.len modified suffix
  let lastModified := c.platform.fmtHttpDate modified
  let answer (status : ℕ) : Response :=
    { status := status
      cacheControl := some "public, max-age=0".toList
      etag := some etag
      lastModified := some lastModified
      vary := vary
      body := [] }
  if etagMatchesWeak headers etag || c.notModifiedSince headers modified then
    return some (answer 304)
  else do
    let found := { answer 200 with
      contentType := some (contentTypeFor (extensionOf (pathString path))) }
    match chosen with
    | some sibling =>
      match ← Work.read sibling.path with
      | some content =>
        return some { found with contentEncoding := some sibling.coding, body := content }
      -- The tag already names this representation, so nothing else goes out under it.
      | none => return none
    | none =>
      match ← Work.read path with
      | some content => return some (c.compress headers found content)
      | none => return none

/-- Serve a file that is there. -/
def staticFile (path : PathBuf) (metadata : Metadata) : Work (Option Response) :=
  if c.cfg.enableCompression then do
    let siblings ← freshSiblings path metadata.modified
    c.staticAnswer headers path metadata siblings
  else c.staticAnswer headers path metadata []

/-- Serve a file out of the static directory; nothing when there is none. -/
def serveStatic (relative : Str) : Work (Option Response) :=
  match safeJoin c.cfg.robrowserPath relative with
  | none => return none
  | some candidate => do
    match ← Work.metadata candidate with
    | none => return none
    | some metadata =>
      if metadata.isDir then
        let page := candidate ++ ["index.html".toList]
        match ← Work.metadata page with
        | none => return none
        | some metadata => c.staticFile headers page metadata
      else c.staticFile headers candidate metadata

/-! ## Assets -/

/-- A HEAD response carries the headers of the GET and none of the body. -/
def finish (isHead : Bool) (response : Response) : Response :=
  if isHead then { response with body := [] } else response

/-- The answer for a resolved asset, in the coding it negotiates. -/
def serveAsset (relative : Str) (file : CachedFile) : Work Response :=
  let len := file.data.length
  let respond (body : List Byte) (coding : Option Coding) : Response :=
    assetResponse headers relative body (codedEtag file.etag coding)
      (negotiatesCoding relative len c.cfg.enableCompression) coding
  match assetCoding headers relative len c.cfg.enableCompression with
  | none => return respond file.data none
  | some coding =>
    -- A revalidation that will be answered 304 needs no body made.
    if isStaticExtension (extensionOf relative) &&
        etagMatches headers (codedEtag file.etag (some coding)) then
      return respond [] (some coding)
    else do
      match ← c.encoded relative file coding with
      | some encoded => return respond encoded (some coding)
      | none => return respond file.data none

/-- Assets: local files, the override directory, then the archives. -/
def serveResolved (relative : Str) (gameData : Bool) : Work Response := do
  match ← c.getFileWith relative gameData with
  | some file => c.serveAsset headers relative file
  | none => return notFound

def indexPage : PathBuf := c.cfg.root ++ ["index.html".toList]

/-- The project's own landing page. -/
def serveRoot : Work Response := do
  let answer (body : List Byte) : Response := c.compress headers
    { status := 200
      contentType := some "text/html; charset=utf-8".toList
      cacheControl := some "public, max-age=60".toList
      body := [] } body
  if ← Work.isFile c.indexPage then
    match ← Work.read c.indexPage with
    | some content => return answer content
    | none => return answer c.platform.statusPage
  else return answer c.platform.statusPage

/-- The landing page at the root, assets elsewhere. -/
def serveFallback (relative : Str) (gameData : Bool) : Work Response :=
  if relative = [] then c.serveRoot headers else c.serveResolved headers relative gameData

/-- The built client, when this server is also serving it. -/
def serveFile (relative : Str) (gameData : Bool) : Work Response :=
  if c.cfg.enableStaticServe then do
    match ← c.serveStatic headers relative with
    | some response => return response
    | none => c.serveFallback headers relative gameData
  else c.serveFallback headers relative gameData

/-- Generated host configuration lives with the asset generation. -/
def generatedName (relative : Str) : Option Str :=
  if relative = [] ∨ relative = "index.html".toList then some "index.html".toList
  else if relative = "Config.local.js".toList then some "Config.local.js".toList
  else none

/-- The answer to a GET of a decoded path. -/
def serveGet (relative : Str) (gameData : Bool) : Work Response :=
  if !publicAssetPath relative then return notFound
  else
    match generatedName relative with
    | none => c.serveFile headers relative gameData
    | some name => do
      match ← Work.read (c.cfg.root ++ [name]) with
      | some bytes =>
        return {
          status := 200
          contentType := some (contentTypeFor (extensionOf name))
          cacheControl := some "no-store".toList
          body := bytes }
      | none => c.serveFile headers relative gameData

def servePath (method : Method) (rawPath : Str) (gameData : Bool) : Work Response :=
  if method = .other then return text 405 "Method not allowed"
  else
    let relative := decodeRequestPath c.platform.text (rawPath.dropWhile fun ch => ch = '/')
    finish (method = .head) <$> c.serveGet headers relative gameData

/-- The path that a request is for. -/
def decoded (rawPath : Str) : Str :=
  decodeRequestPath c.platform.text (rawPath.dropWhile fun ch => ch = '/')

/-! ## The whole server -/

/-- What a request does. -/
def handle (r : Request) : Work (Option Response) :=
  let gameData := r.gameData c.cfg
  match r.endpoint with
  | .listFiles => return c.serveListFiles r.headers gameData
  | .search body => return c.serveSearch r.headers body gameData
  | .batch files => some <$> c.serveBatch r.headers files gameData
  | .path method rawPath => some <$> c.servePath r.headers method rawPath gameData

end Client

/-- What the server works on at the same time. -/
inductive Job where
  | request (r : Request)
  | warmUp (limit : ℕ)
deriving DecidableEq, Repr

namespace Client

variable (c : Client)

def run : Job → Work (Option Response)
  | .request r => c.handle r
  | .warmUp limit => do
    let _ ← c.warmCache limit
    return none

/-- How the disk changes between two steps of the server.  The blocking pool writes the
extracted files, making the directories above them; the log of misses is appended to, or
fails to be; and others change what they like.  What is `frozen` is no part of the logs, and
others leave it alone. -/
inductive Outside (frozen : PathBuf → Prop) : Server → Server → Prop
  | extraction {s : Server} {disk : FileSystem}
      (h : ∀ path, (∀ e ∈ s.extractions, ¬path <+: e.1) → disk.node path = s.disk.node path) :
      Outside frozen s { s with disk := disk }
  | log {s : Server} {disk : FileSystem}
      (h : ∀ path, frozen path ∨ ¬c.cfg.logsDir <+: path → disk.node path = s.disk.node path) :
      Outside frozen s { s with disk := disk }
  | others {s : Server} {disk : FileSystem}
      (h : ∀ path, frozen path → disk.node path = s.disk.node path) :
      Outside frozen s { s with disk := disk }

/-- The server: any number of jobs at once, on a disk of which `frozen` is left alone. -/
def machine (frozen : PathBuf → Prop) : Machine Action Action.Answer Server Job (Option Response) where
  perform := Server.perform c.platform.md5
  env := c.Outside frozen
  main := c.run

end Client
end RemoteClient
