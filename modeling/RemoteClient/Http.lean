/-
# Responses

Content types, cache headers, conditional requests and compression.  A header is its text, or
nothing when it is missing or is not text; of the request's headers those are here that a
handler reads, and of a response's those that depend on the request or on what is served.
The `Last-Modified` of an asset is the time of the answer, and is left out.

Gzip is a parameter: a function of the level and the bytes.
-/
import RemoteClient.Paths

namespace RemoteClient

/-! ## Headers -/

structure HeaderMap where
  acceptEncoding : Option Str := none
  ifNoneMatch : Option Str := none
  ifModifiedSince : Option Str := none
  contentType : Option Str := none
  /-- Whether a proxy in front of this server has marked the request as remote. -/
  xRagnarokRemote : Bool := false
deriving DecidableEq, Repr

structure Response where
  status : ℕ
  contentType : Option Str := none
  cacheControl : Option Str := none
  etag : Option Str := none
  lastModified : Option Str := none
  vary : Option Str := none
  contentEncoding : Option Str := none
  body : List Byte
deriving DecidableEq, Repr

namespace Http

/-- Without the blanks at both ends. -/
def trim (s : Str) : Str := ((s.dropWhile Char.isWhitespace).reverse.dropWhile Char.isWhitespace).reverse

/-- A text between double quotes. -/
def quoted (s : Str) : Str := '"' :: s ++ ['"']

/-! ## Kinds of files -/

def compressionThreshold : ℕ := 1024

/-- Extensions that get an ETag and a long cache lifetime. -/
def staticExtensions : List Str := [
  "grf", "gat", "rsw", "gnd", "rsm", "str", "spr", "act", "pal", "bmp", "tga", "jpg", "jpeg",
  "png", "gif", "wav", "mp3", "ogg", "txt", "xml", "lub", "lua"].map String.toList

/-- Game assets that are worth compressing on the wire. -/
def compressibleGameExtensions : List Str := [
  "spr", "act", "rsm", "gnd", "gat", "rsw", "str", "bmp", "tga", "pal", "lub", "lua", "txt",
  "xml"].map String.toList

def isStaticExtension (ext : Str) : Bool := ext ∈ staticExtensions

def contentTypes : List (String × String) := [
  ("html", "text/html; charset=utf-8"), ("htm", "text/html; charset=utf-8"),
  ("js", "text/javascript; charset=utf-8"), ("mjs", "text/javascript; charset=utf-8"),
  ("json", "application/json; charset=utf-8"), ("css", "text/css; charset=utf-8"),
  ("txt", "text/plain; charset=utf-8"), ("text", "text/plain; charset=utf-8"),
  ("xml", "application/xml"), ("svg", "image/svg+xml"), ("png", "image/png"),
  ("jpg", "image/jpeg"), ("jpeg", "image/jpeg"), ("gif", "image/gif"), ("bmp", "image/bmp"),
  ("webp", "image/webp"), ("ico", "image/x-icon"), ("wav", "audio/wav"), ("mp3", "audio/mpeg"),
  ("ogg", "audio/ogg"), ("mp4", "video/mp4"), ("wasm", "application/wasm"),
  ("woff", "font/woff"), ("woff2", "font/woff2"), ("ttf", "font/ttf"), ("otf", "font/otf"),
  ("map", "application/json; charset=utf-8"), ("webmanifest", "application/manifest+json"),
  ("avif", "image/avif"), ("pdf", "application/pdf"), ("zip", "application/zip")]

/-- Content type for an extension.  Unknown extensions, which is most of the game's formats,
become `application/octet-stream`. -/
def contentTypeFor (ext : Str) : Str :=
  ((contentTypes.lookup (String.ofList ext)).getD "application/octet-stream").toList

def isCompressible (ext contentType : Str) : Bool :=
  ext ∈ compressibleGameExtensions ||
  ["text/", "image/svg", "application/json", "application/xml", "application/javascript",
    "application/wasm"].any fun start => start.toList.isPrefixOf contentType

/-! ## Accepted codings -/

def acceptsGzip (headers : HeaderMap) : Bool :=
  match headers.acceptEncoding with
  | none => false
  | some value => (value.splitOn ',').any fun e => "gzip".toList.isPrefixOf (trim e)

/-- The number a row of decimal digits writes. -/
def digits (s : Str) : ℕ := s.foldl (fun n c => n * 10 + (c.toNat - '0'.toNat)) 0

/-- The exponent behind a decimal number. -/
def exponent : Str → Option ℤ
  | [] => some 0
  | c :: s =>
    let negative := s.head? = some '-'
    let power := if s.head? ∈ [some '-', some '+'] then s.tail else s
    if c ∉ ['e', 'E'] ∨ power = [] ∨ ¬power.all Char.isDigit then none
    else some (if negative then -digits power else digits power)

/-- Whether an unsigned decimal number rounds to a positive `f32`: whether it is larger than
half the smallest one, `2 ^ -149`. -/
def positiveNumber (s : Str) : Bool :=
  let (whole, rest) := s.span Char.isDigit
  let (fraction, rest) := if rest.head? = some '.' then rest.tail.span Char.isDigit else ([], rest)
  match exponent rest with
  | none => false
  | some e =>
    let power := e - fraction.length
    let mantissa := digits (whole ++ fraction)
    if whole ++ fraction = [] then false
    else if 0 ≤ power then 0 < mantissa
    else 10 ^ power.natAbs < mantissa * 2 ^ 150

/-- Whether a text parses as an `f32` above zero. -/
def parsesPositive (q : Str) : Bool :=
  let unsigned := if q.head? = some '+' then q.tail else q
  ["inf".toList, "infinity".toList].contains (asciiLower unsigned) || positiveNumber unsigned

/-- The coding an item of `Accept-Encoding` names, and whether it is acceptable.  A missing
`q` is 1; one that does not parse is treated as a refusal. -/
def acceptItem (item : Str) : Str × Bool :=
  let parts := item.splitOn ';'
  let q := parts.tail.findSome? fun param =>
    match splitOnce '=' param with
    | none => none
    | some (key, q) => if eqIgnoreAsciiCase (trim key) ['q'] then some (trim q) else none
  (trim (parts.headD []), (q.map parsesPositive).getD true)

/-- Look for a coding among the items, with what the last `*` so far said. -/
def acceptsAmong (coding : Str) (wildcard : Option Bool) : List Str → Bool
  | [] => wildcard.getD false
  | item :: items =>
    let (name, acceptable) := acceptItem item
    if eqIgnoreAsciiCase name coding then acceptable
    else acceptsAmong coding (if name = ['*'] then some acceptable else wildcard) items

/-- True when `Accept-Encoding` admits `coding`: the coding listed by name with a non-zero
`q`, or, when it is not listed, a non-zero `*`. -/
def acceptsEncoding (headers : HeaderMap) (coding : Str) : Bool :=
  match headers.acceptEncoding with
  | none => false
  | some value => acceptsAmong coding none (value.splitOn ',')

/-! ## Codings of assets -/

/-- A content coding the server makes for game assets. -/
inductive Coding where
  | gzip
deriving DecidableEq, Repr

def Coding.name : Coding → Str
  | .gzip => "gzip".toList

/-- Gzip level for game assets that are kept. -/
def assetGzipLevel : ℕ := 6

/-- True when `path` is a game asset worth compressing, so its answer depends on
`Accept-Encoding`. -/
def negotiatesCoding (path : Str) (len : ℕ) (compressionEnabled : Bool) : Bool :=
  let ext := extensionOf path
  compressionEnabled && compressionThreshold ≤ len && isCompressible ext (contentTypeFor ext)

/-- The coding to send `path` in, or `none` for its bytes as they are. -/
def assetCoding (headers : HeaderMap) (path : Str) (len : ℕ) (compressionEnabled : Bool) :
    Option Coding :=
  if !negotiatesCoding path len compressionEnabled then none
  else [Coding.gzip].find? fun coding => acceptsEncoding headers coding.name

/-- `data` in `coding`, or `none` when that is not smaller. -/
def encodeAsset (gzip : ℕ → List Byte → List Byte) (coding : Coding) (data : List Byte)
    (kept : Bool) : Option (List Byte) :=
  let encoded := match coding with
    | .gzip => gzip (if kept then assetGzipLevel else 1) data
  if encoded.length < data.length then some encoded else none

/-- True when the client's `If-None-Match` matches the entity tag we would send. -/
def etagMatches (headers : HeaderMap) (etag : Str) : Bool :=
  match headers.ifNoneMatch with
  | none => false
  | some value => ((value.splitOn ',').map trim).any fun candidate =>
    candidate = quoted etag || candidate = ['*']

/-- The ETag of a file's body in `coding`. -/
def codedEtag (etag : Str) : Option Coding → Str
  | some .gzip => etag ++ "-gz".toList
  | none => etag

/-! ## Building responses -/

/-- The `Vary` of an answer that depends on `Accept-Encoding`. -/
def varyOn (vary : Bool) : Option Str := if vary then some "Accept-Encoding".toList else none

def notModified (etag : Str) : Response where
  status := 304
  etag := some (quoted etag)
  cacheControl := some "public, max-age=86400, immutable".toList
  body := []

/-- The response for a resolved asset, honouring conditional requests.  `body` is already in
`coding`, `etag` is that representation's tag, and `vary` is `negotiatesCoding`. -/
def assetResponse (headers : HeaderMap) (path : Str) (body : List Byte) (etag : Str)
    (vary : Bool) (coding : Option Coding) : Response :=
  let ext := extensionOf path
  let isStatic := isStaticExtension ext
  if isStatic && etagMatches headers etag then { notModified etag with vary := varyOn vary }
  else {
    status := 200
    contentType := some (contentTypeFor ext)
    etag := if isStatic then some (quoted etag) else none
    cacheControl := some (
      if isStatic then "public, max-age=86400, immutable".toList
      else "no-cache, no-store, must-revalidate".toList)
    vary := varyOn vary
    contentEncoding := coding.map Coding.name
    body := body }

def notFound : Response where
  status := 404
  contentType := some "text/plain; charset=utf-8".toList
  cacheControl := some "no-store".toList
  body := utf8Bytes "File not found".toList

def text (status : ℕ) (body : String) : Response where
  status := status
  contentType := some "text/plain; charset=utf-8".toList
  body := utf8Bytes body.toList

/-- Compress a JSON or text payload if the client asked for it.  Small payloads and non-gzip
clients pass straight through. -/
def maybeCompress (gzip : ℕ → List Byte → List Byte) (headers : HeaderMap) (response : Response)
    (body : List Byte) (compressionEnabled : Bool) : Response :=
  let contentType := response.contentType.getD []
  let compressed := gzip 1 body
  if compressionEnabled && compressionThreshold ≤ body.length && isCompressible [] contentType &&
      acceptsGzip headers && compressed.length < body.length then
    { response with
      contentEncoding := some "gzip".toList
      vary := varyOn true
      body := compressed }
  else { response with body := body }


end Http
end RemoteClient
