/-
# The app proxy

A path prefix, and the two paths of the guild emblems, are handed to an HTTP service on this
machine.  `relay` checks a request, writes it anew to the service, reads what comes back until it
is whole, and passes on what a page needs of it.

The service is what it does: whether it can be connected to, how much of the request it takes,
what each read of the connection yields, and what happens when there is nothing more to read.
The sum in `isComplete` depends on the build: with overflow checks it panics past 64 bits, and
without them it wraps.
-/
import RemoteClient.Http
import RemoteClient.WsProxy
import RemoteClient.Lib.Lines
import RemoteClient.Lib.Numerals
import RemoteClient.Lib.Text
import RemoteClient.Lib.Utf8

namespace RemoteClient
namespace AppProxy

open Exec Http

/-! ## What is forwarded where -/

def maxRequestBody : ℕ := 4 * 1024

def maxWebServerRequestBody : ℕ := 64 * 1024

/-- What the web server answers that the client asks for. -/
def webServerRoutes : List Str := ["/emblem/upload".toList, "/emblem/download".toList]

def maxResponse : ℕ := 64 * 1024

/-- A prefix this server will hand on. -/
def validPrefix (start : Str) : Bool :=
  3 ≤ (utf8Bytes start).length && (utf8Bytes start).length ≤ 64 &&
  start.head? = some '/' && start.getLast? = some '/' &&
  (Lines.cut "//".toList start).isNone &&
  (start.all fun c => c.isAlphanum || c = '/' || c = '_' || c = '-') &&
  !(["/api/", "/ws/", "/batch/", "/search/", "/list-files/"].any fun own =>
    own.toList.isPrefixOf start)

/-- Loopback only. -/
def validTarget (target : Str) : Bool :=
  match WsProxy.parseTarget target with
  | some (host, _) => ["127.0.0.1", "[::1]", "localhost"].any fun own => host = own.toList
  | none => false

/-- A prefix that was accepted. -/
abbrev Prefix : Type := {start : Str // validPrefix start = true}

/-- The prefix and its target: both, or nothing. -/
def appProxyOf (start target : Option Str) : Option (Prefix × Str) :=
  match start, target with
  | some start, some target =>
    if h : validPrefix start = true ∧ validTarget target = true then some (⟨start, h.1⟩, target)
    else none
  | _, _ => none

def webServerProxyOf (target : Option Str) : Option Str := target.filter validTarget

/-! ## Addresses -/

inductive IpAddr where
  | v4 (octets : Vector Byte 4)
  | v6 (segments : Vector (BitVec 16) 8)

def ipv4Text (octets : List Byte) : Str :=
  ['.'].intercalate (octets.map fun b => Nat.toDigits 10 b.toNat)

/-- Segments in hexadecimal, between colons. -/
def segmentsText (segments : List (BitVec 16)) : Str :=
  [':'].intercalate (segments.map fun s => Nat.toDigits 16 s.toNat)

/-- Start and length of the first longest run of zeros.  The run that is read and the longest
one so far are given, and the place of the next segment. -/
def longestZeros : ℕ → List (BitVec 16) → (current longest : ℕ × ℕ) → ℕ × ℕ
  | _, [], _, longest => longest
  | i, s :: segments, current, longest =>
    if s = 0 then
      let current := (if current.2 = 0 then i else current.1, current.2 + 1)
      longestZeros (i + 1) segments current (if longest.2 < current.2 then current else longest)
    else longestZeros (i + 1) segments (0, 0) longest

def ipv6Text (segments : List (BitVec 16)) : Str :=
  match segments with
  | [0, 0, 0, 0, 0, 0xFFFF, high, low] =>
    "::ffff:".toList ++ ipv4Text ([high, low].flatMap fun s =>
      [BitVec.ofNat 8 (s.toNat / 256), BitVec.ofNat 8 s.toNat])
  | _ =>
    let (start, length) := longestZeros 0 segments (0, 0) (0, 0)
    if 1 < length then
      segmentsText (segments.take start) ++ "::".toList ++
        segmentsText (segments.drop (start + length))
    else segmentsText segments

/-- `IpAddr::to_string`. -/
def IpAddr.text : IpAddr → Str
  | .v4 octets => ipv4Text octets.toList
  | .v6 segments => ipv6Text segments.toList

/-! ## The request -/

/-- A request with the headers in the order they came, under lower-case names. -/
structure Request where
  method : Str
  /-- The address this server saw. -/
  peer : Option IpAddr
  pathAndQuery : Option Str
  headers : List (Str × List Byte)
  /-- Nothing when the body cannot be read to its end. -/
  body : Option (List Byte)

/-- Visible ASCII characters, blanks and tabs. -/
def isVisibleAscii (b : Byte) : Bool := 32 ≤ b.toNat && b.toNat < 127 || b.toNat = 9

/-- The first value of a header, if it is a text. -/
def Request.header (r : Request) (name : Str) : Option Str :=
  (r.headers.lookup name).bind fun value =>
    if value.all isVisibleAscii then some (Encoding.latin1Decode value) else none

/-- The characters that end a line, and the one that no value may have. -/
def splits (c : Char) : Bool := c = '\r' || c = '\n' || c = '\x00'

def crlf : Str := ['\r', '\n']

/-- One header line, or nothing if the value could split the request. -/
def line (name value : Str) : Str :=
  if value.any splits then [] else name ++ ": ".toList ++ value ++ crlf

/-- The peer as the target is told. -/
def Request.peerText (r : Request) : Str := (r.peer.map IpAddr.text).getD "unknown".toList

/-- The path and the query, which an authority lacks. -/
def Request.path (r : Request) : Str := r.pathAndQuery.getD []

/-- The head that goes out with `length` bytes of body. -/
def Request.head (r : Request) (length : ℕ) : Str :=
  ['P', 'O', 'S', 'T', ' '] ++ r.path ++ " HTTP/1.1".toList ++ crlf ++
  "Connection: close".toList ++ crlf ++
  "Content-Length: ".toList ++ Nat.toDigits 10 length ++ crlf ++
  line "Host".toList ((r.header "host".toList).getD []) ++
  (["origin".toList, "cookie".toList, "content-type".toList].flatMap fun name =>
    ((r.header name).map (line name)).getD []) ++
  line "X-Forwarded-For".toList r.peerText ++ crlf

/-- The body of a request that is to be forwarded, or the answer that refuses it. -/
def Request.accepted (r : Request) (allowed : Str → Bool) (maxBody : ℕ) :
    Except Response (List Byte) :=
  if r.method ≠ "POST".toList then .error (text 405 "Method not allowed")
  else if !allowed r.path || r.path.any fun c => c.toNat ≤ ' '.toNat || c.toNat = 0x7F then
    .error notFound
  else
    match r.body with
    | some body =>
      if body.length ≤ maxBody then .ok body else .error (text 413 "Request too large")
    | none => .error (text 413 "Request too large")

/-! ## The answer -/

/-- How the program was built. -/
inductive Build where
  | debug
  | release
deriving DecidableEq, Repr

/-- `a + b` on `usize`. -/
def Build.add : Build → ℕ → ℕ → Exec Empty ℕ
  | .debug, a, b => Exec.add a b
  | .release, a, b => .ok ((a + b) % wordSize)

def blankLine : List Byte := utf8Bytes (crlf ++ crlf)

/-- The length a line of the head declares. -/
def contentLength (l : Str) : Option ℕ :=
  (splitOnce ':' l).bind fun (name, value) =>
    if eqIgnoreAsciiCase (Text.trim name) "content-length".toList then
      Numerals.parseUnsigned wordSize (Text.trim value)
    else none

/-- Whether `raw` holds a whole answer: its head, and as much body as its Content-Length says.
One without a Content-Length is read to the close. -/
def isComplete (build : Build) (raw : List Byte) : Exec Empty Bool :=
  match Lines.cut blankLine raw with
  | none => .ok false
  | some (head, _) =>
    match Utf8.decode head with
    | none => .ok false
    | some head' =>
      match ((Lines.split '\r' '\n' head').drop 1).findSome? contentLength with
      | none => .ok false
      | some length => do
        let start ← build.add head.length 4
        let needed ← build.add start length
        return needed ≤ raw.length

/-- What is passed on of an answer. -/
structure Answer where
  status : ℕ
  headers : List (Str × Str)
  body : List Byte
deriving DecidableEq, Repr

/-- The status of a line `HTTP/1.x status reason` that is neither a redirect nor informational. -/
def parseStatus (statusLine : Str) : Option ℕ :=
  match statusLine.splitOn ' ' with
  | version :: status :: _ =>
    if "HTTP/1.".toList.isPrefixOf version then
      (Numerals.parseUnsigned (2 ^ 16) status).filter fun n =>
        100 ≤ n && n ≤ 999 && !(300 ≤ n && n ≤ 399) && !(100 ≤ n && n ≤ 199)
    else none
  | _ => none

/-- `HeaderValue::from_str`: no control character but the tab. -/
def validValue (value : Str) : Bool :=
  (utf8Bytes value).all fun b => 32 ≤ b.toNat && b.toNat ≠ 127 || b.toNat = 9

/-- Take one header line into account. -/
def Answer.take (a : Answer) (l : Str) : Option Answer :=
  match splitOnce ':' l with
  | none => some a
  | some (name, value) =>
    let name := asciiLower (Text.trim name)
    let value := Text.trim value
    if name ∈ ["content-type", "cache-control", "set-cookie"].map String.toList then
      if validValue value then some { a with headers := a.headers ++ [(name, value)] } else none
    else if name = "content-length".toList then do
      let length ← Numerals.parseUnsigned wordSize value
      if a.body.length < length then none else some { a with body := a.body.take length }
    else if name = "transfer-encoding".toList then none
    else some a

/-- An HTTP/1.x answer with a Content-Length, or read to the close, reduced to the headers a
page needs.  Redirects are not passed on. -/
def parseResponse (raw : List Byte) : Option Answer := do
  let (head, body) ← Lines.cut blankLine raw
  let head ← Utf8.decode head
  let lines := Lines.split '\r' '\n' head
  let status ← parseStatus (lines.headD [])
  let a ← (lines.drop 1).foldlM Answer.take ⟨status, [], body⟩
  return { a with headers := a.headers ++ [("x-content-type-options".toList, "nosniff".toList)] }

/-! ## The exchange -/

/-- What becomes of a connection that yields nothing more. -/
inductive Ending where
  | closed
  | broken
  /-- It stays open, and the time runs out. -/
  | silent
deriving DecidableEq, Repr

/-- What the service does. -/
structure Target where
  connects : Bool
  /-- How much of the request it takes, if that is not all of it. -/
  takes : Option ℕ
  reads : List (List Byte)
  ending : Ending

inductive Failure where
  | io
  | timeout
  | tooLarge
deriving DecidableEq, Repr

/-- Read until the connection is closed or the answer is whole. -/
def readLoop (build : Build) (ending : Ending) : List (List Byte) → List Byte →
    Exec Failure (List Byte)
  | [], answer =>
    match ending with
    | .closed => .ok answer
    | .broken => fail .io
    | .silent => fail .timeout
  | chunk :: reads, answer =>
    if chunk = [] then .ok answer
    else
      let answer := answer ++ chunk
      if maxResponse < answer.length then fail .tooLarge
      -- The connection need not close once the Content-Length has arrived.
      else do
        if ← lift (isComplete build answer) then return answer
        else readLoop build ending reads answer

/-- The bytes that are written, and the answer. -/
def exchange (build : Build) (target : Target) (request : List Byte) :
    List Byte × Exec Failure (List Byte) :=
  if !target.connects then ([], fail .io)
  else
    match target.takes with
    | some n => (request.take n, fail .io)
    | none => (request, readLoop build target.ending target.reads [])

/-- The answer to the client: one of this server, or one that is passed on. -/
inductive Reply where
  | own (response : Response)
  | passed (answer : Answer)

/-- POST a request on to the target, if `allowed` takes its path, with at most `maxBody` bytes
of body.  `who` names the target in a 502. -/
def relay (build : Build) (r : Request) (target : Target) (allowed : Str → Bool) (maxBody : ℕ)
    (who : String) : List Byte × Exec Empty Reply :=
  match r.accepted allowed maxBody with
  | .error response => ([], .ok (.own response))
  | .ok body =>
    let (written, answer) := exchange build target (utf8Bytes (r.head body.length) ++ body)
    (written,
      match answer with
      | .ok answer =>
        match parseResponse answer with
        | some answer => .ok (.passed answer)
        | none => .ok (.own (text 502 (who ++ " gave an unreadable answer")))
      | .error (.err _) => .ok (.own (text 502 (who ++ " did not answer")))
      | .error .panic => crash
      | .error .hang => .error .hang)

/-- The app's own endpoints, when a prefix is set. -/
def forward (build : Build) (appProxy : Option (Prefix × Str)) (r : Request) (target : Target) :
    List Byte × Exec Empty Reply :=
  match appProxy with
  | none => ([], .ok (.own notFound))
  | some (start, _) => relay build r target (start.1.isPrefixOf ·) maxRequestBody "The app"

/-- Guild emblems, to and from the web server. -/
def forwardWebServer (build : Build) (webServerProxy : Option Str) (r : Request)
    (target : Target) : List Byte × Exec Empty Reply :=
  match webServerProxy with
  | none => ([], .ok (.own notFound))
  | some _ => relay build r target (· ∈ webServerRoutes) maxWebServerRequestBody "The web server"

end AppProxy
end RemoteClient
