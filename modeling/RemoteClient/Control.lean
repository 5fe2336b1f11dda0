/-
# The control socket

A parent process asks its server for its identity, or to shut down, over a loopback socket that
anyone on the machine may connect to.  A message is one line: an envelope with a payload and its
HMAC under the secret the two share.

What the socket does with a stream depends on the first line of the stream alone
(`readMessage_eq`), however the stream is cut into reads; and it does something only for a line
that was signed with the secret (`control_authenticated`).

JSON and the HMAC are parameters.
-/
import RemoteClient.Cache
import RemoteClient.Paths

namespace RemoteClient
namespace Control

/-! ## Messages -/

def maxMessage : ℕ := 16384

def newline : Byte := 10

/-- Who the server is. -/
structure Identity where
  protocol : BitVec 32
  service : Str
  version : Str
  pid : BitVec 32
  launchId : Str
  stateRoot : Str
  executable : Str
  executableDigest : Str
  configFingerprint : Str
  controlPort : BitVec 16
  httpPort : BitVec 16
deriving DecidableEq, Repr

structure Envelope where
  payload : Str
  mac : Str
deriving DecidableEq, Repr

structure Request where
  launchId : Str
  challenge : Str
  action : Str
deriving DecidableEq, Repr

/-- What other libraries do. -/
structure Codec where
  envelopeFromSlice : List Byte → Option Envelope
  envelopeToVec : Envelope → List Byte
  requestFromStr : Str → Option Request
  /-- JSON of an object with an identity, a challenge and an action. -/
  payload : Identity → (challenge action : Str) → Str
  hmacSha256 : (secret message : List Byte) → List Byte

/-! ## Signatures -/

def hex (bytes : List Byte) : Str := bytes.flatMap hexByte

/-- The value of a character as a hex digit. -/
def hexCharValue (ch : Char) : Option ℕ :=
  if ch.toNat < 128 then hexValue (BitVec.ofNat 8 ch.toNat) else none

/-- `u8::from_str_radix` of two characters, of which the first may be a plus sign. -/
def fromStrRadix (high low : Char) : Option Byte :=
  match if high = '+' then some 0 else hexCharValue high, hexCharValue low with
  | some high, some low => some (BitVec.ofNat 8 (high * 16 + low))
  | _, _ => none

def unhexPairs : Str → Option (List Byte)
  | high :: low :: rest =>
    match fromStrRadix high low, unhexPairs rest with
    | some b, some bytes => some (b :: bytes)
    | _, _ => none
  -- of an odd length no pairs are taken
  | _ => some []

def unhex (value : Str) : Option (List Byte) :=
  if (utf8Bytes value).length % 2 ≠ 0 ∨ ¬value.all fun ch => ch.toNat < 128 then none
  else unhexPairs value

def validNonce (value : Str) : Bool :=
  (utf8Bytes value).length = 64 && (utf8Bytes value).all fun b => (hexValue b).isSome

variable (codec : Codec) (secret : List Byte) (identity : Identity)

def sign (payload : Str) : Envelope :=
  ⟨payload, hex (codec.hmacSha256 secret (utf8Bytes payload))⟩

def verify (envelope : Envelope) : Bool :=
  match unhex envelope.mac with
  | none => false
  | some signature => codec.hmacSha256 secret (utf8Bytes envelope.payload) = signature

/-! ## The socket -/

/-- What one read returns, while the peer has not closed. -/
abbrev Chunk : Type := {bytes : List Byte // bytes ≠ []}

/-- The bytes of all reads. -/
def stream (chunks : List Chunk) : List Byte := (chunks.map Subtype.val).flatten

/-- Collect reads up to the first newline.  The number of bytes is bounded even when the peer
never sends one. -/
def readMessage (bytes : List Byte) : List Chunk → Option (List Byte)
  -- the peer has closed, a read failed or the time is up
  | [] => none
  | chunk :: chunks =>
    let stop := (chunk.val.findIdx? fun b => b = newline).map (· + 1)
    let n := stop.getD chunk.val.length
    if maxMessage < bytes.length + n then none
    else
      let bytes := bytes ++ chunk.val.take n
      if stop.isSome then some bytes else readMessage bytes chunks

/-- What the socket does that others see. -/
inductive Event where
  | sent (b : Byte)
  | closed
  /-- The shutdown flag is raised. -/
  | raised
deriving DecidableEq, Repr

/-- What is done about a request. -/
def answer (request : Request) : List Event :=
  if request.launchId ≠ identity.launchId ∨ ¬validNonce request.challenge ∨
      request.action ∉ ["status".toList, "shutdown".toList] then []
  else
    let payload := codec.payload identity request.challenge request.action
    let reply := codec.envelopeToVec (sign codec secret payload) ++ [newline]
    reply.map .sent ++ [.closed] ++
      if request.action = "shutdown".toList then [.raised] else []

/-- What a connection does when nothing stops it: a write that fails and the end of its time do,
so what it really does is the beginning of this. -/
def control (chunks : List Chunk) : List Event :=
  match readMessage [] chunks with
  | none => []
  | some bytes =>
    match codec.envelopeFromSlice bytes with
    | none => []
    | some envelope =>
      if !verify codec secret envelope then []
      else
        match codec.requestFromStr envelope.payload with
        | none => []
        | some request => answer codec secret identity request

/-! ## The first line -/

/-- The first line of some bytes with its newline, unless it is too long. -/
def firstLine (bytes : List Byte) : Option (List Byte) :=
  match bytes.findIdx? fun b => b = newline with
  | none => none
  | some i => if maxMessage < i + 1 then none else some (bytes.take (i + 1))

lemma findIdx?_newline_none {bytes : List Byte} (h : newline ∉ bytes) :
    (bytes.findIdx? fun b => b = newline) = none := by
  rw [List.findIdx?_eq_none_iff]
  exact fun b hb => decide_eq_false fun heq => h (heq ▸ hb)

/-- **The reads are collected to the first line of the stream**, wherever they were cut. -/
lemma readMessage_eq {bytes : List Byte} (hbytes : newline ∉ bytes) (chunks : List Chunk) :
    readMessage bytes chunks = firstLine (bytes ++ stream chunks) := by
  induction chunks generalizing bytes with
  | nil =>
    rw [stream, List.map_nil, List.flatten_nil, List.append_nil, firstLine,
      findIdx?_newline_none hbytes]
    rfl
  | cons chunk chunks ih =>
    have hstream : bytes ++ stream (chunk :: chunks) = bytes ++ chunk.val ++ stream chunks :=
      (List.append_assoc ..).symm
    rw [readMessage, hstream]
    cases hstop : chunk.val.findIdx? fun b => b = newline with
    | some i =>
      -- The newline is in this read, which is cut behind it.
      have hi : i < chunk.val.length := (List.findIdx?_eq_some_iff_getElem.mp hstop).1
      have hfind : ((bytes ++ chunk.val ++ stream chunks).findIdx? fun b => b = newline) =
          some (i + bytes.length) := by
        rw [List.append_assoc, List.findIdx?_append, findIdx?_newline_none hbytes,
          List.findIdx?_append, hstop]
        rfl
      have htake : (bytes ++ chunk.val ++ stream chunks).take (i + bytes.length + 1) =
          bytes ++ chunk.val.take (i + 1) := by
        rw [List.append_assoc, List.take_append, List.take_of_length_le (by omega),
          List.take_append_of_le_length (by omega)]
        congr 2
        omega
      rw [firstLine, hfind]
      change (if maxMessage < bytes.length + (i + 1) then none else some _) =
        (if maxMessage < i + bytes.length + 1 then none else some _)
      rw [htake, show bytes.length + (i + 1) = i + bytes.length + 1 by omega]
      rfl
    | none =>
      have hboth : newline ∉ bytes ++ chunk.val := by
        intro hmem
        rcases List.mem_append.mp hmem with hmem | hmem
        · exact hbytes hmem
        · exact absurd (List.findIdx?_eq_none_iff.mp hstop _ hmem) (by simp)
      change (if maxMessage < bytes.length + chunk.val.length then none
        else readMessage (bytes ++ chunk.val.take chunk.val.length) chunks) = _
      split
      · next hlong =>
        -- What follows is behind more bytes than a message may have.
        rw [firstLine, List.findIdx?_append, findIdx?_newline_none hboth]
        cases (stream chunks).findIdx? fun b => b = newline with
        | none => rfl
        | some i =>
          refine (if_pos ?_).symm
          change maxMessage < i + (bytes ++ chunk.val).length + 1
          rw [List.length_append]
          omega
      · rw [List.take_length]
        exact ih hboth

/-- What the first line is. -/
lemma firstLine_spec {bytes message : List Byte} (h : firstLine bytes = some message) :
    ∃ line rest, message = line ++ [newline] ∧ newline ∉ line ∧ bytes = message ++ rest ∧
      message.length ≤ maxMessage := by
  unfold firstLine at h
  split at h
  · exact absurd h (by simp)
  · next i hfind =>
    obtain ⟨hi, hnewline, hbefore⟩ := List.findIdx?_eq_some_iff_getElem.mp hfind
    split at h
    · exact absurd h (by simp)
    · next hlen =>
      obtain rfl := Option.some.inj h
      refine ⟨bytes.take i, bytes.drop (i + 1), ?_, fun hmem => ?_,
        (List.take_append_drop _ _).symm, by rw [List.length_take]; omega⟩
      · rw [List.take_succ_eq_append_getElem hi, of_decide_eq_true hnewline]
      · obtain ⟨j, hj, heq⟩ := List.mem_take_iff_getElem.mp hmem
        exact hbefore j (by omega) (decide_eq_true heq)

/-! ## What the socket answers -/

section

variable {codec : Codec} {secret : List Byte} {identity : Identity}

lemma verify_spec {envelope : Envelope} (h : verify codec secret envelope = true) :
    unhex envelope.mac = some (codec.hmacSha256 secret (utf8Bytes envelope.payload)) := by
  unfold verify at h
  split at h
  · exact absurd h (by simp)
  · next signature hmac => rw [hmac, of_decide_eq_true h]

lemma validNonce_spec {value : Str} (h : validNonce value = true) :
    (utf8Bytes value).length = 64 ∧ ∀ b ∈ utf8Bytes value, (hexValue b).isSome = true := by
  unfold validNonce at h
  rw [Bool.and_eq_true, List.all_eq_true] at h
  exact ⟨of_decide_eq_true h.1, h.2⟩

/-- A request that may be answered: it is for this server, with a challenge to repeat. -/
structure Acceptable (identity : Identity) (request : Request) : Prop where
  launchId : request.launchId = identity.launchId
  challenge_length : (utf8Bytes request.challenge).length = 64
  challenge_hex : ∀ b ∈ utf8Bytes request.challenge, (hexValue b).isSome = true
  action : request.action = "status".toList ∨ request.action = "shutdown".toList

/-- The signed reply to a request. -/
def reply (codec : Codec) (secret : List Byte) (identity : Identity) (request : Request) :
    List Byte :=
  codec.envelopeToVec
    (sign codec secret (codec.payload identity request.challenge request.action)) ++ [newline]

/-- The bytes that were sent. -/
def sentBytes (events : List Event) : List Byte :=
  events.filterMap fun event => match event with
    | .sent b => some b
    | _ => none

lemma sentBytes_answer (bytes : List Byte) (last : List Event) (hlast : last = [.raised] ∨ last = []) :
    sentBytes (bytes.map .sent ++ [.closed] ++ last) = bytes := by
  unfold sentBytes
  rw [List.filterMap_append, List.filterMap_append, List.filterMap_map]
  rcases hlast with rfl | rfl <;> simp

lemma answer_spec {request : Request} {events : List Event}
    (h : events <+: answer codec secret identity request) (hne : events ≠ []) :
    Acceptable identity request ∧
      sentBytes events <+: reply codec secret identity request ∧
      (.raised ∈ events → request.action = "shutdown".toList) := by
  unfold answer at h
  split at h
  · exact absurd (List.prefix_nil.mp h) hne
  · next hrefused =>
    obtain ⟨hlaunch, hnonce, haction⟩ : request.launchId = identity.launchId ∧
        validNonce request.challenge = true ∧
        request.action ∈ ["status".toList, "shutdown".toList] := by
      simpa only [not_or, not_not] using hrefused
    obtain ⟨hlength, hhex⟩ := validNonce_spec hnonce
    have h : events <+: (reply codec secret identity request).map .sent ++ [.closed] ++
        if request.action = "shutdown".toList then [.raised] else [] := h
    refine ⟨⟨hlaunch, hlength, hhex, by simpa using haction⟩, ?_, fun hraised => ?_⟩
    · have hsent : sentBytes events <+: sentBytes _ := h.filterMap _
      rwa [sentBytes_answer _ _ (by split <;> simp)] at hsent
    · by_contra hstatus
      have hmem := h.subset hraised
      rw [if_neg hstatus] at hmem
      simp at hmem

/-- What a connection does depends on the first line of the stream. -/
lemma control_eq (chunks : List Chunk) :
    control codec secret identity chunks =
      match firstLine (stream chunks) with
      | none => []
      | some bytes =>
        match codec.envelopeFromSlice bytes with
        | none => []
        | some envelope =>
          if !verify codec secret envelope then []
          else
            match codec.requestFromStr envelope.payload with
            | none => []
            | some request => answer codec secret identity request := by
  unfold control
  rw [readMessage_eq (by simp), List.nil_append]

end

/-- **Only an authenticated message acts on the control socket.**  If a connection does
anything, then the first line of its stream is short enough, holds an envelope that was signed
with the secret, and asks this server for a status or a shutdown; what is sent is the signed
reply to that, or its beginning, and the flag is raised only for a shutdown.  And a connection
does the same for all ways to cut its stream. -/
theorem control_authenticated (codec : Codec) (secret : List Byte) (identity : Identity) :
    (∀ (chunks : List Chunk) (events : List Event),
      events <+: control codec secret identity chunks → events ≠ [] →
      ∃ line rest envelope request,
        newline ∉ line ∧ stream chunks = line ++ [newline] ++ rest ∧
        (line ++ [newline]).length ≤ maxMessage ∧
        codec.envelopeFromSlice (line ++ [newline]) = some envelope ∧
        unhex envelope.mac = some (codec.hmacSha256 secret (utf8Bytes envelope.payload)) ∧
        codec.requestFromStr envelope.payload = some request ∧
        Acceptable identity request ∧
        sentBytes events <+: reply codec secret identity request ∧
        (.raised ∈ events → request.action = "shutdown".toList)) ∧
    ∀ chunks chunks' : List Chunk, stream chunks = stream chunks' →
      control codec secret identity chunks = control codec secret identity chunks' := by
  refine ⟨fun chunks events h hne => ?_, fun chunks chunks' heq => ?_⟩
  -- A gate that closes leaves no event at all, against `hne`.
  · have hnothing : ¬events <+: [] := fun h => hne (List.prefix_nil.mp h)
    rw [control_eq] at h
    split at h
    · exact absurd h hnothing
    · next message hline =>
      obtain ⟨line, rest, rfl, hnewline, hstream, hlength⟩ := firstLine_spec hline
      split at h
      · exact absurd h hnothing
      · next envelope henvelope =>
        split at h
        · exact absurd h hnothing
        · next hverify =>
          rw [Bool.not_eq_true', Bool.not_eq_false] at hverify
          split at h
          · exact absurd h hnothing
          · next request hrequest =>
            obtain ⟨hacceptable, hsent, hraised⟩ := answer_spec h hne
            exact ⟨line, rest, envelope, request, hnewline, hstream, hlength, henvelope,
              verify_spec hverify, hrequest, hacceptable, hsent, hraised⟩
  · rw [control_eq, control_eq, heq]

/-! ## A sample -/

def sampleIdentity : Identity where
  protocol := 1
  service := "robrowser-remoteclient".toList
  version := "1.0.0".toList
  pid := 1
  launchId := List.replicate 64 'a'
  stateRoot := ['/']
  executable := "/server".toList
  executableDigest := []
  configFingerprint := []
  controlPort := 4000
  httpPort := 3338

def sampleRequest : Request where
  launchId := sampleIdentity.launchId
  challenge := List.replicate 64 '0'
  action := "shutdown".toList

/-- Libraries that know one message, with a digest of one byte. -/
def sampleCodec : Codec where
  envelopeFromSlice := fun bytes =>
    if bytes = utf8Bytes "payload 2a\n".toList then some ⟨"payload".toList, "2a".toList⟩ else none
  envelopeToVec := fun envelope => utf8Bytes (envelope.payload ++ ' ' :: envelope.mac)
  requestFromStr := fun payload => if payload = "payload".toList then some sampleRequest else none
  payload := fun _ challenge action => challenge ++ action
  hmacSha256 := fun _ _ => [0x2a]

/-- The message in two reads, of which the second one goes on behind it. -/
def sampleReads : List Chunk :=
  [⟨utf8Bytes "payload".toList, by decide⟩, ⟨utf8Bytes " 2a\nmore".toList, by decide⟩]

/-- The server shuts down. -/
theorem control_authenticated_sample : ∃ request, Acceptable sampleIdentity request ∧
    request.action = "shutdown".toList := by
  have hraised : Event.raised ∈ control sampleCodec [] sampleIdentity sampleReads := by decide
  obtain ⟨_, _, _, request, -, -, -, -, -, -, hacceptable, -, hshutdown⟩ :=
    (control_authenticated sampleCodec [] sampleIdentity).1 sampleReads _ (List.prefix_refl _)
      (List.ne_nil_of_mem hraised)
  exact ⟨request, hacceptable, hshutdown hraised⟩

end Control
end RemoteClient
