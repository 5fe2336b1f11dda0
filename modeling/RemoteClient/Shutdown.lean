/-
# A peer that goes away

`control` is what a connection does when nothing stops it.  Here the peer may close or reset the
connection at any point: `connection` takes what each read and each write of the socket returns,
and says how the source's function ends as well as what it did until then, which is the beginning
of `control` (`connection_prefix`).

The shutdown flag is raised behind the reply, so a peer that asks for a shutdown and resets the
connection while it is answered stops nothing: `Breaks` are the peers that do so, and exactly
these (`shutdown_takes_effect_iff`).
-/
import RemoteClient.Control

namespace RemoteClient
namespace Control

/-! ## The socket's answers -/

/-- How the source's function ends: it returns, or it waits until its time is up. -/
inductive Outcome where
  | ok
  | err
  | pending
deriving DecidableEq, Repr

/-- What one write returns. -/
inductive Write where
  | took (n : ℕ)
  | failed
deriving DecidableEq, Repr

/-- The number of bytes the write takes. -/
def Write.taken : Write → ℕ
  | .took n => n
  | .failed => 0

/-- All that a peer does to a connection. -/
structure Peer where
  /-- What the reads return while the peer sends. -/
  chunks : List Chunk
  /-- What the read behind them does: there is nothing more, it fails, or it waits. -/
  lastRead : Outcome
  /-- What the writes return, until they wait. -/
  writes : List Write
  /-- Whether the write side can be closed, unless that waits. -/
  shutdown : Option Bool

/-- `readMessage` with the reason why there is no message. -/
def receive (lastRead : Outcome) (bytes : List Byte) : List Chunk → Except Outcome (List Byte)
  | [] => .error lastRead
  | chunk :: chunks =>
    let stop := (chunk.val.findIdx? fun b => b = newline).map (· + 1)
    let n := stop.getD chunk.val.length
    if maxMessage < bytes.length + n then .error .ok
    else
      let bytes := bytes ++ chunk.val.take n
      if stop.isSome then .ok bytes else receive lastRead bytes chunks

/-- Write until all is taken.  A write that takes nothing is an error. -/
def writeAll : List Byte → List Write → Outcome × List Byte
  | [], _ => (.ok, [])
  | _ :: _, [] => (.pending, [])
  | _ :: _, .failed :: _ => (.err, [])
  | b :: bytes, .took n :: writes =>
    if n = 0 then (.err, [])
    else
      let rest := writeAll ((b :: bytes).drop n) writes
      (rest.1, (b :: bytes).take n ++ rest.2)

variable (codec : Codec) (secret : List Byte) (identity : Identity)

/-- Answer a request. -/
def respond (peer : Peer) (request : Request) : Outcome × List Event :=
  if request.launchId ≠ identity.launchId ∨ ¬validNonce request.challenge ∨
      request.action ∉ ["status".toList, "shutdown".toList] then (.ok, [])
  else
    let payload := codec.payload identity request.challenge request.action
    let reply := codec.envelopeToVec (sign codec secret payload) ++ [newline]
    let (outcome, sent) := writeAll reply peer.writes
    -- an error of the write or of the close is returned at once
    if outcome ≠ .ok then (outcome, sent.map .sent)
    else
      match peer.shutdown with
      | none => (.pending, sent.map .sent)
      | some false => (.err, sent.map .sent)
      | some true => (.ok, sent.map .sent ++ [.closed] ++
          if request.action = "shutdown".toList then [.raised] else [])

/-- A connection with that peer. -/
def connection (peer : Peer) : Outcome × List Event :=
  match receive peer.lastRead [] peer.chunks with
  | .error outcome => (outcome, [])
  | .ok bytes =>
    match codec.envelopeFromSlice bytes with
    | none => (.ok, [])
    | some envelope =>
      if !verify codec secret envelope then (.ok, [])
      else
        match codec.requestFromStr envelope.payload with
        | none => (.ok, [])
        | some request => respond codec secret identity peer request

/-! ## Reads and writes -/

lemma receive_toOption (lastRead : Outcome) (bytes : List Byte) (chunks : List Chunk) :
    (receive lastRead bytes chunks).toOption = readMessage bytes chunks := by
  induction chunks generalizing bytes with
  | nil => rfl
  | cons chunk chunks ih =>
    rw [receive, readMessage]
    dsimp only
    split
    · rfl
    · split
      · rfl
      · exact ih _

/-- A message is the first line of the stream. -/
lemma receive_eq_ok {lastRead : Outcome} {chunks : List Chunk} {bytes : List Byte} :
    receive lastRead [] chunks = .ok bytes ↔ firstLine (stream chunks) = some bytes := by
  have hread : (receive lastRead [] chunks).toOption = firstLine (stream chunks) := by
    rw [receive_toOption, readMessage_eq (by simp), List.nil_append]
  rw [← hread]
  cases receive lastRead [] chunks with
  | error outcome => simp [Except.toOption]
  | ok message => simp [Except.toOption]

/-- Bytes are sent in order, and all of them when the writes succeed. -/
lemma writeAll_sent (bytes : List Byte) (writes : List Write) :
    (writeAll bytes writes).2 <+: bytes ∧
      ((writeAll bytes writes).1 = .ok → (writeAll bytes writes).2 = bytes) := by
  induction writes generalizing bytes with
  | nil =>
    cases bytes with
    | nil => exact ⟨List.prefix_rfl, fun _ => rfl⟩
    | cons b bytes => exact ⟨List.nil_prefix, nofun⟩
  | cons w writes ih =>
    cases bytes with
    | nil => exact ⟨List.prefix_rfl, fun _ => rfl⟩
    | cons b bytes =>
      cases w with
      | failed => exact ⟨List.nil_prefix, nofun⟩
      | took n =>
        rw [writeAll]
        split
        · exact ⟨List.nil_prefix, nofun⟩
        · obtain ⟨hbegin, hall⟩ := ih ((b :: bytes).drop n)
          constructor
          · conv_rhs => rw [← List.take_append_drop n (b :: bytes)]
            exact (List.prefix_append_right_inj _).mpr hbegin
          · intro hok
            change _ ++ (writeAll ((b :: bytes).drop n) writes).2 = _
            rw [hall hok, List.take_append_drop]

/-- The bytes that some writes take. -/
def taken (writes : List Write) : ℕ := (writes.map Write.taken).sum

lemma taken_cons (w : Write) (writes : List Write) : taken (w :: writes) = w.taken + taken writes :=
  List.sum_cons

/-- Writes that all take something. -/
def Progress (writes : List Write) : Prop := ∀ w ∈ writes, 0 < w.taken

lemma progress_nil : Progress [] := List.forall_mem_nil _

lemma progress_cons {w : Write} {writes : List Write} :
    Progress (w :: writes) ↔ 0 < w.taken ∧ Progress writes :=
  List.forall_mem_cons

lemma writeAll_stop {bytes : List Byte} (hbytes : bytes ≠ []) {w : Write} (hw : w.taken = 0)
    (writes : List Write) : (writeAll bytes (w :: writes)).1 = .err := by
  obtain ⟨b, bytes, rfl⟩ := List.exists_cons_of_ne_nil hbytes
  cases w with
  | failed => rfl
  | took n =>
    rw [writeAll, if_pos]
    exact hw

lemma writeAll_step {bytes : List Byte} (hbytes : bytes ≠ []) {w : Write} (hw : 0 < w.taken)
    (writes : List Write) :
    (writeAll bytes (w :: writes)).1 = (writeAll (bytes.drop w.taken) writes).1 := by
  obtain ⟨b, bytes, rfl⟩ := List.exists_cons_of_ne_nil hbytes
  cases w with
  | failed => exact absurd hw (Nat.lt_irrefl 0)
  | took n =>
    rw [writeAll, if_neg (show n ≠ 0 from Nat.ne_of_gt hw)]
    rfl

/-- The writes run into an error exactly when one of them takes nothing before all is taken. -/
lemma writeAll_err_iff (bytes : List Byte) (writes : List Write) :
    (writeAll bytes writes).1 = .err ↔ ∃ before w after, writes = before ++ w :: after ∧
      Progress before ∧ taken before < bytes.length ∧ w.taken = 0 := by
  induction writes generalizing bytes with
  | nil =>
    constructor
    · intro herr
      cases bytes <;> exact absurd herr (by simp [writeAll])
    · rintro ⟨before, w, after, heq, -⟩
      exact absurd heq (by simp)
  | cons w writes ih =>
    by_cases hbytes : bytes = []
    · rw [hbytes]
      constructor
      · intro herr
        exact absurd herr (by simp [writeAll])
      · rintro ⟨before, _, _, -, -, hlen, -⟩
        exact absurd hlen (Nat.not_lt_zero _)
    have hlen : 0 < bytes.length := List.length_pos_iff.mpr hbytes
    rcases Nat.eq_zero_or_pos w.taken with hw | hw
    · exact iff_of_true (writeAll_stop hbytes hw writes)
        ⟨[], w, writes, rfl, progress_nil, hlen, hw⟩
    rw [writeAll_step hbytes hw, ih]
    constructor
    · rintro ⟨before, v, after, rfl, hbefore, hlt, hv⟩
      rw [List.length_drop] at hlt
      refine ⟨w :: before, v, after, rfl, progress_cons.mpr ⟨hw, hbefore⟩, ?_, hv⟩
      rw [taken_cons]
      omega
    · rintro ⟨before, v, after, heq, hbefore, hlt, hv⟩
      cases before with
      | nil =>
        -- The write that takes nothing would be `w`.
        obtain ⟨rfl, -⟩ := List.cons.inj heq
        omega
      | cons u before =>
        obtain ⟨rfl, rfl⟩ := List.cons.inj heq
        rw [taken_cons] at hlt
        refine ⟨before, v, after, rfl, (progress_cons.mp hbefore).2, ?_, hv⟩
        rw [List.length_drop]
        omega

/-- And they succeed exactly when all is taken before that. -/
lemma writeAll_ok_iff (bytes : List Byte) (writes : List Write) :
    (writeAll bytes writes).1 = .ok ↔ ∃ before after, writes = before ++ after ∧
      Progress before ∧ bytes.length ≤ taken before := by
  induction writes generalizing bytes with
  | nil =>
    constructor
    · intro hok
      cases bytes with
      | nil => exact ⟨[], [], rfl, progress_nil, Nat.le_refl _⟩
      | cons b bytes => exact absurd hok (by simp [writeAll])
    · rintro ⟨before, after, heq, -, hle⟩
      obtain ⟨rfl, rfl⟩ := List.append_eq_nil_iff.mp heq.symm
      obtain rfl := List.eq_nil_of_length_eq_zero (Nat.le_zero.mp hle)
      rfl
  | cons w writes ih =>
    by_cases hbytes : bytes = []
    · rw [hbytes]
      exact iff_of_true rfl ⟨[], w :: writes, rfl, progress_nil, Nat.zero_le _⟩
    have hlen : 0 < bytes.length := List.length_pos_iff.mpr hbytes
    -- Nothing is left to be taken before `w`, so it is one of the writes that take something.
    have hsplit : (∃ before after, w :: writes = before ++ after ∧ Progress before ∧
        bytes.length ≤ taken before) ↔ 0 < w.taken ∧ ∃ before after, writes = before ++ after ∧
        Progress before ∧ bytes.length ≤ w.taken + taken before := by
      constructor
      · rintro ⟨before, after, heq, hbefore, hle⟩
        cases before with
        | nil => exact absurd hle (Nat.not_le.mpr hlen)
        | cons u before =>
          obtain ⟨rfl, hwrites⟩ := List.cons.inj heq
          obtain ⟨hw, hbefore⟩ := progress_cons.mp hbefore
          exact ⟨hw, before, after, hwrites, hbefore, by rwa [taken_cons] at hle⟩
      · rintro ⟨hw, before, after, rfl, hbefore, hle⟩
        exact ⟨w :: before, after, rfl, progress_cons.mpr ⟨hw, hbefore⟩, by rwa [taken_cons]⟩
    rw [hsplit]
    rcases Nat.eq_zero_or_pos w.taken with hw | hw
    · rw [writeAll_stop hbytes hw]
      simp [hw]
    · rw [writeAll_step hbytes hw, ih, List.length_drop]
      simp only [Nat.sub_le_iff_le_add', hw, true_and]

/-! ## What a connection does -/

section

variable {codec : Codec} {secret : List Byte} {identity : Identity} {peer : Peer}

/-- How a request is answered that may be. -/
lemma respond_eq {request : Request} (hlaunch : request.launchId = identity.launchId)
    (hnonce : validNonce request.challenge = true)
    (haction : request.action ∈ ["status".toList, "shutdown".toList]) :
    respond codec secret identity peer request =
      let written := writeAll (reply codec secret identity request) peer.writes
      if written.1 ≠ .ok then (written.1, written.2.map .sent)
      else
        match peer.shutdown with
        | none => (.pending, written.2.map .sent)
        | some false => (.err, written.2.map .sent)
        | some true => (.ok, written.2.map .sent ++ [.closed] ++
            if request.action = "shutdown".toList then [.raised] else []) := by
  rw [respond, if_neg]
  · rfl
  · simp only [not_or, not_not]
    exact ⟨hlaunch, hnonce, haction⟩

/-- However a connection ends, it has done the beginning of what it does undisturbed. -/
lemma respond_prefix (request : Request) :
    (respond codec secret identity peer request).2 <+: answer codec secret identity request := by
  by_cases hrefused : request.launchId ≠ identity.launchId ∨ ¬validNonce request.challenge ∨
      request.action ∉ ["status".toList, "shutdown".toList]
  · rw [respond, if_pos hrefused]
    exact List.nil_prefix
  · rw [answer, if_neg hrefused]
    simp only [not_or, not_not] at hrefused
    obtain ⟨hlaunch, hnonce, haction⟩ := hrefused
    rw [respond_eq hlaunch hnonce haction, List.append_assoc]
    obtain ⟨hbegin, hall⟩ := writeAll_sent (reply codec secret identity request) peer.writes
    have hsent : (writeAll (reply codec secret identity request) peer.writes).2.map Event.sent <+:
        (reply codec secret identity request).map .sent ++
          ([.closed] ++ if request.action = "shutdown".toList then [.raised] else []) :=
      (hbegin.map _).trans (List.prefix_append _ _)
    dsimp only
    split
    · exact hsent
    · next hok =>
      split
      · exact hsent
      · exact hsent
      · rw [hall (not_not.mp hok), List.append_assoc]
        exact List.prefix_rfl

lemma connection_prefix (peer : Peer) :
    (connection codec secret identity peer).2 <+: control codec secret identity peer.chunks := by
  rw [connection, control, ← receive_toOption peer.lastRead]
  cases receive peer.lastRead [] peer.chunks with
  | error outcome => exact List.nil_prefix
  | ok bytes =>
    dsimp only [Except.toOption]
    cases codec.envelopeFromSlice bytes with
    | none => exact List.nil_prefix
    | some envelope =>
      dsimp only
      split
      · exact List.nil_prefix
      · cases codec.requestFromStr envelope.payload with
        | none => exact List.nil_prefix
        | some request => exact respond_prefix request

/-- What the connection does with a request that was signed with the secret. -/
lemma connection_eq {bytes : List Byte} {envelope : Envelope} {request : Request}
    (hline : firstLine (stream peer.chunks) = some bytes)
    (henvelope : codec.envelopeFromSlice bytes = some envelope)
    (hverify : verify codec secret envelope = true)
    (hrequest : codec.requestFromStr envelope.payload = some request) :
    connection codec secret identity peer = respond codec secret identity peer request := by
  rw [connection, receive_eq_ok.mpr hline]
  dsimp only
  rw [henvelope]
  dsimp only
  rw [if_neg (by simp [hverify]), hrequest]

/-- A reset before the whole reply is taken, or a failure to close behind it. -/
def Peer.Breaks (peer : Peer) (size : ℕ) : Prop :=
  (∃ before w after, peer.writes = before ++ w :: after ∧ Progress before ∧
    taken before < size ∧ w.taken = 0) ∨
  (∃ before after, peer.writes = before ++ after ∧ Progress before ∧ size ≤ taken before) ∧
    peer.shutdown = some false

lemma breaks_iff (bytes : List Byte) : peer.Breaks bytes.length ↔
    (writeAll bytes peer.writes).1 = .err ∨
      (writeAll bytes peer.writes).1 = .ok ∧ peer.shutdown = some false := by
  rw [Peer.Breaks, writeAll_err_iff, writeAll_ok_iff]

/-- A shutdown that is answered ends in an error when the peer breaks, and the flag is raised
when it ends well. -/
lemma respond_shutdown {request : Request} (hlaunch : request.launchId = identity.launchId)
    (hnonce : validNonce request.challenge = true) (haction : request.action = "shutdown".toList) :
    ((respond codec secret identity peer request).1 = .err ↔
      peer.Breaks (reply codec secret identity request).length) ∧
    (.raised ∈ (respond codec secret identity peer request).2 ↔
      (respond codec secret identity peer request).1 = .ok) := by
  have hknown : request.action ∈ ["status".toList, "shutdown".toList] := by simp [haction]
  rw [breaks_iff, respond_eq hlaunch hnonce hknown, if_pos haction]
  dsimp only
  cases hwritten : (writeAll (reply codec secret identity request) peer.writes).1 with
  | err => simp
  | pending => simp
  | ok =>
    cases hshutdown : peer.shutdown with
    | none => simp
    | some closed => cases closed <;> simp

end

/-- **When a shutdown takes effect.**  However the peer of an accepted shutdown behaves, the
connection does not return before the flag is raised, if and only if the peer does not break. -/
theorem shutdown_takes_effect_iff {peer : Peer} {bytes : List Byte} {envelope : Envelope}
    {request : Request} (hline : firstLine (stream peer.chunks) = some bytes)
    (henvelope : codec.envelopeFromSlice bytes = some envelope)
    (hverify : verify codec secret envelope = true)
    (hrequest : codec.requestFromStr envelope.payload = some request)
    (hlaunch : request.launchId = identity.launchId)
    (hnonce : validNonce request.challenge = true)
    (haction : request.action = "shutdown".toList) :
    ((connection codec secret identity peer).1 ≠ .pending →
      .raised ∈ (connection codec secret identity peer).2) ↔
    ¬ peer.Breaks (reply codec secret identity request).length := by
  obtain ⟨hbreaks, hraised⟩ : (_ ↔ peer.Breaks (reply codec secret identity request).length) ∧ _ :=
    respond_shutdown hlaunch hnonce haction
  rw [connection_eq hline henvelope hverify hrequest, ← hbreaks, hraised]
  cases (respond codec secret identity peer request).1 <;> simp

/-- A request to shut down whose sender resets the connection at once. -/
def rudePeer : Peer where
  chunks := sampleReads
  lastRead := .err
  writes := [.failed]
  shutdown := none

/-- A request to shut down whose sender takes the reply in two writes. -/
def politePeer : Peer where
  chunks := sampleReads
  lastRead := .pending
  writes := [.took 10, .took 1000]
  shutdown := some true

def sampleLine : List Byte := utf8Bytes "payload 2a\n".toList

def sampleEnvelope : Envelope := ⟨"payload".toList, "2a".toList⟩

/-- **A shutdown that is lost.**  The request is accepted, the reply cannot be written, and the
server goes on. -/
theorem shutdown_lost :
    firstLine (stream rudePeer.chunks) = some sampleLine ∧
    sampleCodec.envelopeFromSlice sampleLine = some sampleEnvelope ∧
    verify sampleCodec [] sampleEnvelope = true ∧
    sampleCodec.requestFromStr sampleEnvelope.payload = some sampleRequest ∧
    sampleRequest.launchId = sampleIdentity.launchId ∧
    validNonce sampleRequest.challenge = true ∧
    sampleRequest.action = "shutdown".toList ∧
    connection sampleCodec [] sampleIdentity rudePeer = (.err, []) := by
  refine ⟨?_, ?_, ?_, rfl, rfl, ?_, rfl, ?_⟩ <;> decide +kernel

/-- One that takes effect. -/
theorem shutdown_takes_effect_sample :
    .raised ∈ (connection sampleCodec [] sampleIdentity politePeer).2 := by
  have hline : firstLine (stream politePeer.chunks) = some sampleLine := by decide +kernel
  have henvelope : sampleCodec.envelopeFromSlice sampleLine = some sampleEnvelope := by
    decide +kernel
  have hverify : verify sampleCodec [] sampleEnvelope = true := by decide +kernel
  have hrequest : sampleCodec.requestFromStr sampleEnvelope.payload = some sampleRequest := rfl
  have hnonce : validNonce sampleRequest.challenge = true := by decide +kernel
  have hends : (connection sampleCodec [] sampleIdentity politePeer).1 ≠ .pending := by
    decide +kernel
  refine (shutdown_takes_effect_iff sampleCodec [] sampleIdentity hline henvelope hverify
    hrequest rfl hnonce rfl).mpr ?_ hends
  rw [breaks_iff]
  decide +kernel

end Control
end RemoteClient
