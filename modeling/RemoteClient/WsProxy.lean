/-
# The WebSocket proxy

One task connects to a game server and forwards the client's frames to it.  Frames that
arrive before the connection is open wait in a queue of at most `maxPending`, which is then
flushed; after that each frame is written as it comes, while another branch of the task sends
the server's bytes back.  A chunk of these is in the sink of the client as soon as it is read:
the lock of the sink is free, and sending puts the chunk there before anything can wait.

`step` is the task between two things that happen to it.  `written_kept` says what the game
server gets: the frames that were kept, in order, up to the byte in transit.  A full queue
drops frames, and `overflow_drops_frame` shows the hole this leaves.
-/
import Mathlib.Data.List.TakeWhile
import RemoteClient.Encoding

namespace RemoteClient
namespace WsProxy

/-! ## The task -/

/-- A message of the client.  A text is its UTF-8 bytes. -/
inductive Message where
  | binary (data : List Byte)
  | text (data : List Byte)
  | ping
  | pong
  | close
deriving DecidableEq

/-- What is to be forwarded of a message. -/
def Message.payload : Message → Option (List Byte)
  | .binary data => some data
  | .text data => some data
  | .ping => none
  | .pong => none
  | .close => none

def maxPending : ℕ := 64

def tcpReadBuffer : ℕ := 16 * 1024

/-- Queue a frame, or drop it when the queue is full. -/
def pushPending (pending : List (List Byte)) (data : List Byte) : List (List Byte) :=
  if pending.length < maxPending then pending ++ [data] else pending

/-- Where the task is. -/
inductive Phase where
  /-- The connection is being opened. -/
  | connecting (pending : List (List Byte))
  /-- The queue is written: what is left of the current frame, and the other frames. -/
  | flushing (current : List Byte) (rest : List (List Byte))
  /-- Both directions are pumped: what is left of a frame on its way to the server, and a chunk
  of the server's bytes that is in the sink of the client and not yet flushed. -/
  | pumping (upstream downstream : Option (List Byte))
  | closed
deriving DecidableEq

/-- The task with what it has sent both ways. -/
structure State where
  phase : Phase
  written : List Byte
  toClient : List Message
deriving DecidableEq

/-- What can happen to the task. -/
inductive Event where
  /-- The client's stream yields a message. -/
  | message (m : Message)
  /-- The client's stream ends or fails. -/
  | clientGone
  | connected
  | refused
  /-- The server's socket takes `n` more bytes of the frame that is written. -/
  | took (n : ℕ)
  /-- `write_all` is done with a frame. -/
  | writeDone
  | writeFailed
  /-- The server's socket yields bytes. -/
  | received (data : List Byte)
  /-- The server's socket ends or fails. -/
  | serverGone
  /-- The chunk in the sink is flushed: it is a frame that the client gets. -/
  | sent
  /-- Flushing it fails. -/
  | sendFailed
deriving DecidableEq

/-- Go on with the next frame of the queue. -/
def flush : List (List Byte) → Phase
  | [] => .pumping none none
  | current :: rest => .flushing current rest

/-- A chunk that is in the sink goes out. -/
def State.drain (s : State) (chunk : Option (List Byte)) : State :=
  { s with toClient := s.toClient ++ chunk.toList.map .binary }

/-- The task ends with a Close frame. -/
def State.close (s : State) : State :=
  { s with phase := .closed, toClient := s.toClient ++ [.close] }

/-- One event, if it can happen where the task is. -/
def step (s : State) (event : Event) : Option State :=
  match s.phase, event with
  | .connecting pending, .message (.binary data) =>
    some { s with phase := .connecting (pushPending pending data) }
  | .connecting pending, .message (.text data) =>
    some { s with phase := .connecting (pushPending pending data) }
  -- A client that leaves before the connection is open gets no Close frame.
  | .connecting _, .message .close => some { s with phase := .closed }
  | .connecting _, .message _ => some s
  | .connecting _, .clientGone => some { s with phase := .closed }
  | .connecting pending, .connected => some { s with phase := flush pending }
  | .connecting _, .refused => some s.close
  | .flushing current rest, .took n =>
    if n ≤ current.length then
      some { s with
        phase := .flushing (current.drop n) rest
        written := s.written ++ current.take n }
    else none
  | .flushing [] rest, .writeDone => some { s with phase := flush rest }
  | .flushing _ _, .writeFailed => some s.close
  -- A frame is read only when the one before it is written, a chunk when the last one is sent.
  | .pumping none downstream, .message (.binary data) =>
    some { s with phase := .pumping (some data) downstream }
  | .pumping none downstream, .message (.text data) =>
    some { s with phase := .pumping (some data) downstream }
  -- A client that has closed or failed gets nothing more than a Close frame.
  | .pumping none _, .message .close => some s.close
  | .pumping none _, .message _ => some s
  | .pumping none _, .clientGone => some s.close
  | .pumping (some current) downstream, .took n =>
    if n ≤ current.length then
      some { s with
        phase := .pumping (some (current.drop n)) downstream
        written := s.written ++ current.take n }
    else none
  | .pumping (some []) downstream, .writeDone =>
    some { s with phase := .pumping none downstream }
  -- Closing flushes the sink before the Close frame.
  | .pumping (some _) downstream, .writeFailed => some (s.drain downstream).close
  | .pumping upstream none, .received data =>
    if data ≠ [] ∧ data.length ≤ tcpReadBuffer then
      some { s with phase := .pumping upstream (some data) }
    else none
  | .pumping _ none, .serverGone => some s.close
  | .pumping upstream (some data), .sent =>
    some { s with phase := .pumping upstream none, toClient := s.toClient ++ [.binary data] }
  | .pumping _ (some _), .sendFailed => some s.close
  | _, _ => none

/-- The digits of a number, which may have a plus sign. -/
def unsigned : Str → Str
  | '+' :: digits => digits
  | digits => digits

/-- Parse a decimal port. -/
def parsePort (s : Str) : Option ℕ :=
  let digits := unsigned s
  let port := digits.foldl (fun n c => n * 10 + (c.toNat - '0'.toNat)) 0
  if digits ≠ [] ∧ digits.all Char.isDigit = true ∧ 1 ≤ port ∧ port ≤ 65535 then some port
  else none

/-- Parse a `host:port` target at its last colon. -/
def parseTarget (target : Str) : Option (Str × ℕ) :=
  let port := (target.reverse.takeWhile (· ≠ ':')).reverse
  let host := target.take (target.length - port.length - 1)
  if ':' ∈ target ∧ host ≠ [] then (parsePort port).map fun port => (host, port) else none

/-- The task before anything happened: a malformed target, or one that is not allowed, is
refused at once. -/
def start (allowed : List Str) (target : Str) : State :=
  let s : State := ⟨.connecting [], [], []⟩
  if (parseTarget target).isNone ∨ target ∉ allowed then s.close else s

/-- A run of the task. -/
def run (s : State) (trace : List Event) : Option State := trace.foldlM step s

/-! ## What the game server gets -/

/-- The data frames of a trace, in the order they were sent. -/
def frames (trace : List Event) : List (List Byte) :=
  trace.filterMap fun
    | .message m => m.payload
    | _ => none

/-- The data frames that arrive before the connection is open. -/
def early (trace : List Event) : List (List Byte) := frames (trace.takeWhile (· ≠ .connected))

/-- The data frames that arrive after it. -/
def late (trace : List Event) : List (List Byte) := frames (trace.dropWhile (· ≠ .connected))

/-- The frames the queue has room for, and all that arrive after the connection is open. -/
def kept (trace : List Event) : List (List Byte) := (early trace).take maxPending ++ late trace

@[simp] lemma frames_append (l m : List Event) : frames (l ++ m) = frames l ++ frames m :=
  List.filterMap_append

lemma early_append_late (trace : List Event) : early trace ++ late trace = frames trace := by
  rw [early, late, ← frames_append, List.takeWhile_append_dropWhile]

lemma kept_of_early_le {trace : List Event} (h : (early trace).length ≤ maxPending) :
    kept trace = frames trace := by
  rw [kept, List.take_of_length_le h, early_append_late]

/-- Before the connection is open all frames are early. -/
lemma kept_of_not_connected {trace : List Event} (h : .connected ∉ trace) :
    kept trace = (frames trace).take maxPending := by
  have hall : ∀ event ∈ trace, decide (event ≠ .connected) = true := fun event hevent =>
    decide_eq_true fun heq => h (heq ▸ hevent)
  rw [kept, early, late, List.takeWhile_eq_self_iff.mpr hall, List.dropWhile_eq_nil_iff.mpr hall]
  simp [frames]

/-- Once it is open they are late. -/
lemma kept_append {trace : List Event} (h : .connected ∈ trace) (more : List Event) :
    kept (trace ++ more) = kept trace ++ frames more := by
  have hdrop : trace.dropWhile (· ≠ .connected) ≠ [] := by
    rw [Ne, List.dropWhile_eq_nil_iff]
    intro hall
    simpa using hall _ h
  have htake : (trace.takeWhile (· ≠ .connected)).length ≠ trace.length := by
    intro hlen
    have hsplit := congrArg List.length
      (List.takeWhile_append_dropWhile (p := fun event => decide (event ≠ Event.connected))
        (l := trace))
    rw [List.length_append, hlen] at hsplit
    exact hdrop (List.length_eq_zero_iff.mp (by omega))
  rw [kept, early, late, List.takeWhile_append, if_neg htake, List.dropWhile_append,
    if_neg (by rwa [List.isEmpty_iff]), frames_append, ← List.append_assoc]
  rfl

lemma kept_connected {trace : List Event} (h : .connected ∉ trace) :
    kept (trace ++ [.connected]) = kept trace := by
  have hall : ∀ event ∈ trace, decide (event ≠ .connected) = true := fun event hevent =>
    decide_eq_true fun heq => h (heq ▸ hevent)
  rw [kept_of_not_connected h, kept, early, late, List.takeWhile_append_of_pos hall,
    List.dropWhile_append_of_pos hall]
  simp [frames]

lemma pushPending_take (l : List (List Byte)) (data : List Byte) :
    pushPending (l.take maxPending) data = (l ++ [data]).take maxPending := by
  unfold pushPending
  split
  · next hlt =>
    rw [List.length_take] at hlt
    rw [List.take_of_length_le (by omega), List.take_of_length_le (by simp; omega)]
  · next hge =>
    rw [List.length_take] at hge
    rw [List.take_append_of_le_length (by omega)]

/-- What a state says about the trace that led to it: where the frames are that were kept. -/
def Carries (trace : List Event) (s : State) : Prop :=
  match s.phase with
  | .connecting pending =>
    .connected ∉ trace ∧ s.written = [] ∧ pending = (frames trace).take maxPending
  | .flushing current rest =>
    .connected ∈ trace ∧ s.written ++ current ++ rest.flatten = (kept trace).flatten
  | .pumping upstream _ =>
    .connected ∈ trace ∧ s.written ++ upstream.getD [] = (kept trace).flatten
  | .closed => s.written <+: (kept trace).flatten

/-- Whatever the phase, the bytes written start the kept frames. -/
lemma Carries.initial {trace : List Event} {s : State} (h : Carries trace s) :
    s.written <+: (kept trace).flatten := by
  unfold Carries at h
  split at h
  · rw [h.2.1]
    exact List.nil_prefix
  · rw [← h.2, List.append_assoc]
    exact List.prefix_append _ _
  · rw [← h.2]
    exact List.prefix_append _ _
  · exact h

lemma not_connected_append {trace : List Event} {event : Event} (h : .connected ∉ trace)
    (hevent : event ≠ .connected) : .connected ∉ trace ++ [event] := by
  rw [List.mem_append, List.mem_singleton]
  rintro (hin | heq)
  · exact h hin
  · exact hevent heq.symm

/-- An event without a frame leaves the queue as it is. -/
lemma Carries.wait {trace : List Event} {pending : List (List Byte)} {toClient : List Message}
    (h : Carries trace ⟨.connecting pending, [], toClient⟩) {event : Event}
    (hevent : event ≠ .connected) (hframes : frames [event] = []) :
    Carries (trace ++ [event]) ⟨.connecting pending, [], toClient⟩ := by
  obtain ⟨hnot, -, hpending⟩ := h
  refine ⟨not_connected_append hnot hevent, rfl, ?_⟩
  rw [frames_append, hframes, List.append_nil, hpending]

lemma Carries.queue {trace : List Event} {pending : List (List Byte)} {toClient : List Message}
    (h : Carries trace ⟨.connecting pending, [], toClient⟩) {event : Event}
    (hevent : event ≠ .connected) {data : List Byte} (hframes : frames [event] = [data]) :
    Carries (trace ++ [event]) ⟨.connecting (pushPending pending data), [], toClient⟩ := by
  obtain ⟨hnot, -, hpending⟩ := h
  refine ⟨not_connected_append hnot hevent, rfl, ?_⟩
  rw [frames_append, hframes, hpending, pushPending_take]

/-- The connection opens: what was queued is what is kept. -/
lemma Carries.open {trace : List Event} {pending : List (List Byte)} {toClient : List Message}
    (h : Carries trace ⟨.connecting pending, [], toClient⟩) :
    Carries (trace ++ [.connected]) ⟨flush pending, [], toClient⟩ := by
  obtain ⟨hnot, -, hpending⟩ := h
  have hin : Event.connected ∈ trace ++ [.connected] := List.mem_append_right _ (by simp)
  have hkept : kept (trace ++ [.connected]) = pending := by
    rw [kept_connected hnot, kept_of_not_connected hnot, hpending]
  cases pending with
  | nil => exact ⟨hin, by rw [hkept]; rfl⟩
  | cons current rest => exact ⟨hin, by rw [hkept]; rfl⟩

/-- An event without a frame, after the connection is open. -/
lemma kept_quiet {trace : List Event} (h : .connected ∈ trace) {event : Event}
    (hframes : frames [event] = []) : kept (trace ++ [event]) = kept trace := by
  rw [kept_append h, hframes, List.append_nil]

/-- One event while the connection is being opened. -/
lemma Carries.connecting {trace : List Event} {pending : List (List Byte)} {written : List Byte}
    {toClient : List Message} {s' : State} (h : Carries trace ⟨.connecting pending, written, toClient⟩)
    {event : Event} (hstep : step ⟨.connecting pending, written, toClient⟩ event = some s') :
    Carries (trace ++ [event]) s' := by
  -- Nothing is written before the connection is open.
  obtain rfl : written = [] := h.2.1
  cases event with
  | message m =>
    cases m with
    | binary data =>
      obtain rfl := Option.some.inj hstep
      exact h.queue (by simp) rfl
    | text data =>
      obtain rfl := Option.some.inj hstep
      exact h.queue (by simp) rfl
    | ping =>
      obtain rfl := Option.some.inj hstep
      exact h.wait (by simp) rfl
    | pong =>
      obtain rfl := Option.some.inj hstep
      exact h.wait (by simp) rfl
    | close =>
      obtain rfl := Option.some.inj hstep
      exact List.nil_prefix
  | clientGone =>
    obtain rfl := Option.some.inj hstep
    exact List.nil_prefix
  | connected =>
    obtain rfl := Option.some.inj hstep
    exact h.open
  | refused =>
    obtain rfl := Option.some.inj hstep
    exact List.nil_prefix
  | took n => cases hstep
  | writeDone => cases hstep
  | writeFailed => cases hstep
  | received data => cases hstep
  | serverGone => cases hstep
  | sent => cases hstep
  | sendFailed => cases hstep

/-- One event while the queue is written. -/
lemma Carries.flushing {trace : List Event} {current : List Byte} {rest : List (List Byte)}
    {written : List Byte} {toClient : List Message} {s' : State}
    (h : Carries trace ⟨.flushing current rest, written, toClient⟩)
    {event : Event} (hstep : step ⟨.flushing current rest, written, toClient⟩ event = some s') :
    Carries (trace ++ [event]) s' := by
  have hinitial := h.initial
  obtain ⟨hin, hbytes⟩ := h
  have hin' : Event.connected ∈ trace ++ [event] := List.mem_append_left _ hin
  cases event with
  | took n =>
    obtain ⟨-, hs⟩ := Option.ite_none_right_eq_some.mp hstep
    obtain rfl := Option.some.inj hs
    refine ⟨hin', ?_⟩
    rw [kept_quiet hin rfl, ← hbytes]
    simp [List.append_assoc]
  | writeDone =>
    cases current with
    | nil =>
      obtain rfl := Option.some.inj hstep
      -- The next frame of the queue comes up, or the queue is done.
      rw [← kept_quiet hin (show frames [.writeDone] = [] from rfl)] at hbytes
      cases rest with
      | nil => exact ⟨hin', by simpa using hbytes⟩
      | cons next rest => exact ⟨hin', by simpa using hbytes⟩
    | cons _ _ => cases hstep
  | writeFailed =>
    obtain rfl := Option.some.inj hstep
    rw [← kept_quiet hin (show frames [.writeFailed] = [] from rfl)] at hinitial
    exact hinitial
  | message m => cases m <;> cases hstep
  | clientGone => cases hstep
  | connected => cases hstep
  | refused => cases hstep
  | received data => cases hstep
  | serverGone => cases hstep
  | sent => cases hstep
  | sendFailed => cases hstep

/-- The task ends: what is written stays written. -/
lemma Carries.ends {trace : List Event} {s : State} (h : Carries trace s)
    (hin : .connected ∈ trace) {event : Event} (hframes : frames [event] = []) :
    Carries (trace ++ [event]) s.close := by
  have hinitial := h.initial
  rw [← kept_quiet hin hframes] at hinitial
  exact hinitial

/-- Something happens in the other direction, or nothing does. -/
lemma Carries.aside {trace : List Event} {upstream downstream downstream' : Option (List Byte)}
    {written : List Byte} {toClient toClient' : List Message}
    (h : Carries trace ⟨.pumping upstream downstream, written, toClient⟩) {event : Event}
    (hframes : frames [event] = []) :
    Carries (trace ++ [event]) ⟨.pumping upstream downstream', written, toClient'⟩ := by
  obtain ⟨hin, hbytes⟩ := h
  refine ⟨List.mem_append_left _ hin, ?_⟩
  rw [kept_quiet hin hframes]
  exact hbytes

/-- One event while both directions are pumped. -/
lemma Carries.pumping {trace : List Event} {upstream downstream : Option (List Byte)}
    {written : List Byte} {toClient : List Message} {s' : State}
    (h : Carries trace ⟨.pumping upstream downstream, written, toClient⟩)
    {event : Event}
    (hstep : step ⟨.pumping upstream downstream, written, toClient⟩ event = some s') :
    Carries (trace ++ [event]) s' := by
  obtain ⟨hin, hbytes⟩ := id h
  have hin' : Event.connected ∈ trace ++ [event] := List.mem_append_left _ hin
  -- A frame is taken off the stream when nothing is being written.
  have hforward : ∀ data : List Byte, upstream = none → frames [event] = [data] →
      Carries (trace ++ [event]) ⟨.pumping (some data) downstream, written, toClient⟩ := by
    rintro data rfl hframes
    refine ⟨hin', ?_⟩
    rw [kept_append hin, hframes, List.flatten_append, ← hbytes]
    simp
  cases event with
  | message m =>
    cases upstream with
    | some current => cases m <;> cases hstep
    | none =>
      cases m with
      | binary data =>
        obtain rfl := Option.some.inj hstep
        exact hforward data rfl rfl
      | text data =>
        obtain rfl := Option.some.inj hstep
        exact hforward data rfl rfl
      | ping =>
        obtain rfl := Option.some.inj hstep
        exact h.aside rfl
      | pong =>
        obtain rfl := Option.some.inj hstep
        exact h.aside rfl
      | close =>
        obtain rfl := Option.some.inj hstep
        exact h.ends hin rfl
  | clientGone =>
    cases upstream with
    | some current => cases hstep
    | none =>
      obtain rfl := Option.some.inj hstep
      exact h.ends hin rfl
  | took n =>
    cases upstream with
    | none => cases hstep
    | some current =>
      obtain ⟨-, hs⟩ := Option.ite_none_right_eq_some.mp hstep
      obtain rfl := Option.some.inj hs
      refine ⟨hin', ?_⟩
      rw [kept_quiet hin rfl, ← hbytes]
      simp [List.append_assoc]
  | writeDone =>
    match upstream, hstep, hbytes with
    | some [], hstep, hbytes =>
      obtain rfl := Option.some.inj hstep
      refine ⟨hin', ?_⟩
      rw [kept_quiet hin rfl, ← hbytes]
      rfl
    | none, hstep, _ => cases hstep
    | some (_ :: _), hstep, _ => cases hstep
  | writeFailed =>
    cases upstream with
    | none => cases hstep
    | some current =>
      obtain rfl := Option.some.inj hstep
      exact h.ends hin rfl
  | received data =>
    cases downstream with
    | some waiting => cases upstream <;> cases hstep
    | none =>
      cases upstream <;>
      · obtain ⟨-, hs⟩ := Option.ite_none_right_eq_some.mp hstep
        obtain rfl := Option.some.inj hs
        exact h.aside rfl
  | serverGone =>
    cases downstream with
    | some waiting => cases upstream <;> cases hstep
    | none =>
      cases upstream <;>
      · obtain rfl := Option.some.inj hstep
        exact h.ends hin rfl
  | sent =>
    cases downstream with
    | none => cases upstream <;> cases hstep
    | some waiting =>
      cases upstream <;>
      · obtain rfl := Option.some.inj hstep
        exact h.aside rfl
  | sendFailed =>
    cases downstream with
    | none => cases upstream <;> cases hstep
    | some waiting =>
      cases upstream <;>
      · obtain rfl := Option.some.inj hstep
        exact h.ends hin rfl
  | connected => cases upstream <;> cases hstep
  | refused => cases upstream <;> cases hstep

/-- One event keeps what a state carries. -/
lemma Carries.step {trace : List Event} {s s' : State} (h : Carries trace s) {event : Event}
    (hstep : step s event = some s') : Carries (trace ++ [event]) s' := by
  obtain ⟨phase, written, toClient⟩ := s
  cases phase with
  | connecting pending => exact h.connecting hstep
  | flushing current rest => exact h.flushing hstep
  | pumping upstream downstream => exact h.pumping hstep
  | closed => cases hstep

/-- The run of the task. -/
lemma Carries.run {trace more : List Event} {s s' : State} (h : Carries trace s)
    (hrun : run s more = some s') : Carries (trace ++ more) s' := by
  induction more generalizing trace s with
  | nil =>
    obtain rfl := Option.some.inj hrun
    rwa [List.append_nil]
  | cons event more ih =>
    rw [WsProxy.run, List.foldlM_cons] at hrun
    obtain ⟨s₁, hstep, hrest⟩ := Option.bind_eq_some_iff.mp hrun
    have hcarries := ih (h.step hstep) hrest
    rwa [List.append_assoc, List.singleton_append] at hcarries

lemma carries_start (allowed : List Str) (target : Str) : Carries [] (start allowed target) := by
  unfold start
  split
  · exact List.nil_prefix
  · exact ⟨by simp, rfl, rfl⟩

/-- **What is written is what was kept, in order.**  At every moment the bytes the game server
got are a prefix of the frames that were kept: the first `maxPending` of those that arrived
before the connection was open, and all that arrived after.  As long as no more than that
arrive before, this is all that the client sent. -/
theorem written_kept {allowed : List Str} {target : Str} {trace : List Event} {s : State}
    (h : run (start allowed target) trace = some s) :
    s.written <+: (kept trace).flatten ∧
      ((early trace).length ≤ maxPending → s.written <+: (frames trace).flatten) := by
  have hinitial := ((carries_start allowed target).run h).initial
  rw [List.nil_append] at hinitial
  exact ⟨hinitial, fun hearly => kept_of_early_le hearly ▸ hinitial⟩

/-- A frame before the connection is open and one after it, of which a byte is written. -/
theorem written_kept_sample :
    ([1, 2, 3] : List Byte) <+: (kept [.message (.binary [1, 2]), .connected, .took 2, .writeDone,
      .message (.text [3, 4]), .took 1]).flatten :=
  (written_kept (show run (start [['a', ':', '1']] ['a', ':', '1'])
    [.message (.binary [1, 2]), .connected, .took 2, .writeDone, .message (.text [3, 4]),
      .took 1] = some ⟨.pumping (some [4]) none, [1, 2, 3], []⟩ by decide)).1

/-- As many frames as the queue holds and one more, then the connection, the queue, and
another frame. -/
def overflow : List Event :=
  List.replicate 64 (.message (.binary [1])) ++ [.message (.binary [2]), .connected] ++
    (List.replicate 64 [.took 1, .writeDone]).flatten ++ [.message (.binary [3]), .took 1]

/-- The frame that found the queue full is missing between two others. -/
theorem overflow_drops_frame :
    run (start [['a', ':', '1']] ['a', ':', '1']) overflow =
      some ⟨.pumping (some []) none, List.replicate 64 1 ++ [3], []⟩ ∧
    (frames overflow).flatten = List.replicate 64 1 ++ [2, 3] ∧
    ¬(List.replicate 64 1 ++ [3] : List Byte) <+: (frames overflow).flatten := by
  refine ⟨by decide +kernel, by decide +kernel, by decide +kernel⟩

end WsProxy
end RemoteClient
