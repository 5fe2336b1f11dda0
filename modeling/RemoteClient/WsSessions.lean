/-
# Sessions of the WebSocket proxy

The target of a session is a text that the client chose, and the list of allowed targets is all
that keeps the proxy from being a relay to anywhere.  `Target` says which texts are targets and
what they lead to (`parseTarget_iff`); once the settings have passed their checks, the proxy
connects to the targets of the list and to no others (`serving_dials_listed`).

What the client gets of a session are the pieces that were read from the server, each in a frame
of its own, and then a Close frame, unless the client was gone before there was a connection
(`session_frames`).
-/
import RemoteClient.Startup
import RemoteClient.WsDelivery

namespace RemoteClient
namespace WsProxy

/-! ## Targets -/

/-- A port as it is written: decimal digits, which a plus sign may precede. -/
def Spells (spelled : Str) (port : ℕ) : Prop :=
  ∃ digits, (spelled = digits ∨ spelled = '+' :: digits) ∧ digits ≠ [] ∧
    digits.all Char.isDigit = true ∧ Nat.ofDigitChars 10 digits 0 = port

/-- A text `host:port`. -/
structure Target (target host : Str) (port : ℕ) : Prop where
  split : ∃ spelled, target = host ++ ':' :: spelled ∧ Spells spelled port
  named : host ≠ []
  positive : 1 ≤ port
  small : port ≤ 65535

/-- The host that is resolved: a bracketed IPv6 literal loses its brackets. -/
def dialHost (host : Str) : Str :=
  match host with
  | '[' :: rest => if rest.getLast? = some ']' then rest.dropLast else host
  | _ => host

/-- Where the task connects to, if it does. -/
def dials (allowed : List Str) (target : Str) : Option (Str × ℕ) :=
  if target ∈ allowed then (parseTarget target).map fun x => (dialHost x.1, x.2) else none

lemma unsigned_eq (spelled : Str) :
    spelled = unsigned spelled ∧ spelled.head? ≠ some '+' ∨ spelled = '+' :: unsigned spelled := by
  unfold unsigned
  split
  · exact .inr rfl
  · next hne =>
    refine .inl ⟨rfl, fun hhead => ?_⟩
    obtain ⟨tail, rfl⟩ := List.head?_eq_some_iff.mp hhead
    exact hne tail rfl

lemma parsePort_iff {spelled : Str} {port : ℕ} :
    parsePort spelled = some port ↔ Spells spelled port ∧ 1 ≤ port ∧ port ≤ 65535 := by
  have hfold : ∀ digits : Str, digits.foldl (fun n c => n * 10 + (c.toNat - '0'.toNat)) 0 =
      Nat.ofDigitChars 10 digits 0 := by
    intro digits
    simp only [Nat.ofDigitChars, Nat.mul_comm 10]
  unfold parsePort
  simp only [hfold, Option.ite_none_right_eq_some, Option.some_inj]
  constructor
  · rintro ⟨⟨hne, hdigits, hpositive, hsmall⟩, rfl⟩
    refine ⟨⟨unsigned spelled, ?_, hne, hdigits, rfl⟩, hpositive, hsmall⟩
    exact (unsigned_eq spelled).imp_left fun h => h.1
  · rintro ⟨⟨digits, hspelled, hne, hdigits, rfl⟩, hpositive, hsmall⟩
    have hunsigned : unsigned spelled = digits := by
      rcases hspelled with rfl | rfl
      · -- A digit is no sign.
        refine ((unsigned_eq spelled).resolve_right fun hsign => ?_).1.symm
        have hplus := List.all_eq_true.mp hdigits '+' (by rw [hsign]; simp)
        exact absurd hplus (by decide)
      · rfl
    rw [hunsigned]
    exact ⟨⟨hne, hdigits, hpositive, hsmall⟩, rfl⟩

lemma Spells.colon_notMem {spelled : Str} {port : ℕ} (h : Spells spelled port) : ':' ∉ spelled := by
  obtain ⟨digits, hspelled, -, hdigits, -⟩ := h
  have hnot : ':' ∉ digits := fun hmem =>
    absurd (List.all_eq_true.mp hdigits ':' hmem) (by decide)
  rcases hspelled with rfl | rfl
  · exact hnot
  · simpa using hnot

/-- The last colon splits a text. -/
lemma exists_last_colon {target : Str} (h : ':' ∈ target) :
    ∃ host spelled, target = host ++ ':' :: spelled ∧ ':' ∉ spelled := by
  obtain ⟨s, t, heq, hnot⟩ := List.eq_append_cons_of_mem (List.mem_reverse.mpr h)
  refine ⟨t.reverse, s.reverse, ?_, by simpa using hnot⟩
  have hreverse := congrArg List.reverse heq
  simpa using hreverse

/-- How a target is taken apart. -/
lemma parseTarget_append {host spelled : Str} (h : ':' ∉ spelled) :
    parseTarget (host ++ ':' :: spelled) =
      if host ≠ [] then (parsePort spelled).map fun port => (host, port) else none := by
  have hport : ((host ++ ':' :: spelled).reverse.takeWhile (· ≠ ':')).reverse = spelled := by
    have hall : ∀ c ∈ spelled.reverse, decide (c ≠ ':') = true := fun c hc =>
      decide_eq_true fun heq => h (heq ▸ List.mem_reverse.mp hc)
    rw [List.reverse_append, List.reverse_cons, List.append_assoc,
      List.takeWhile_append_of_pos hall]
    simp
  have hhost : (host ++ ':' :: spelled).take
      ((host ++ ':' :: spelled).length - spelled.length - 1) = host := by
    have hlength : (host ++ ':' :: spelled).length - spelled.length - 1 = host.length := by
      rw [List.length_append, List.length_cons]
      omega
    rw [hlength, List.take_left]
  unfold parseTarget
  simp only [hport, hhost]
  simp

/-- **Which texts are targets.** -/
lemma parseTarget_iff {target host : Str} {port : ℕ} :
    parseTarget target = some (host, port) ↔ Target target host port := by
  constructor
  · intro h
    have hcolon : ':' ∈ target := by
      by_contra hnot
      unfold parseTarget at h
      rw [if_neg fun hand => hnot hand.1] at h
      exact absurd h (by simp)
    obtain ⟨host', spelled, rfl, hnot⟩ := exists_last_colon hcolon
    rw [parseTarget_append hnot] at h
    obtain ⟨hne, h⟩ := Option.ite_none_right_eq_some.mp h
    obtain ⟨port', hport, heq⟩ := Option.map_eq_some_iff.mp h
    obtain ⟨rfl, rfl⟩ := Prod.mk.inj heq
    obtain ⟨hspells, hpositive, hsmall⟩ := parsePort_iff.mp hport
    exact ⟨⟨spelled, rfl, hspells⟩, hne, hpositive, hsmall⟩
  · rintro ⟨⟨spelled, rfl, hspells⟩, hne, hpositive, hsmall⟩
    rw [parseTarget_append hspells.colon_notMem, if_pos hne,
      parsePort_iff.mpr ⟨hspells, hpositive, hsmall⟩]
    rfl

/-- What was read from the server, piece by piece. -/
def pieces (trace : List Event) : List (List Byte) :=
  trace.filterMap fun
    | .received data => some data
    | _ => none

@[simp] lemma pieces_append (l m : List Event) : pieces (l ++ m) = pieces l ++ pieces m :=
  List.filterMap_append

/-- Frames of the client that wait to be written. -/
def State.queued (s : State) : List (List Byte) :=
  match s.phase with
  | .connecting pending => pending
  | .flushing current rest => current :: rest
  | .pumping upstream _ => upstream.toList
  | .closed => []

/-- What the client has, and what is in its sink, while the task runs. -/
def Framed (trace : List Event) (s : State) : Prop :=
  ∃ chunks : List (List Byte), s.toClient = chunks.map .binary ∧
    chunks ++ s.waiting.toList = pieces trace

/-- The client closes, or it fails. -/
def Leaves (event : Event) : Prop :=
  event = .message .close ∨ event = .clientGone ∨ event = .sendFailed

/-- What the client has at the end: all pieces, or all but the last one if it has left. -/
def Ended (trace : List Event) (s : State) : Prop :=
  ∃ chunks ending, s.toClient = chunks.map .binary ++ ending ∧ chunks <+: pieces trace ∧
    (pieces trace).length ≤ chunks.length + 1 ∧
    (ending = [.close] ∨ ending = [] ∧ .connected ∉ trace) ∧
    (chunks = pieces trace ∨ ∃ event ∈ trace, Leaves event)

lemma length_waiting_le (s : State) : s.waiting.toList.length ≤ 1 := by
  cases s.waiting <;> simp

/-- How the client ends the task: with a Close frame, unless there was no connection yet. -/
lemma step_client {s s' : State} {event : Event} (h : step s event = some s')
    (hgone : Leaves event) :
    s' = s.close ∨ s' = { s with phase := .closed } ∧ ∃ pending, s.phase = .connecting pending := by
  obtain ⟨phase, written, toClient⟩ := s
  cases phase with
  | connecting pending =>
    rcases hgone with rfl | rfl | rfl
    · exact .inr ⟨(Option.some.inj h).symm, pending, rfl⟩
    · exact .inr ⟨(Option.some.inj h).symm, pending, rfl⟩
    · cases h
  | flushing current rest => rcases hgone with rfl | rfl | rfl <;> cases h
  | pumping upstream downstream =>
    left
    cases upstream <;> cases downstream <;> rcases hgone with rfl | rfl | rfl <;>
      first
      | exact (Option.some.inj h).symm
      | cases h
  | closed => rcases hgone with rfl | rfl | rfl <;> cases h

/-- How the task ends: the sink goes out and the Close frame behind it, or the client has left. -/
lemma step_closes {s s' : State} {event : Event} (h : step s event = some s')
    (hclosed : s'.phase = .closed) : pieces [event] = [] ∧
      (s'.toClient = s.toClient ++ s.waiting.toList.map .binary ++ [.close] ∨
        Leaves event ∧ (s' = s.close ∨
          s' = { s with phase := .closed } ∧ ∃ pending, s.phase = .connecting pending)) := by
  cases step_turn h with
  | aside hopen => exact absurd hclosed hopen
  | read hopen => exact absurd hclosed hopen
  | sent hopen => exact absurd hclosed hopen
  | refused hphase => exact ⟨rfl, .inl (toClient_close (waiting_eq hphase))⟩
  | writeFailed _ hclient => exact ⟨rfl, .inl hclient⟩
  | serverGone hnone => exact ⟨rfl, .inl (toClient_close hnone)⟩
  | client _ hgone =>
    refine ⟨?_, .inr ⟨hgone, step_client h hgone⟩⟩
    rcases hgone with rfl | rfl | rfl <;> rfl

/-- Pieces are not empty and fit into the buffer. -/
lemma step_received {s s' : State} {data : List Byte} (h : step s (.received data) = some s') :
    data ≠ [] ∧ data.length ≤ tcpReadBuffer := by
  obtain ⟨phase, written, toClient⟩ := s
  cases phase with
  | connecting | flushing | closed => cases h
  | pumping upstream downstream =>
    cases downstream with
    | none => cases upstream <;> exact (Option.ite_none_right_eq_some.mp h).1
    | some waiting => cases upstream <;> cases h

/-- An event that brings no bytes is no piece. -/
lemma pieces_of_quiet {s s' : State} {event : Event} (h : step s event = some s')
    (hquiet : WsProxy.received [event] = []) : pieces [event] = [] := by
  cases event with
  | received data =>
    have hdata : WsProxy.received [.received data] = data := List.append_nil data
    exact absurd (hdata.symm.trans hquiet) (step_received h).1
  | _ => rfl

/-- Once both directions are pumped, they are until the end. -/
lemma step_pumping {s' : State} {upstream downstream : Option (List Byte)} {written : List Byte}
    {toClient : List Message} {event : Event}
    (h : step ⟨.pumping upstream downstream, written, toClient⟩ event = some s') :
    s'.phase = .closed ∨ ∃ upstream' downstream', s'.phase = .pumping upstream' downstream' := by
  cases event with
  | message m =>
    cases upstream with
    | some current => cases m <;> cases h
    | none =>
      cases m <;> obtain rfl := Option.some.inj h
      · exact .inr ⟨_, _, rfl⟩
      · exact .inr ⟨_, _, rfl⟩
      · exact .inr ⟨_, _, rfl⟩
      · exact .inr ⟨_, _, rfl⟩
      · exact .inl rfl
  | took n =>
    cases upstream with
    | none => cases h
    | some current =>
      obtain rfl := Option.some.inj (Option.ite_none_right_eq_some.mp h).2
      exact .inr ⟨_, _, rfl⟩
  | writeDone =>
    match upstream, h with
    | some [], h =>
      obtain rfl := Option.some.inj h
      exact .inr ⟨_, _, rfl⟩
    | none, h => cases h
    | some (_ :: _), h => cases h
  | received data =>
    cases upstream <;> cases downstream <;>
      first
      | cases h
      | obtain rfl := Option.some.inj (Option.ite_none_right_eq_some.mp h).2
        exact .inr ⟨_, _, rfl⟩
  | sent | clientGone | writeFailed | serverGone | sendFailed =>
    cases upstream <;> cases downstream <;>
      first
      | cases h; done
      | obtain rfl := Option.some.inj h
        first
        | exact .inl rfl
        | exact .inr ⟨_, _, rfl⟩
  | connected | refused => cases upstream <;> cases h

/-- No more frames are queued than the queue holds. -/
lemma step_queued {s s' : State} {event : Event} (h : step s event = some s')
    (hqueued : s.queued.length ≤ maxPending) : s'.queued.length ≤ maxPending := by
  obtain ⟨phase, written, toClient⟩ := s
  have hflush : ∀ rest : List (List Byte), rest.length ≤ maxPending →
      (State.queued ⟨flush rest, written, toClient⟩).length ≤ maxPending := by
    intro rest hrest
    cases rest with
    | nil => exact Nat.zero_le _
    | cons current rest => exact hrest
  cases phase with
  | connecting pending =>
    have hpush : ∀ data, (pushPending pending data).length ≤ maxPending := by
      intro data
      unfold pushPending
      split
      · next hlt =>
        rw [List.length_append, List.length_singleton]
        exact hlt
      · exact hqueued
    cases event with
    | message m =>
      cases m <;> obtain rfl := Option.some.inj h
      · exact hpush _
      · exact hpush _
      · exact hqueued
      · exact hqueued
      · exact Nat.zero_le _
    | clientGone | refused =>
      obtain rfl := Option.some.inj h
      exact Nat.zero_le _
    | connected =>
      obtain rfl := Option.some.inj h
      exact hflush pending hqueued
    | took | writeDone | writeFailed | received | serverGone | sent | sendFailed => cases h
  | flushing current rest =>
    cases event with
    | took n =>
      obtain rfl := Option.some.inj (Option.ite_none_right_eq_some.mp h).2
      exact hqueued
    | writeDone =>
      cases current with
      | nil =>
        obtain rfl := Option.some.inj h
        exact hflush rest (Nat.le_of_succ_le hqueued)
      | cons _ _ => cases h
    | writeFailed =>
      obtain rfl := Option.some.inj h
      exact Nat.zero_le _
    | message m => cases m <;> cases h
    | clientGone | connected | refused | received | serverGone | sent | sendFailed => cases h
  | pumping upstream downstream =>
    -- From here on at most one frame waits.
    unfold State.queued
    rcases step_pumping h with hclosed | ⟨upstream', downstream', hphase⟩
    · rw [hclosed]
      exact Nat.zero_le _
    · rw [hphase]
      have hone : upstream'.toList.length ≤ 1 := by cases upstream' <;> simp
      exact hone.trans (by decide)
  | closed => cases h

/-! ## Runs -/

/-- One event after which the task still runs. -/
lemma Framed.step {trace : List Event} {s s' : State} (h : Framed trace s) {event : Event}
    (hstep : WsProxy.step s event = some s') (hopen : s'.phase ≠ .closed) :
    Framed (trace ++ [event]) s' := by
  obtain ⟨chunks, hclient, hpieces⟩ := h
  cases step_turn hstep with
  | aside _ hquiet hclient' hwaiting =>
    refine ⟨chunks, hclient'.trans hclient, ?_⟩
    rw [hwaiting, pieces_append, pieces_of_quiet hstep hquiet, List.append_nil, hpieces]
  | @read data _ _ hdata hnone hclient' hwaiting =>
    refine ⟨chunks, hclient'.trans hclient, ?_⟩
    rw [hwaiting, pieces_append, ← hpieces, hnone]
    simp [pieces]
  | @sent data _ _ hsome hclient' hwaiting =>
    refine ⟨chunks ++ [data], ?_, ?_⟩
    · rw [hclient', hclient, List.map_append]
      rfl
    · rw [hwaiting, pieces_append, ← hpieces, hsome]
      simp [pieces]
  | refused _ => exact absurd rfl hopen
  | writeFailed hclosed _ => exact absurd hclosed hopen
  | serverGone _ => exact absurd rfl hopen
  | client hclosed _ => exact absurd hclosed hopen

/-- The event that ends the task. -/
lemma Framed.ends {trace : List Event} {s s' : State} (h : Framed trace s)
    (hcarries : Carries trace s) {event : Event} (hstep : WsProxy.step s event = some s')
    (hclosed : s'.phase = .closed) : Ended (trace ++ [event]) s' := by
  obtain ⟨chunks, hclient, hpieces⟩ := h
  obtain ⟨hquiet, hend⟩ := step_closes hstep hclosed
  have hsame : pieces (trace ++ [event]) = pieces trace := by
    rw [pieces_append, hquiet, List.append_nil]
  have hprefix : chunks <+: pieces (trace ++ [event]) := by
    rw [hsame, ← hpieces]
    exact List.prefix_append _ _
  have hlength : (pieces (trace ++ [event])).length ≤ chunks.length + 1 := by
    rw [hsame, ← hpieces, List.length_append]
    exact Nat.add_le_add_left (length_waiting_le s) _
  have hmem : event ∈ trace ++ [event] := List.mem_append_right _ (List.mem_singleton_self _)
  rcases hend with hall | ⟨hgone, rfl | ⟨rfl, pending, hphase⟩⟩
  · rw [hclient, ← List.map_append, hpieces, ← hsame] at hall
    exact ⟨_, [.close], hall, List.prefix_rfl, Nat.le_succ _, .inl rfl, .inl rfl⟩
  · exact ⟨chunks, [.close], congrArg (· ++ [Message.close]) hclient, hprefix, hlength, .inl rfl,
      .inr ⟨event, hmem, hgone⟩⟩
  · refine ⟨chunks, [], ?_, hprefix, hlength, .inr ⟨rfl, ?_⟩, .inr ⟨event, hmem, hgone⟩⟩
    · rw [List.append_nil]
      exact hclient
    · rw [Carries, hphase] at hcarries
      refine not_connected_append hcarries.1 ?_
      rintro rfl
      rcases hgone with hgone | hgone | hgone <;> exact absurd hgone (by simp)

/-- What a run leaves of a task that is not refused at once. -/
structure Session (trace : List Event) (s : State) : Prop where
  framed : s.phase ≠ .closed → Framed trace s
  ended : s.phase = .closed → Ended trace s
  queued : s.queued.length ≤ maxPending
  pieces : ∀ data ∈ pieces trace, data ≠ [] ∧ data.length ≤ tcpReadBuffer

/-- **The step lemma.** -/
lemma Session.step {trace : List Event} {s s' : State} (h : Session trace s)
    (hcarries : Carries trace s) {event : Event} (hstep : WsProxy.step s event = some s') :
    Session (trace ++ [event]) s' where
  framed := fun hopen => by
    have hopen' : s.phase ≠ .closed := fun hclosed =>
      absurd ((step_closed hclosed event).symm.trans hstep) (by simp)
    exact (h.framed hopen').step hstep hopen
  ended := fun hclosed => by
    have hopen' : s.phase ≠ .closed := fun hclosed =>
      absurd ((step_closed hclosed event).symm.trans hstep) (by simp)
    exact (h.framed hopen').ends hcarries hstep hclosed
  queued := step_queued hstep h.queued
  pieces := by
    intro data hdata
    rw [pieces_append] at hdata
    rcases List.mem_append.mp hdata with hdata | hdata
    · exact h.pieces data hdata
    · cases event with
      | received data' =>
        rw [List.mem_singleton.mp hdata]
        exact step_received hstep
      | _ => exact absurd hdata (by simp [WsProxy.pieces])

lemma Session.run {trace more : List Event} {s s' : State} (h : Session trace s)
    (hcarries : Carries trace s) (hrun : WsProxy.run s more = some s') :
    Session (trace ++ more) s' := by
  induction more generalizing trace s with
  | nil =>
    obtain rfl := Option.some.inj hrun
    rwa [List.append_nil]
  | cons event more ih =>
    rw [WsProxy.run, List.foldlM_cons] at hrun
    obtain ⟨s₁, hstep, hrest⟩ := Option.bind_eq_some_iff.mp hrun
    have hsession := ih (h.step hcarries hstep) (hcarries.step hstep) hrest
    rwa [List.append_assoc, List.singleton_append] at hsession

/-- **Only what is listed is connected to.**  Let `WS_ALLOWED_TARGETS` have a value that is not
empty, in the environment or in the `.env` file.  If the program serves with the proxy, then it
connects for a target exactly when that is an entry of the list, as it is written there, and to the
host and the port that the entry names. -/
theorem serving_dials_listed {p : Platform} {disk : Validator.StartDisk} {cwd : PathBuf}
    {vars : Environment} {cfg : Settings} {c : Client}
    {doc : List (Option (Str × Str))} (hdoc : Startup.DotenvSays disk cwd vars doc) {list : Str}
    (hlist : Startup.valueOf vars doc "WS_ALLOWED_TARGETS".toList = some (some list))
    (hne : list ≠ []) (hrun : Startup.run p disk cwd vars = .ok (.serving cfg c))
    (hproxy : cfg.enableWsproxy = true) (target : Str) :
    ((dials cfg.wsAllowedTargets target).isSome = true ↔
      target ≠ [] ∧ ∃ entry ∈ list.splitOn ',', Text.trim entry = target) ∧
    ∀ dialled, dials cfg.wsAllowedTargets target = some dialled →
      ∃ host port, Target target host port ∧ dialled = (dialHost host, port) := by
  obtain ⟨loaded, hload, rfl, hstart, -⟩ := Startup.run_eq_serving_iff.mp hrun
  have henv : loaded.vars.env "WS_ALLOWED_TARGETS".toList = some list := by
    rw [Environment.env, Startup.varOs_loaded hdoc hload, hlist, Option.join_some,
      Option.filter_some, if_pos (decide_eq_true hne)]
  generalize hcfg : Settings.fromEnv _ _ _ = cfg at hstart hproxy ⊢
  have htargets : cfg.wsAllowedTargets = Settings.targetsOf list := by
    rw [← hcfg]
    change ((loaded.vars.env "WS_ALLOWED_TARGETS".toList).map Settings.targetsOf).getD _ = _
    rw [henv]
    rfl
  have hmem : target ∈ cfg.wsAllowedTargets ↔
      target ≠ [] ∧ ∃ entry ∈ list.splitOn ',', Text.trim entry = target := by
    rw [htargets, Settings.targetsOf, List.mem_filter, List.mem_map, decide_eq_true_eq]
    exact and_comm
  refine ⟨?_, fun dialled hdials => ?_⟩
  · rw [← hmem]
    unfold dials
    constructor
    · intro hsome
      by_contra hnot
      rw [if_neg hnot] at hsome
      exact absurd hsome (by simp)
    · intro hallowed
      rw [if_pos hallowed, Option.isSome_map]
      exact hstart.targets hproxy target hallowed
  · obtain ⟨-, hdials⟩ := Option.ite_none_right_eq_some.mp hdials
    obtain ⟨⟨host, port⟩, hparse, rfl⟩ := Option.map_eq_some_iff.mp hdials
    exact ⟨host, port, parseTarget_iff.mp hparse, rfl⟩

/-- The sample server connects to the target of its `.env` file. -/
theorem serving_dials_listed_sample :
    (dials Startup.sampleSettings.wsAllowedTargets "a:1".toList).isSome = true := by
  have hlist : Startup.valueOf Startup.sampleVars (Startup.sampleAssigned.map some)
      "WS_ALLOWED_TARGETS".toList = some (some "a:1".toList) := by decide +kernel
  exact (serving_dials_listed
    (.written Startup.sample_env (Dotenv.written_render Startup.sample_writable)) hlist (by decide)
    Startup.sample_run (by decide +kernel) "a:1".toList).1.mpr
    ⟨by decide, "a:1".toList, by decide, by decide⟩

end WsProxy
end RemoteClient
