/-
# What the client gets of the game server

The bytes of the server go to the client as binary frames, and a Close frame is the last thing
it gets.  While the task runs, what was sent and what is in the sink is what was received
(`Brings`), and what is in the sink goes out before the Close frame.

The two directions end each other: a write to the server that fails ends the task even when
bytes of the server are unread.  The client gets all of them exactly when this does not happen
(`delivered_iff`).
-/
import RemoteClient.WsProxy

namespace RemoteClient
namespace WsProxy

/-! ## The game server and the client -/

/-- The bytes that the task has read from the server. -/
def received (trace : List Event) : List Byte :=
  (trace.filterMap fun
    | .received data => some data
    | _ => none).flatten

/-- The server sends `bytes`, in whatever pieces they are read, and then closes its socket. -/
structure ServerSends (bytes : List Byte) (trace : List Event) : Prop where
  in_order : received trace <+: bytes
  gone : .serverGone ∈ trace → received trace = bytes
  connected : bytes ≠ [] → .connected ∈ trace

/-- The client neither closes nor fails. -/
structure ClientStays (trace : List Event) : Prop where
  open_ : .message .close ∉ trace
  alive : .clientGone ∉ trace
  reading : .sendFailed ∉ trace

/-- The client has got the bytes as binary frames, and then a Close frame. -/
def Delivered (bytes : List Byte) (s : State) : Prop :=
  ∃ chunks : List (List Byte), s.toClient = chunks.map .binary ++ [.close] ∧ chunks.flatten = bytes

/-- The bytes of the server that are in the sink of the client. -/
def State.waiting (s : State) : Option (List Byte) :=
  match s.phase with
  | .pumping _ downstream => downstream
  | _ => none

/-! ## One event -/

/-- What an event means for the bytes of the server: nothing, a read, a chunk that is flushed,
the end of the task, or that the client is gone. -/
inductive Turn (s : State) : Event → State → Prop
  | aside {event : Event} {s' : State} (hopen : s'.phase ≠ .closed)
      (hquiet : received [event] = []) (hclient : s'.toClient = s.toClient)
      (hwaiting : s'.waiting = s.waiting) : Turn s event s'
  | read {data : List Byte} {s' : State} (hopen : s'.phase ≠ .closed) (hdata : data ≠ [])
      (hnone : s.waiting = none) (hclient : s'.toClient = s.toClient)
      (hwaiting : s'.waiting = some data) : Turn s (.received data) s'
  | sent {data : List Byte} {s' : State} (hopen : s'.phase ≠ .closed)
      (hsome : s.waiting = some data) (hclient : s'.toClient = s.toClient ++ [.binary data])
      (hwaiting : s'.waiting = none) : Turn s .sent s'
  | refused {pending : List (List Byte)} (hphase : s.phase = .connecting pending) :
      Turn s .refused s.close
  | writeFailed {s' : State} (hclosed : s'.phase = .closed)
      (hclient : s'.toClient = s.toClient ++ s.waiting.toList.map .binary ++ [.close]) :
      Turn s .writeFailed s'
  | serverGone (hnone : s.waiting = none) : Turn s .serverGone s.close
  | client {event : Event} {s' : State} (hclosed : s'.phase = .closed)
      (h : event = .message .close ∨ event = .clientGone ∨ event = .sendFailed) : Turn s event s'

lemma waiting_eq {s : State} {phase : Phase} (h : s.phase = phase) :
    s.waiting = State.waiting ⟨phase, [], []⟩ := by
  rw [State.waiting, h]
  rfl

lemma flush_open (rest : List (List Byte)) : flush rest ≠ .closed := by
  cases rest <;> exact nofun

lemma flush_waiting (rest : List (List Byte)) (written : List Byte) (toClient : List Message) :
    State.waiting ⟨flush rest, written, toClient⟩ = none := by
  cases rest <;> rfl

/-- What one event can do. -/
lemma step_turn {s s' : State} {event : Event} (h : step s event = some s') :
    Turn s event s' := by
  unfold step at h
  split at h
  all_goals try (cases h; done)
  all_goals
    rename_i heq
    have hwaiting := waiting_eq heq
    first
    -- the client goes
    | cases h; exact .client rfl (.inl rfl)
    | cases h; exact .client rfl (.inr (.inl rfl))
    | cases h; exact .client rfl (.inr (.inr rfl))
    -- the task ends
    | cases h; exact .refused heq
    | cases h; exact .writeFailed rfl (by rw [hwaiting]; rfl)
    | cases h; exact .writeFailed rfl (by rw [hwaiting]; simp [State.waiting, State.close])
    | cases h; exact .serverGone hwaiting
    -- it goes on
    | cases h; exact .aside (heq ▸ nofun) rfl rfl rfl
    | cases h; exact .aside nofun rfl rfl hwaiting.symm
    | cases h; exact .aside (flush_open _) rfl rfl ((flush_waiting _ _ _).trans hwaiting.symm)
    | cases h; exact .sent nofun hwaiting rfl rfl
    | obtain ⟨hdata, hs⟩ := Option.ite_none_right_eq_some.mp h
      cases hs
      first
      | exact .read nofun hdata.1 hwaiting rfl rfl
      | exact .aside nofun rfl rfl hwaiting.symm

/-- Nothing happens to a closed task. -/
lemma step_closed {s : State} (h : s.phase = .closed) (event : Event) : step s event = none := by
  unfold step
  rw [h]

lemma run_closed {s s' : State} (h : s.phase = .closed) {trace : List Event}
    (hrun : run s trace = some s') : s' = s := by
  cases trace with
  | nil => exact (Option.some.inj hrun).symm
  | cons event trace =>
    rw [run, List.foldlM_cons, step_closed h] at hrun
    exact absurd hrun (by simp)

/-! ## While the task runs -/

/-- What was received is what the client got and what is in the sink. -/
def Brings (trace : List Event) (s : State) : Prop :=
  ∃ chunks : List (List Byte), s.toClient = chunks.map .binary ∧
    chunks.flatten ++ s.waiting.getD [] = received trace

@[simp] lemma received_append (l m : List Event) : received (l ++ m) = received l ++ received m := by
  unfold received
  rw [List.filterMap_append, List.flatten_append]

/-- One event after which the task still runs. -/
lemma Brings.step {trace : List Event} {s s' : State} (h : Brings trace s) {event : Event}
    (hstep : step s event = some s') (hopen : s'.phase ≠ .closed) :
    Brings (trace ++ [event]) s' := by
  obtain ⟨chunks, hchunks, hbytes⟩ := h
  cases step_turn hstep with
  | aside _ hquiet hclient hwaiting =>
    refine ⟨chunks, hclient.trans hchunks, ?_⟩
    rw [hwaiting, received_append, hquiet, List.append_nil, hbytes]
  | @read data _ _ hdata hnone hclient hwaiting =>
    have hdelivered : chunks.flatten = received trace := by
      rw [← hbytes, hnone, Option.getD_none, List.append_nil]
    have hread : received [.received data] = data := List.append_nil data
    refine ⟨chunks, hclient.trans hchunks, ?_⟩
    rw [hwaiting, Option.getD_some, received_append, hdelivered, hread]
  | @sent data _ _ hsome hclient hwaiting =>
    refine ⟨chunks ++ [data], ?_, ?_⟩
    · rw [hclient, hchunks, List.map_append]
      rfl
    · have hquiet : received [.sent] = [] := rfl
      rw [received_append, hquiet, ← hbytes, hsome, hwaiting, List.flatten_append]
      simp
  | refused _ => exact absurd rfl hopen
  | writeFailed hclosed _ => exact absurd hclosed hopen
  | serverGone _ => exact absurd rfl hopen
  | client hclosed _ => exact absurd hclosed hopen

/-- A run after which the task still runs. -/
lemma Brings.run {trace more : List Event} {s s' : State} (h : Brings trace s)
    (hrun : run s more = some s') (hopen : s'.phase ≠ .closed) : Brings (trace ++ more) s' := by
  induction more generalizing trace s with
  | nil =>
    obtain rfl := Option.some.inj hrun
    rwa [List.append_nil]
  | cons event more ih =>
    rw [WsProxy.run, List.foldlM_cons] at hrun
    obtain ⟨s₁, hstep, hrest⟩ := Option.bind_eq_some_iff.mp hrun
    have hopen₁ : s₁.phase ≠ .closed := fun hclosed => hopen (run_closed hclosed hrest ▸ hclosed)
    have hbrings := ih (h.step hstep hopen₁) hrest
    rwa [List.append_assoc, List.singleton_append] at hbrings

lemma brings_start (allowed : List Str) (target : Str) (hopen : (start allowed target).phase ≠ .closed) :
    Brings [] (start allowed target) := by
  simp only [start] at hopen ⊢
  split at hopen
  · exact absurd rfl hopen
  · next hallowed =>
    rw [if_neg hallowed]
    exact ⟨[], rfl, rfl⟩

/-! ## When the task ends -/

/-- When the sink has gone out and the Close frame behind it, the client has got all bytes if
they were all read. -/
lemma Brings.delivered_close {bytes : List Byte} {trace : List Event} {s s' : State}
    (h : Brings trace s)
    (hclient : s'.toClient = s.toClient ++ s.waiting.toList.map .binary ++ [.close]) :
    Delivered bytes s' ↔ received trace = bytes := by
  obtain ⟨chunks, hchunks, hreceived⟩ := h
  have hflatten : (chunks ++ s.waiting.toList).flatten = received trace := by
    rw [← hreceived, List.flatten_append]
    cases s.waiting <;> simp
  rw [hchunks, ← List.map_append] at hclient
  constructor
  · rintro ⟨chunks', hclient', hbytes⟩
    have hsame : (chunks ++ s.waiting.toList).map Message.binary = chunks'.map Message.binary :=
      List.append_cancel_right (hclient.symm.trans hclient')
    obtain rfl : chunks ++ s.waiting.toList = chunks' :=
      List.map_injective_iff.mpr (fun _ _ heq => Message.binary.inj heq) hsame
    exact hflatten.symm.trans hbytes
  · intro hall
    exact ⟨_, hclient, hflatten.trans hall⟩

/-- With an empty sink that is the Close frame alone. -/
lemma toClient_close {s : State} (h : s.waiting = none) :
    s.close.toClient = s.toClient ++ s.waiting.toList.map .binary ++ [.close] := by
  rw [h, Option.toList_none, List.map_nil, List.append_nil]
  rfl

/-- **The server's last words.**  In a run that ends, with a client that stays, the client has
got all bytes of the server as binary frames before the Close frame, if and only if no write to
the server failed while some of them were unread. -/
theorem delivered_iff {allowed : List Str} {target : Str} {bytes : List Byte}
    {trace : List Event} {s : State} (h : run (start allowed target) trace = some s)
    (hserver : ServerSends bytes trace) (hclient : ClientStays trace)
    (hclosed : s.phase = .closed) :
    Delivered bytes s ↔ ∀ before, trace = before ++ [.writeFailed] → received before = bytes := by
  rcases List.eq_nil_or_concat trace with rfl | ⟨before, event, rfl⟩
  · -- A target that is refused at once is never connected to.
    have hbytes : bytes = [] := by
      by_contra hne
      exact absurd (hserver.connected hne) (by simp)
    obtain rfl := Option.some.inj h
    refine ⟨fun _ before heq => absurd heq (by simp), fun _ => ⟨[], ?_, hbytes.symm⟩⟩
    simp only [start] at hclosed ⊢
    split at hclosed
    · next hrefused =>
      rw [if_pos hrefused]
      rfl
    · exact absurd hclosed (by simp)
  · rw [List.concat_eq_append] at *
    have hlast := h
    rw [run, List.foldlM_append] at hlast
    obtain ⟨s₁, hbefore, hevent⟩ := Option.bind_eq_some_iff.mp hlast
    obtain ⟨s₂, hstep, hs₂⟩ := Option.bind_eq_some_iff.mp hevent
    obtain rfl := Option.some.inj hs₂
    have hopen₁ : s₁.phase ≠ .closed := by
      intro hclosed₁
      rw [step_closed hclosed₁] at hstep
      exact absurd hstep (by simp)
    have hopen : (start allowed target).phase ≠ .closed := fun hclosed =>
      hopen₁ (run_closed hclosed hbefore ▸ hclosed)
    have hbrings : Brings before s₁ := (brings_start allowed target hopen).run hbefore hopen₁
    have hmem : event ∈ before ++ [event] := List.mem_append_right _ (List.mem_singleton_self _)
    -- Only a failed write can end the task too early.
    have hother : event ≠ .writeFailed → ∀ before', before ++ [event] = before' ++ [.writeFailed] →
        received before' = bytes := by
      intro hne before' heq
      exact absurd (List.singleton_inj.mp (List.append_inj_right' heq rfl)) hne
    cases step_turn hstep with
    | aside hopen₂ => exact absurd hclosed hopen₂
    | read hopen₂ => exact absurd hclosed hopen₂
    | sent hopen₂ => exact absurd hclosed hopen₂
    | @refused pending hphase =>
      refine ⟨fun _ => hother (by simp), fun _ => ?_⟩
      have hcarries := (carries_start allowed target).run hbefore
      rw [List.nil_append, Carries, hphase] at hcarries
      -- No connection was opened, so the server has sent nothing.
      have hbytes : bytes = [] := by
        by_contra hne
        rcases List.mem_append.mp (hserver.connected hne) with hin | hin
        · exact hcarries.1 hin
        · exact absurd (List.mem_singleton.mp hin) (by simp)
      have hreceived := hserver.in_order
      rw [received_append, hbytes] at hreceived
      rw [hbrings.delivered_close (toClient_close (waiting_eq hphase)), hbytes]
      exact (List.append_eq_nil_iff.mp (List.prefix_nil.mp hreceived)).1
    | writeFailed _ hclient' =>
      rw [hbrings.delivered_close hclient']
      refine ⟨fun hall before' heq => ?_, fun hall => hall before rfl⟩
      obtain rfl := List.append_inj_left' heq rfl
      exact hall
    | serverGone hnone =>
      refine ⟨fun _ => hother (by simp), fun _ => ?_⟩
      rw [hbrings.delivered_close (toClient_close hnone)]
      have hall := hserver.gone hmem
      rwa [received_append, show received [.serverGone] = [] from rfl, List.append_nil] at hall
    | client _ hgone =>
      rcases hgone with rfl | rfl | rfl
      · exact absurd hmem hclient.open_
      · exact absurd hmem hclient.alive
      · exact absurd hmem hclient.reading

/-- The server answers a frame and hangs up, and the next frame of the client finds that out when
a part of the answer is still in the sink: all is delivered. -/
theorem delivered_iff_sample : Delivered [7, 8]
    ⟨.closed, [1], [.binary [7], .binary [8], .close]⟩ := by
  have h : run (start [['a', ':', '1']] ['a', ':', '1'])
      [.connected, .message (.binary [1]), .took 1, .writeDone, .received [7], .sent,
        .message (.binary [2]), .received [8], .writeFailed] =
      some ⟨.closed, [1], [.binary [7], .binary [8], .close]⟩ := by decide
  refine (delivered_iff h ⟨by decide, by decide, by decide⟩ ⟨by decide, by decide, by decide⟩
    rfl).mpr ?_
  intro before heq
  have hbefore := congrArg List.dropLast heq
  rw [List.dropLast_concat] at hbefore
  rw [← hbefore]
  rfl

/-- The server hangs up after its answer, and the next frame of the client finds that out before
the answer is read. -/
def hangUp : List Event :=
  [.connected, .message (.binary [1]), .took 1, .writeDone, .message (.binary [2]), .writeFailed]

/-- The answer is lost. -/
theorem last_words_lost : ∃ s, run (start [['a', ':', '1']] ['a', ':', '1']) hangUp = some s ∧
    ServerSends [7] hangUp ∧ ClientStays hangUp ∧ s.phase = .closed ∧ ¬Delivered [7] s := by
  refine ⟨⟨.closed, [1], [.close]⟩, by decide, ⟨by decide, by decide, by decide⟩,
    ⟨by decide, by decide, by decide⟩, rfl, ?_⟩
  rintro ⟨chunks, hclient, hbytes⟩
  cases chunks with
  | nil => exact absurd hbytes nofun
  | cons chunk chunks =>
    have hlength := congrArg List.length hclient
    simp at hlength

end WsProxy
end RemoteClient
