import ChunkRelay.Proofs.Reading

/-! Readers of batches on any transport: calls take sessions, pull them and drop them in any order, whatever the
stream holds and wherever it breaks. What holds at each call is proved from what the calls before have come to. -/
namespace ChunkRelay

open PacketFeed

/-- The receiving end of a batch in use: between two sessions, or with one at hand that reads through it. -/
inductive Reader where
  | idle (inbox : Inbox)
  | lent (session : Session Inbox)

namespace Reader

def new (s : Source) : Reader := .idle (Inbox.new s)

def inbox : Reader → Inbox
  | .idle i => i
  | .lent s => s.packets.inner

inductive Call where
  | next | pull | drop

inductive Answer where
  | session (header : Header)
  | ended
  | refused (cause : TransferError)
  /-- What a pull brought, and the state that it left the session in. -/
  | pulled (delivery : Option Delivery) (state : SessionState)
  | dropped (state : SessionState)
  | noSession

/-- One call. Where the next session is taken, the one at hand is dropped. -/
def step (r : Reader) : Call → Answer × Reader
  | .next =>
    match r.inbox.nextHeader with
    | (.ok (some h), i) => (.session h, .lent (.inbound h i))
    | (.ok none, i) => (.ended, .idle i)
    | (.error e, i) => (.refused e, .idle i)
  | .pull =>
    match r with
    | .lent s => (.pulled s.next.1 s.next.2.state, .lent s.next.2)
    | .idle i => (.noSession, .idle i)
  | .drop =>
    match r with
    | .lent s => (.dropped s.abandon.state, .idle s.packets.inner)
    | .idle i => (.noSession, .idle i)

/-- What a call reads. -/
def readings (r : Reader) : Call → List Reading
  | .next => r.inbox.readings (r.inbox.pending + 1)
  | .pull =>
    match r with
    | .lent s =>
      if s.state = .unfinished ∧ s.packets.done = false ∧ s.packets.inner.pending ≠ 0 then
        s.packets.inner.readings 1
      else []
    | .idle _ => []
  | .drop => []

/-- A call, with what it answered, what it read, and the receiving end after it. -/
structure Event where
  call : Call
  answer : Answer
  readings : List Reading
  inbox : Inbox

/-- The packet that a pull brought. -/
def packet? : Option Delivery → Option Sequence
  | some (.ok p) => some p
  | _ => none

namespace Event

def packet? (e : Event) : Option Sequence :=
  match e.answer with
  | .pulled d _ => Reader.packet? d
  | _ => none

/-- Nothing more is read, and whoever asks for the next session is told `a`. -/
structure Still (i : Inbox) (a : Answer) (e : Event) : Prop where
  nothing_read : e.readings = []
  inbox_eq : e.inbox = i
  answer_eq : e.call = .next → e.answer = a

/-- A session is told to be complete. -/
def Completes (e : Event) : Prop := e.answer = .dropped .completed ∨ ∃ d, e.answer = .pulled d .completed

end Event

def event (r : Reader) (c : Call) : Event := ⟨c, (r.step c).1, r.readings c, (r.step c).2.inbox⟩

def run : List Call → Reader → List Event
  | [], _ => []
  | c :: cs, r => r.event c :: run cs (r.step c).2

/-- Between sessions the batch has not both broken and ended; within one it has not ended. -/
def Sound : Reader → Prop
  | .idle i => i.Sound
  | .lent s => s.packets.inner.finished = false

variable {r : Reader} {i : Inbox} {s : Session Inbox}

theorem Sound.inbox (hr : r.Sound) : r.inbox.Sound := by
  cases r with
  | idle i => exact hr
  | lent s => exact fun _ => hr

end Reader

/-! What pulling leaves of what is pulled from. -/

theorem Verified.inner_next {σ : Type} [PacketFeed σ] (v : Verified σ) :
    v.next.2.inner = if v.done then v.inner else (PacketFeed.next v.inner).2 := by
  unfold Verified.next
  split
  · rfl
  · rcases PacketFeed.next v.inner with ⟨_ | _ | p, s⟩
    · simp only
      split <;> rfl
    · rfl
    · simp only
      split <;> rfl

namespace Session

variable {σ : Type}

theorem packets_settle (s : Session σ) (state : SessionState) : (s.settle state).packets = s.packets := by
  unfold settle
  split <;> rfl

theorem settle_of_closed {s : Session σ} (hs : s.state ≠ .unfinished) (state : SessionState) : s.settle state = s := by
  simp [settle, isOpen, hs]

/-- A session that is dropped is not complete unless it was before. -/
theorem completed_of_abandon {s : Session σ} (h : s.abandon.state = .completed) : s.state = .completed := by
  unfold abandon fail settle at h
  split at h
  · cases h
  · exact h

theorem packets_next [PacketFeed σ] (s : Session σ) :
    s.next.2.packets = if s.state = .unfinished then s.packets.next.2 else s.packets := by
  unfold Session.next isOpen
  by_cases hs : s.state = .unfinished
  · simp only [hs, decide_true, if_true]
    rcases s.packets.next with ⟨_ | _ | p, v⟩
    · exact packets_settle ..
    · exact packets_settle ..
    · rfl
  · simp only [hs, decide_false, Bool.false_eq_true, if_false]

theorem inner_next [PacketFeed σ] (s : Session σ) : s.next.2.packets.inner =
    if s.state = .unfinished ∧ s.packets.done = false then (PacketFeed.next s.packets.inner).2
    else s.packets.inner := by
  rw [packets_next]
  by_cases hs : s.state = .unfinished
  · rw [if_pos hs, Verified.inner_next]
    cases s.packets.done <;> simp [hs]
  · rw [if_neg hs, if_neg fun h => hs h.1]

variable [PacketFeed σ]

/-- What a pull comes to, and what it leaves of the session. -/
inductive Comes (s : Session σ) : Option Delivery → Session σ → Prop
  | closed : s.state ≠ .unfinished → Comes s none s
  | ended {v : Verified σ} : s.state = .unfinished → Comes s none { s with packets := v, state := .completed }
  | failed {e : TransferError} {v : Verified σ} : s.state = .unfinished →
      Comes s (some (.error e)) { s with packets := v, state := .failed e.message }
  | packet {p : Sequence} {v : Verified σ} : s.state = .unfinished → Comes s (some (.ok p)) { s with packets := v }

theorem comes (s : Session σ) : Comes s s.next.1 s.next.2 := by
  by_cases hopen : s.state = .unfinished
  · rcases hn : s.packets.next with ⟨_ | e | p, v⟩ <;>
      simp only [next, isOpen, hopen, hn, fail, settle, decide_true, if_true]
    · exact .ended hopen
    · exact .failed hopen
    · exact hopen ▸ .packet hopen
  · have hnext : s.next = (none, s) := next_of_closed hopen
    rw [hnext]
    exact .closed hopen

variable {f : σ} {i : Inbox} {h : Header} {q : List Sequence}

/-- How far a session has come that began on `f` with the header `h` and has brought the packets `q`. -/
def Serves (f : σ) (h : Header) (q : List Sequence) (s : Session σ) : Prop :=
  s.header = h ∧
    match s.state with
    | .unfinished => Pulls (inbound h f) q s
    | .completed => Drains (inbound h f) q s
    | .failed _ => True

theorem serves_inbound (f : σ) (h : Header) : Serves f h [] (inbound h f) := ⟨rfl, .nil⟩

theorem serves_of_pulls {s : Session σ} (hheader : s.header = h) (hopen : s.state = .unfinished)
    (hp : Pulls (inbound h f) q s) : Serves f h q s := by
  refine ⟨hheader, ?_⟩
  rw [hopen]
  exact hp

theorem Serves.pulls {s : Session σ} (hs : Serves f h q s) (hopen : s.state = .unfinished) :
    Pulls (inbound h f) q s := by
  have hmatch := hs.2
  rwa [hopen] at hmatch

theorem Serves.drains {s : Session σ} (hs : Serves f h q s) (hdone : s.state = .completed) :
    Drains (inbound h f) q s := by
  have hmatch := hs.2
  rwa [hdone] at hmatch

theorem Serves.next {s : Session σ} (hs : Serves f h q s) :
    Serves f h (q ++ (Reader.packet? s.next.1).toList) s.next.2 := by
  have hcomes := s.comes
  rcases hn : s.next with ⟨d, t⟩
  rw [hn] at hcomes
  cases hcomes with
  | closed => exact (List.append_nil q).symm ▸ hs
  | ended hopen => exact ⟨hs.1, (List.append_nil q).symm ▸ ⟨s, hs.pulls hopen, hn⟩⟩
  | failed => exact ⟨hs.1, trivial⟩
  | @packet p v hopen =>
    exact serves_of_pulls hs.1 hopen ((hs.pulls hopen).append (.cons hn .nil))

/-- A session that is failed is served as before, or is past all serving. -/
theorem Serves.fail {s : Session σ} (hs : Serves f h q s) (e : TransferError) : Serves f h q (s.fail e) := by
  by_cases hopen : s.state = .unfinished
  · have hfail : s.fail e = { s with state := .failed e.message } := by simp [Session.fail, settle, isOpen, hopen]
    rw [hfail]
    exact ⟨hs.1, trivial⟩
  · rw [Session.fail, settle_of_closed hopen]
    exact hs

/-- A session that is complete brought what its header lists, and read that and nothing else. -/
theorem Serves.listed {s : Session Inbox} (hs : Serves i h q s) (hstate : s.state = .completed) :
    Listed 0 h.hashes q ∧ Packet.Reads i.source (q.map fun p => .ok (.sequence p)) s.packets.inner.source := by
  have hpackets := drains_packets (hs.drains hstate) rfl
  obtain ⟨t, hpulls, hend⟩ := Verified.drains_inner hpackets rfl
  have hinner : s.packets.inner = t := by
    simp only [PacketFeed.next] at hend
    split at hend
    · exact (Prod.mk.inj hend).2.symm
    · cases hend
  exact ⟨Verified.listed_of_drains hpackets rfl, hinner ▸ Inbox.reads_of_pulls hpulls⟩

end Session
namespace Reader

variable {r : Reader}

theorem inbox_next (r : Reader) : (r.step .next).2.inbox = r.inbox.nextHeader.2 := by
  rcases hn : r.inbox.nextHeader with ⟨_ | _ | h, i⟩ <;> simp only [step, hn] <;> rfl

/-- A call reads what is due, one packet after another. -/
theorem takes_step (hr : r.Sound) (c : Call) : Inbox.Takes r.inbox (r.readings c) (r.step c).2.inbox := by
  cases c with
  | next =>
    rw [inbox_next]
    exact (Inbox.nextHeader_outcome r.inbox).1
  | drop => cases r <;> exact .nil
  | pull =>
    cases r with
    | idle i => exact .nil
    | lent s =>
      have hinbox : ((Reader.lent s).step .pull).2.inbox = s.next.2.packets.inner := rfl
      have hf : s.packets.inner.finished = false := hr
      rw [hinbox, Session.inner_next]
      simp only [readings, inbox]
      by_cases hs : s.state = .unfinished ∧ s.packets.done = false
      · have htakes := (Inbox.takes_next hf).1
        simpa only [hs, true_and, and_self, if_true] using htakes
      · rw [if_neg hs, if_neg fun h => hs ⟨h.1, h.2.1⟩]
        exact .nil

theorem sound_step (hr : r.Sound) (c : Call) : (r.step c).2.Sound := by
  have hinbox := (takes_step hr c).sound hr.inbox
  cases c with
  | next =>
    rcases hn : r.inbox.nextHeader with ⟨_ | _ | h, i⟩
    · simp only [step, hn] at hinbox ⊢
      exact hinbox
    · simp only [step, hn] at hinbox ⊢
      exact hinbox
    · simp only [step, hn]
      exact (Inbox.live_of_nextHeader hn).1.not_finished
  | drop => cases r <;> exact hinbox
  | pull =>
    cases r with
    | idle i => exact hr
    | lent s =>
      have hf : s.packets.inner.finished = false := hr
      have hinner : s.next.2.packets.inner.finished = false := by
        rw [Session.inner_next]
        split
        · exact (Inbox.takes_next hf).2
        · exact hf
      exact hinner

/-! What is left of a batch that has broken or ended. -/

theorem event_of_stuck (hr : r.inbox.Stuck) (c : Call) : (r.event c).Still r.inbox (.refused .streamBroken) := by
  have hsound : r.Sound := by
    cases r with
    | idle i => exact fun _ => hr.not_finished
    | lent s => exact hr.not_finished
  obtain ⟨hnone, hsame⟩ := (takes_step hsound c).eq_of_not_live hr.not_live
  refine ⟨hnone, hsame, fun hc => ?_⟩
  obtain rfl : c = .next := hc
  simp only [event, step, Inbox.nextHeader_of_stuck hr]

/-- Nothing is read any more of a batch that has broken. -/
theorem run_of_stuck (hr : r.inbox.Stuck) (calls : List Call) :
    ∀ e ∈ run calls r, e.Still r.inbox (.refused .streamBroken) := by
  induction calls generalizing r with
  | nil => simp [run]
  | cons c calls ih =>
    have hstill := event_of_stuck hr c
    have hsame : (r.step c).2.inbox = r.inbox := hstill.inbox_eq
    rw [run, List.forall_mem_cons]
    refine ⟨hstill, ?_⟩
    rw [← hsame]
    exact ih (hsame ▸ hr)

theorem idle_of_ended {c : Call} (h : (r.event c).answer = .ended) :
    ∃ i, i.finished = true ∧ (r.step c).2 = .idle i := by
  cases c with
  | next =>
    rcases hn : r.inbox.nextHeader with ⟨_ | _ | header, i⟩ <;> simp only [event, step, hn] at h ⊢
    · cases h
    · exact ⟨i, Inbox.finished_of_nextHeader hn, rfl⟩
    · cases h
  | pull => cases r <;> cases h
  | drop => cases r <;> cases h

/-- Nothing is read any more of a batch that has ended. -/
theorem run_of_ended {i : Inbox} (hi : i.finished = true) (calls : List Call) :
    ∀ e ∈ run calls (.idle i), e.Still i .ended := by
  have hnext := Inbox.nextHeader_of_finished hi
  induction calls with
  | nil => simp [run]
  | cons c calls ih =>
    have hstep : ((Reader.idle i).step c).2 = .idle i := by
      cases c with
      | next => simp only [step, inbox, hnext]
      | pull => rfl
      | drop => rfl
    rw [run, List.forall_mem_cons, hstep]
    refine ⟨⟨?_, congrArg inbox hstep, fun hc => ?_⟩, ih⟩
    · cases c with
      | next => exact Inbox.readings_of_not_live (Inbox.not_live_of_finished hi) (i.pending + 1)
      | pull => rfl
      | drop => rfl
    · obtain rfl : c = .next := hc
      simp only [event, step, inbox, hnext]

/-- The session that `given` told of was complete after the calls `later`: they brought as many packets as the
header lists, which verify against it and stood right after it, up to what is left of the stream in `last`. -/
structure Receives (stream : Source) (given : Event) (later : List Event) (h : Header) (last : Source) : Prop where
  told : given.answer = .session h
  same_session : ∀ e ∈ later, e.call ≠ .next
  count : (later.filterMap Event.packet?).length = h.chunkCount
  listed : Listed 0 h.hashes (later.filterMap Event.packet?)
  header_bytes : ∃ a b, Packet.Parses [.header h] b ∧ stream.rest = a ++ b ++ given.inbox.source.rest
  chunk_bytes : ∃ c, Packet.Parses ((later.filterMap Event.packet?).map .sequence) c ∧
    given.inbox.source.rest = c ++ last.rest

/-- All that was read in these calls. -/
def transcript (events : List Event) : List Reading := events.flatMap (·.readings)

/-- How a call stands among those before and those after it. -/
structure Safe (stream : Source) (before : List Event) (e : Event) (after : List Event) : Prop where
  /-- What was read so far was read one after another from the start of the stream. -/
  reads : Packet.Reads stream ((transcript (before ++ [e])).map (·.result)) e.inbox.source
  in_turn : Reading.InTurn (transcript (before ++ [e]))
  /-- The batch has broken if something was wrong. -/
  broken_iff : e.inbox.broken = true ↔ ∃ x ∈ transcript (before ++ [e]), x.Wrong
  /-- The batch has ended if an end-of-stream header came where a header was due. -/
  finished_iff : e.inbox.finished = true ↔ ∃ x ∈ transcript (before ++ [e]), x.Ends
  after_wrong : (∃ x ∈ e.readings, x.Wrong) → ∀ e' ∈ after, e'.Still e.inbox (.refused .streamBroken)
  /-- The batch is told to have ended only when it has. -/
  ended : e.answer = .ended → ∃ x ∈ transcript (before ++ [e]), x.Ends
  after_ended : e.answer = .ended → ∀ e' ∈ after, e'.Still e.inbox .ended
  /-- A session that is told to be complete got all its chunks. -/
  complete : e.Completes → ∃ older given later h, before ++ [e] = older ++ given :: later ∧
    Receives stream given later h e.inbox.source

variable {r : Reader} {stream : Source} {past : List Event} {s t : Session Inbox}

/-- The session at hand began in one of the past calls, and all calls since were for it. -/
def AtHand (stream : Source) (past : List Event) (s : Session Inbox) : Prop :=
  ∃ older given later, past = older ++ given :: later ∧ given.answer = .session s.header ∧
    (∃ a b, Packet.Parses [.header s.header] b ∧ stream.rest = a ++ b ++ given.inbox.source.rest) ∧
    (∀ e ∈ later, e.call ≠ .next) ∧ Session.Serves given.inbox s.header (later.filterMap Event.packet?) s

/-- A further call for the session at hand. -/
theorem AtHand.append {e : Event} (h : AtHand stream past s) (he : e.call ≠ .next)
    (hs : ∀ {i q}, Session.Serves i s.header q s → Session.Serves i s.header (q ++ e.packet?.toList) t) :
    AtHand stream (past ++ [e]) t := by
  obtain ⟨older, given, later, rfl, htold, hbytes, hsame, hserves⟩ := h
  have hserves' := hs hserves
  obtain hheader : t.header = s.header := hserves'.1
  refine ⟨older, given, later ++ [e], by simp, hheader ▸ htold, hheader ▸ hbytes, ?_, ?_⟩
  · intro e' he'
    rcases List.mem_append.mp he' with h | h
    · exact hsame e' h
    · exact List.mem_singleton.mp h ▸ he
  · have hpackets : (later ++ [e]).filterMap Event.packet? =
        later.filterMap Event.packet? ++ e.packet?.toList := by
      cases hp : e.packet? <;> simp [hp]
    rw [hpackets, hheader]
    exact hserves'

/-- A session at hand that is complete got all its chunks. -/
theorem AtHand.receives (h : AtHand stream past s) (hs : s.state = .completed) :
    ∃ older given later h, past = older ++ given :: later ∧
      Receives stream given later h s.packets.inner.source := by
  obtain ⟨older, given, later, hpast, htold, hbytes, hsame, hserves⟩ := h
  obtain ⟨hlisted, hreads⟩ := hserves.listed hs
  have hmap : (later.filterMap Event.packet?).map
      (fun p => (Except.ok (.sequence p) : Except PacketError Packet)) =
      ((later.filterMap Event.packet?).map .sequence).map .ok := by
    rw [List.map_map]
    rfl
  rw [hmap] at hreads
  exact ⟨older, given, later, s.header, hpast,
    htold, hsame, hlisted.length_eq.symm, hlisted, hbytes, hreads.parses⟩

/-- What past calls have come to. -/
structure Tells (stream : Source) (past : List Event) (r : Reader) : Prop where
  takes : Inbox.Takes (Inbox.new stream) (transcript past) r.inbox
  sound : r.Sound
  at_hand : ∀ s, r = .lent s → AtHand stream past s

theorem tells_new (stream : Source) : Tells stream [] (new stream) := ⟨.nil, fun _ => rfl, by simp [new]⟩

theorem transcript_append (past : List Event) (e : Event) :
    transcript (past ++ [e]) = transcript past ++ e.readings := by
  simp [transcript]

theorem Tells.takes_append (h : Tells stream past r) (c : Call) :
    Inbox.Takes (Inbox.new stream) (transcript (past ++ [r.event c])) (r.step c).2.inbox := by
  rw [transcript_append]
  exact h.takes.append (takes_step h.sound c)

/-- A session that is taken begins right after its header. -/
theorem Tells.at_hand_next (h : Tells stream past r) {header : Header} {i : Inbox}
    (hn : r.inbox.nextHeader = (.ok (some header), i)) :
    AtHand stream (past ++ [r.event .next]) (.inbound header i) := by
  obtain ⟨hlive, l, hreadings⟩ := Inbox.live_of_nextHeader hn
  have hstep : r.step .next = (.session header, .lent (.inbound header i)) := by simp only [Reader.step, hn]
  have hinbox : (r.step .next).2.inbox = i := congrArg (fun x => x.2.inbox) hstep
  have hall : transcript (past ++ [r.event .next]) =
      (transcript past ++ l) ++ [⟨.blockHeader, .ok (.header header)⟩] := by
    rw [transcript_append, List.append_assoc]
    exact congrArg (transcript past ++ ·) hreadings
  have htakes := h.takes_append .next
  rw [hall, hinbox] at htakes
  refine ⟨past, r.event .next, [], rfl, congrArg Prod.fst hstep, ?_, by simp, ?_⟩
  · obtain ⟨a, b, hb, hrest⟩ := htakes.header_bytes hlive
    exact ⟨a, b, hb, hrest.trans (by rw [event, hinbox])⟩
  · rw [event, hinbox]
    exact Session.serves_inbound i header

theorem Tells.step (h : Tells stream past r) (c : Call) : Tells stream (past ++ [r.event c]) (r.step c).2 := by
  refine ⟨h.takes_append c, sound_step h.sound c, fun t ht => ?_⟩
  cases c with
  | next =>
    rcases hn : r.inbox.nextHeader with ⟨_ | _ | header, i⟩ <;> simp only [Reader.step, hn] at ht
    · cases ht
    · cases ht
    · cases ht
      exact h.at_hand_next hn
  | pull =>
    cases r with
    | idle i => cases ht
    | lent s =>
      cases ht
      exact (h.at_hand s rfl).append (by simp [event]) fun hs => hs.next
  | drop => cases r <;> cases ht

theorem Tells.complete (h : Tells stream past r) {c : Call} (hc : (r.event c).Completes) :
    ∃ older given later h, past ++ [r.event c] = older ++ given :: later ∧
      Receives stream given later h (r.event c).inbox.source := by
  cases c with
  | next =>
    rcases hn : r.inbox.nextHeader with ⟨_ | _ | header, i⟩ <;>
      simp [Event.Completes, event, Reader.step, hn] at hc
  | pull =>
    cases r with
    | idle i => simp [Event.Completes, event, Reader.step] at hc
    | lent s =>
      have hstate : s.next.2.state = .completed := by simpa [Event.Completes, event, Reader.step] using hc
      exact ((h.step .pull).at_hand s.next.2 rfl).receives hstate
  | drop =>
    cases r with
    | idle i => simp [Event.Completes, event, Reader.step] at hc
    | lent s =>
      have hstate : s.abandon.state = .completed := by simpa [Event.Completes, event, Reader.step] using hc
      have hsame := (h.at_hand s rfl).append (e := (Reader.lent s).event .drop) (t := s) (by simp [event])
        fun hs => by simpa [Event.packet?, event, Reader.step] using hs
      exact hsame.receives (Session.completed_of_abandon hstate)

/-- A call is safe whatever it finds and whatever comes after it. -/
theorem Tells.safe (h : Tells stream past r) (c : Call) (calls : List Call) :
    Safe stream past (r.event c) (run calls (r.step c).2) := by
  have htakes := h.takes_append c
  have hbroken := htakes.broken_iff
  have hfinished := htakes.finished_iff
  simp only [Inbox.new, Bool.false_eq_true, false_or] at hbroken hfinished
  refine ⟨htakes.reads, htakes.inTurn, hbroken, hfinished, ?_, ?_, ?_, h.complete⟩
  · rintro ⟨x, hx, hwrong⟩
    have hb : (r.step c).2.inbox.broken = true :=
      hbroken.mpr ⟨x, by rw [transcript_append]; exact List.mem_append_right _ hx, hwrong⟩
    exact run_of_stuck ⟨hb, (sound_step h.sound c).inbox hb⟩ calls
  · intro ha
    obtain ⟨i, hend, hidle⟩ := idle_of_ended ha
    refine hfinished.mp ?_
    rwa [hidle]
  · intro ha
    obtain ⟨i, hend, hidle⟩ := idle_of_ended ha
    simp only [event, hidle]
    exact run_of_ended hend calls

/-- What is kept by each call holds at all of them. -/
theorem at_each_of_run {P : List Event → Reader → Prop} {Q : List Event → Event → List Event → Prop}
    (hstep : ∀ {past r}, P past r → ∀ c, P (past ++ [r.event c]) (r.step c).2)
    (hpost : ∀ {past r}, P past r → ∀ c calls, Q past (r.event c) (run calls (r.step c).2)) (hr : P past r)
    (calls : List Call) :
    ∀ before e after, run calls r = before ++ e :: after → Q (past ++ before) e after :=
  Throughout.at_each_of_steps run event (fun r c => (r.step c).2) (fun _ => rfl) (fun _ _ _ => rfl) P Q hstep hpost
    hr calls

/-- Every call on a reader is safe, whatever the stream, however it hands out its bytes and wherever it breaks,
and whatever calls come before and after. -/
theorem run_safe (stream : Source) (calls : List Call) : Throughout (Safe stream) (run calls (new stream)) :=
  ⟨at_each_of_run (P := Tells stream) (fun h c => h.step c) (fun h c calls => h.safe c calls)
    (tells_new stream) calls⟩

end Reader
end ChunkRelay
