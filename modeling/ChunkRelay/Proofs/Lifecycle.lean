import ChunkRelay.Proofs.Calls
import ChunkRelay.Proofs.Verdicts

/-! The life of a session in the hands of its consumer. The stream is held first; its packets may be taken from it,
pulled and failed; and whichever of the two is held may be dropped. Whatever is done in whatever order, the state is
settled by the first act that closes the session, and stays. -/
namespace ChunkRelay

open PacketFeed

/-- What a consumer holds of a session. -/
inductive Holding where
  | stream | packets | nothing
  deriving DecidableEq

/-- A session in the hands of its consumer. -/
structure Consumer (σ : Type) where
  session : Session σ
  holding : Holding

namespace Consumer

inductive Act where
  | take | pull
  | fail (cause : TransferError)
  | drop

inductive Answer where
  | taken
  | pulled (delivery : Option Delivery)
  | failed (cause : TransferError)
  | dropped
  /-- What it takes for the act is not held. -/
  | gone

namespace Answer

/-- The state that an act closes an open session with, if it closes it. -/
def closing? : Answer → Option SessionState
  | .pulled none => some .completed
  | .pulled (some (.error e)) | .failed e => some (.failed e.message)
  | .dropped => some (.failed TransferError.abandoned.message)
  | .pulled (some (.ok _)) | .taken | .gone => none

theorem closing?_ne_unfinished (x : Answer) : x.closing? ≠ some .unfinished := by
  rcases x with _ | (_ | _ | _) | _ | _ | _ <;> simp [closing?]

theorem closing?_eq_completed_iff {x : Answer} : x.closing? = some .completed ↔ x = .pulled none := by
  rcases x with _ | (_ | _ | _) | _ | _ | _ <;> simp [closing?]

def packet? : Answer → Option Sequence
  | .pulled d => Reader.packet? d
  | _ => none

end Answer

/-- What an act came to, with the state that is published and what is held after it. -/
structure Event where
  answer : Answer
  state : SessionState
  holding : Holding

variable {σ : Type}

def inbound (h : Header) (packets : σ) : Consumer σ := ⟨.inbound h packets, .stream⟩

/-- The packets that were pulled. -/
def pulled (events : List Event) : List Sequence := events.filterMap (·.answer.packet?)

/-- The state that the first act to close the session closed it with. -/
def verdict (events : List Event) : SessionState := (events.findSome? (·.answer.closing?)).getD .unfinished

/-- How an act stands among those before and those after it. -/
structure Exact (h : Header) (before : List Event) (e : Event) (after : List Event) : Prop where
  state_eq : e.state = verdict (before ++ [e])
  /-- The session is closed once, and nothing is pulled from it then. -/
  closed : e.state ≠ .unfinished → ∀ e' ∈ after, e'.state = e.state ∧ ∀ d, e'.answer = .pulled d → d = none
  completed_iff : e.state = .completed ↔ ∃ older x newer, before ++ [e] = older ++ x :: newer ∧
    x.answer = .pulled none ∧ ∀ y ∈ older, y.answer.closing? = none
  complete : e.state = .completed → (pulled (before ++ [e])).length = h.chunkCount ∧
    ∀ (i : Nat) (p : Sequence), (pulled (before ++ [e]))[i]? = some p →
      p.number = UInt32.ofNat i ∧ h.hashes[i]? = some p.hash
  verified : e.state = .completed → h.chunkCount ≤ Chunk.maxCount →
    ∀ (i : Nat) (p : Sequence), (pulled (before ++ [e]))[i]? = some p → p.number.toNat = i ∧ p.verify h = true
  released : e.holding = .nothing → e.state ≠ .unfinished

theorem pulled_append (past : List Event) (e : Event) :
    pulled (past ++ [e]) = pulled past ++ e.answer.packet?.toList := by
  cases he : e.answer.packet? <;> simp [pulled, he]

theorem verdict_append (past : List Event) (e : Event) : verdict (past ++ [e]) =
    if verdict past = .unfinished then e.answer.closing?.getD .unfinished else verdict past := by
  unfold verdict
  rw [List.findSome?_append]
  cases hpast : past.findSome? (·.answer.closing?) with
  | none => cases he : e.answer.closing? <;> simp [he]
  | some state =>
    obtain ⟨x, -, hx⟩ := List.exists_of_findSome?_eq_some hpast
    have hclosed : state ≠ .unfinished := fun hs => x.answer.closing?_ne_unfinished (hs ▸ hx)
    simp [hclosed]

theorem verdict_eq_completed_iff {events : List Event} : verdict events = .completed ↔
    ∃ older x newer, events = older ++ x :: newer ∧ x.answer = .pulled none ∧
      ∀ y ∈ older, y.answer.closing? = none := by
  have hfirst : verdict events = .completed ↔ events.findSome? (·.answer.closing?) = some .completed := by
    unfold verdict
    cases events.findSome? (·.answer.closing?) <;> simp
  rw [hfirst, List.findSome?_eq_some_iff]
  simp only [Answer.closing?_eq_completed_iff]

variable [PacketFeed σ]

/-- One act. What is not held cannot be acted on. -/
def step (c : Consumer σ) : Act → Answer × Consumer σ
  | .take => if c.holding = .stream then (.taken, { c with holding := .packets }) else (.gone, c)
  | .pull =>
    if c.holding = .packets then (.pulled c.session.next.1, { c with session := c.session.next.2 }) else (.gone, c)
  | .fail e => if c.holding = .packets then (.failed e, { c with session := c.session.fail e }) else (.gone, c)
  | .drop => if c.holding = .nothing then (.gone, c) else (.dropped, ⟨c.session.abandon, .nothing⟩)

def event (c : Consumer σ) (a : Act) : Event := ⟨(c.step a).1, (c.step a).2.session.state, (c.step a).2.holding⟩

def run : List Act → Consumer σ → List Event
  | [], _ => []
  | a :: acts, c => c.event a :: run acts (c.step a).2

/-- What an act may come to. -/
inductive Outcome (c : Consumer σ) : Answer → Consumer σ → Prop
  | gone : Outcome c .gone c
  | taken : c.holding = .stream → Outcome c .taken { c with holding := .packets }
  | pulled : c.holding = .packets → Outcome c (.pulled c.session.next.1) { c with session := c.session.next.2 }
  | failed (e : TransferError) : c.holding = .packets → Outcome c (.failed e) { c with session := c.session.fail e }
  | dropped : c.holding ≠ .nothing → Outcome c .dropped ⟨c.session.abandon, .nothing⟩

theorem step_outcome (c : Consumer σ) (a : Act) : Outcome c (c.step a).1 (c.step a).2 := by
  cases a with
  | take =>
    simp only [step]
    split
    · exact .taken ‹_›
    · exact .gone
  | pull =>
    simp only [step]
    split
    · exact .pulled ‹_›
    · exact .gone
  | fail e =>
    simp only [step]
    split
    · exact .failed e ‹_›
    · exact .gone
  | drop =>
    simp only [step]
    split
    · exact .gone
    · exact .dropped ‹_›

variable {c d : Consumer σ} {x : Answer} {h : Header} {packets : σ} {past : List Event}

/-- An act closes an open session with what it says, and leaves a closed one as it is. -/
theorem Outcome.state_eq (ho : Outcome c x d) : d.session.state =
    if c.session.state = .unfinished then x.closing?.getD .unfinished else c.session.state := by
  cases ho with
  | gone => simp [Answer.closing?]
  | taken => simp [Answer.closing?]
  | failed e => exact Session.state_fail c.session e
  | dropped => exact Session.state_fail c.session .abandoned
  | pulled =>
    -- only a pull can complete the session, so what it brought decides
    have hcomes := c.session.comes
    generalize c.session.next = n at hcomes ⊢
    obtain ⟨delivery, s⟩ := n
    cases hcomes with
    | closed hs => rw [if_neg hs]
    | ended hs => rw [if_pos hs]; rfl
    | failed hs => rw [if_pos hs]; rfl
    | packet hs => rw [if_pos hs]; exact hs

theorem Outcome.session_eq (ho : Outcome c x d) (hs : c.session.state ≠ .unfinished) : d.session = c.session := by
  cases ho with
  | gone => rfl
  | taken => rfl
  | pulled => exact congrArg Prod.snd (Session.next_of_closed hs)
  | failed e => exact Session.settle_of_closed hs _
  | dropped => exact Session.settle_of_closed hs _

theorem Outcome.delivery_eq {delivery : Option Delivery} (ho : Outcome c (.pulled delivery) d)
    (hs : c.session.state ≠ .unfinished) : delivery = none := by
  cases ho with
  | pulled => exact congrArg Prod.fst (Session.next_of_closed hs)

theorem Outcome.released (ho : Outcome c x d) (hc : c.holding = .nothing → c.session.state ≠ .unfinished)
    (hd : d.holding = .nothing) : d.session.state ≠ .unfinished := by
  cases ho with
  | gone => exact hc hd
  | taken => cases hd
  | pulled hheld => cases hheld.symm.trans hd
  | failed e hheld => cases hheld.symm.trans hd
  | dropped =>
    have hstate := Session.state_fail c.session .abandoned
    split at hstate
    · simp [Session.abandon, hstate]
    · simpa [Session.abandon, hstate]

theorem Outcome.serves {q : List Sequence} (ho : Outcome c x d) (hs : Session.Serves packets h q c.session) :
    Session.Serves packets h (q ++ x.packet?.toList) d.session := by
  cases ho with
  | pulled => exact hs.next
  | gone => exact (List.append_nil q).symm ▸ hs
  | taken => exact (List.append_nil q).symm ▸ hs
  | failed e => exact (List.append_nil q).symm ▸ hs.fail e
  | dropped => exact (List.append_nil q).symm ▸ hs.fail .abandoned

/-- A closed session stays as it is. -/
theorem run_of_closed (hs : c.session.state ≠ .unfinished) (acts : List Act) :
    ∀ e ∈ run acts c, e.state = c.session.state ∧ ∀ d, e.answer = .pulled d → d = none := by
  induction acts generalizing c with
  | nil => simp [run]
  | cons a acts ih =>
    have ho := c.step_outcome a
    have hsame := ho.session_eq hs
    rw [run, List.forall_mem_cons]
    refine ⟨⟨congrArg Session.state hsame, fun d hd => ?_⟩, ?_⟩
    · have hanswer : (c.step a).1 = .pulled d := hd
      exact (hanswer ▸ ho).delivery_eq hs
    · rw [← hsame]
      exact ih (hsame ▸ hs)

/-- What past acts have come to. -/
structure Follows (h : Header) (packets : σ) (past : List Event) (c : Consumer σ) : Prop where
  state_eq : c.session.state = verdict past
  serves : Session.Serves packets h (pulled past) c.session
  released : c.holding = .nothing → c.session.state ≠ .unfinished

theorem follows_inbound (h : Header) (packets : σ) : Follows h packets [] (inbound h packets) :=
  ⟨rfl, Session.serves_inbound packets h, nofun⟩

theorem Follows.step (hf : Follows h packets past c) (a : Act) :
    Follows h packets (past ++ [c.event a]) (c.step a).2 := by
  have ho := c.step_outcome a
  refine ⟨?_, ?_, ho.released hf.released⟩
  · rw [verdict_append, ← hf.state_eq]
    exact ho.state_eq
  · rw [pulled_append]
    exact ho.serves hf.serves

/-- The packets that were pulled from a session that is complete are those that its header lists. -/
theorem Follows.listed (hf : Follows h packets past c) (hc : c.session.state = .completed) :
    Listed 0 h.hashes (pulled past) :=
  Verified.listed_of_drains (Session.drains_packets (hf.serves.drains hc) rfl) rfl

theorem Follows.exact (hf : Follows h packets past c) (a : Act) (acts : List Act) :
    Exact h past (c.event a) (run acts (c.step a).2) := by
  have hnext := hf.step a
  have hlisted (hc : (c.event a).state = .completed) : Listed 0 h.hashes (pulled (past ++ [c.event a])) :=
    hnext.listed hc
  have hplace (hc : (c.event a).state = .completed) (i : Nat) (p : Sequence)
      (hp : (pulled (past ++ [c.event a]))[i]? = some p) : p.number = UInt32.ofNat i ∧ h.hashes[i]? = some p.hash := by
    have hat := (hlisted hc).of_getElem? hp
    rwa [Nat.zero_add] at hat
  refine ⟨hnext.state_eq, fun hs => run_of_closed hs acts, ?_, fun hc => ⟨?_, hplace hc⟩, ?_, hnext.released⟩
  · rw [← verdict_eq_completed_iff, ← hnext.state_eq]
    rfl
  · exact (hlisted hc).length_eq.symm
  · intro hc hmax i p hp
    have hplaced := hplace hc i p hp
    have hi : i < h.chunkCount := (List.getElem?_eq_some_iff.mp hplaced.2).1
    exact (Header.verify_iff (Nat.lt_of_lt_of_le hi hmax)).mp hplaced

/-- Every act on an inbound session is answered exactly, whatever its packets are and whatever is done before and
after. -/
theorem run_exact (h : Header) (packets : σ) (acts : List Act) : Throughout (Exact h) (run acts (inbound h packets)) :=
  ⟨Throughout.at_each_of_steps run event (fun c a => (c.step a).2) (fun _ => rfl) (fun _ _ _ => rfl)
    (Follows h packets) (Exact h) Follows.step Follows.exact (follows_inbound h packets) acts⟩

-- The end of the packets came first, and it stands.
example : (run [.take, .pull, .fail .streamBroken, .drop] (inbound Header.terminator ([] : List Delivery))).map
    Event.state = [.unfinished, .completed, .completed, .completed] := rfl

end Consumer
end ChunkRelay
