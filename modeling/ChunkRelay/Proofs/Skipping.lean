import ChunkRelay.Proofs.Parsing
import ChunkRelay.Proofs.Receiving

/-! Sessions that are not read to their end. However often a session is pulled, and whatever is wrong with
its packets, the next one is found where it begins on the stream. -/
namespace ChunkRelay

open PacketFeed

/-- What `n` pulls bring, one after another. -/
def PacketFeed.pullTimes {σ : Type} [PacketFeed σ] : Nat → σ → List (Option Delivery) × σ
  | 0, s => ([], s)
  | n + 1, s =>
    let (d, s) := PacketFeed.next s
    let (l, s) := pullTimes n s
    (d :: l, s)

/-! Packets against the hashes in whose places they come, numbered from `k` on. -/
namespace Sequence

/-- What is wrong with a packet where chunk `k` is due. -/
def refusal? (k : Nat) (hash : Hash) (p : Sequence) : Option TransferError :=
  if p.number ≠ UInt32.ofNat k then some (.outOfOrder (UInt32.ofNat k) p.number)
  else if p.hash ≠ hash then some (.integrity p.number)
  else none

/-- The packets before the first one that is refused. -/
def leading (k : Nat) (hashes : List Hash) (q : List Sequence) : List Sequence :=
  (((q.zip hashes).zipIdx k).takeWhile fun x => (refusal? x.2 x.1.2 x.1.1).isNone).map fun x => x.1.1

/-- What is wrong with the first one that is refused. -/
def firstRefusal? (k : Nat) (hashes : List Hash) (q : List Sequence) : Option TransferError :=
  ((q.zip hashes).zipIdx k).findSome? fun x => refusal? x.2 x.1.2 x.1.1

/-- The leading packets, then what is wrong with the next one. -/
def deliveries (k : Nat) (hashes : List Hash) (q : List Sequence) : List Delivery :=
  (leading k hashes q).map .ok ++ (firstRefusal? k hashes q).toList.map .error

/-- What `n` pulls bring of packets, and nothing where there is no more of them. -/
def pulled (k : Nat) (hashes : List Hash) (q : List Sequence) (n : Nat) : List (Option Delivery) :=
  (((deliveries k hashes q).map some).take n).rightpad n none

variable {k : Nat} {hash : Hash} {hashes : List Hash} {p : Sequence} {q : List Sequence}

theorem leading_of_right (h : refusal? k hash p = none) :
    leading k (hash :: hashes) (p :: q) = p :: leading (k + 1) hashes q := by
  simp [leading, h]

theorem leading_of_refusal {e : TransferError} (h : refusal? k hash p = some e) :
    leading k (hash :: hashes) (p :: q) = [] := by
  simp [leading, h]

theorem firstRefusal?_of_right (h : refusal? k hash p = none) :
    firstRefusal? k (hash :: hashes) (p :: q) = firstRefusal? (k + 1) hashes q := by
  simp [firstRefusal?, h]

theorem firstRefusal?_of_refusal {e : TransferError} (h : refusal? k hash p = some e) :
    firstRefusal? k (hash :: hashes) (p :: q) = some e := by
  simp [firstRefusal?, h]

@[simp] theorem pulled_zero : pulled k hashes q 0 = [] := by
  simp [pulled, List.rightpad]

@[simp] theorem pulled_nil (n : Nat) : pulled k [] [] n = List.replicate n none := by
  simp [pulled, deliveries, leading, firstRefusal?, List.rightpad]

theorem pulled_of_right (h : refusal? k hash p = none) (n : Nat) :
    pulled k (hash :: hashes) (p :: q) (n + 1) = some (.ok p) :: pulled (k + 1) hashes q n := by
  simp [pulled, deliveries, leading_of_right h, firstRefusal?_of_right h, List.rightpad]

theorem pulled_of_refusal {e : TransferError} (h : refusal? k hash p = some e) (n : Nat) :
    pulled k (hash :: hashes) (p :: q) (n + 1) = some (.error e) :: List.replicate n none := by
  simp [pulled, deliveries, leading_of_refusal h, firstRefusal?_of_refusal h, List.rightpad]

end Sequence

open Sequence (refusal? pulled)

theorem Verified.check_cons {σ : Type} (s : σ) (k : Nat) (hash : Hash) (hashes : List Hash) (p : Sequence) :
    (⟨s, hash :: hashes, k, false⟩ : Verified σ).check p =
      (refusal? k hash p).elim (.ok hashes) .error := by
  unfold check refusal?
  by_cases hn : p.number = UInt32.ofNat k
  · by_cases hh : p.hash = hash
    · simp [hn, hh]
    · simp [hn, hh]
  · simp [hn]

namespace Session

variable {σ : Type} [PacketFeed σ]

/-- A session that is closed brings nothing more and pulls nothing more. -/
theorem next_of_closed {s : Session σ} (hs : s.state ≠ .unfinished) : PacketFeed.next s = (none, s) := by
  simp [next, isOpen, hs]

theorem pullTimes_of_closed {s : Session σ} (hs : s.state ≠ .unfinished) (n : Nat) :
    pullTimes n s = (List.replicate n none, s) := by
  induction n with
  | zero => rfl
  | succ n ih => simp only [pullTimes, next_of_closed hs, ih, List.replicate_succ]

end Session

namespace Inbox

variable {i : Inbox} {l : List Packet} {r : Bytes}

/-- What pulls leave of the packets of a session is still to be read, and nothing else is. -/
theorem pullTimes_of_awaits {q : List Sequence} {hashes : List Hash} {k : Nat} (hlen : q.length = hashes.length)
    (hi : i.Awaits q.length (q.map .sequence ++ l) r) (h : Header) (last : Bool) (n : Nat) :
    ∃ (s : Session Inbox) (q' : List Sequence),
      pullTimes n (⟨h, ⟨i, hashes, k, false⟩, last, .unfinished⟩ : Session Inbox) = (pulled k hashes q n, s) ∧
        s.packets.inner.Awaits q'.length (q'.map .sequence ++ l) r := by
  induction n generalizing i q hashes k with
  | zero => exact ⟨_, q, by rw [Sequence.pulled_zero]; rfl, hi⟩
  | succ n ih =>
    cases q with
    | nil =>
      obtain rfl : hashes = [] := List.length_eq_zero_iff.mp hlen.symm
      have hn : PacketFeed.next i = (none, i) := by simp [PacketFeed.next, hi.pending_eq]
      have hnext : PacketFeed.next (⟨h, ⟨i, [], k, false⟩, last, .unfinished⟩ : Session Inbox) =
          (none, ⟨h, ⟨i, [], k, true⟩, last, .completed⟩) := by
        simp [Session.next, Session.isOpen, Verified.next, hn, Session.settle]
      have hrest := Session.pullTimes_of_closed
        (s := (⟨h, ⟨i, [], k, true⟩, last, .completed⟩ : Session Inbox)) (by simp) n
      refine ⟨⟨h, ⟨i, [], k, true⟩, last, .completed⟩, [], ?_, hi⟩
      rw [pullTimes, hnext, Sequence.pulled_nil]
      simp only [hrest, List.replicate_succ]
    | cons p q =>
      cases hashes with
      | nil => cases hlen
      | cons hash hashes =>
        obtain ⟨j, hn, hj⟩ := readChunk_of_awaits hi
        cases hp : refusal? k hash p with
        | some e =>
          have hnext : PacketFeed.next (⟨h, ⟨i, hash :: hashes, k, false⟩, last, .unfinished⟩ : Session Inbox) =
              (some (.error e), ⟨h, ⟨j, hash :: hashes, k, true⟩, last, .failed e.message⟩) := by
            simp [Session.next, Session.isOpen, Verified.next, hn, Verified.check_cons, hp, Session.fail,
              Session.settle]
          have hrest := Session.pullTimes_of_closed
            (s := (⟨h, ⟨j, hash :: hashes, k, true⟩, last, .failed e.message⟩ : Session Inbox)) (by simp) n
          refine ⟨⟨h, ⟨j, hash :: hashes, k, true⟩, last, .failed e.message⟩, q, ?_, hj⟩
          rw [pullTimes, hnext, Sequence.pulled_of_refusal hp]
          simp only [hrest]
        | none =>
          have hnext : PacketFeed.next (⟨h, ⟨i, hash :: hashes, k, false⟩, last, .unfinished⟩ : Session Inbox) =
              (some (.ok p), ⟨h, ⟨j, hashes, k + 1, false⟩, last, .unfinished⟩) := by
            simp [Session.next, Session.isOpen, Verified.next, hn, Verified.check_cons, hp]
          obtain ⟨s, q', hrest, hs⟩ := ih (k := k + 1) (Nat.succ.inj hlen) hj
          refine ⟨s, q', ?_, hs⟩
          rw [pullTimes, hnext, Sequence.pulled_of_right hp]
          simp only [hrest]

/-- What a session left unread is passed over. -/
theorem skip_of_awaits {q : List Sequence} (hi : i.Awaits q.length (q.map .sequence ++ l) r) :
    ∃ j, i.skip q.length = (.ok (), j) ∧ j.Awaits 0 l r := by
  induction q generalizing i with
  | nil => exact ⟨i, rfl, hi⟩
  | cons p q ih =>
    obtain ⟨j, hn, hj⟩ := readChunk_of_awaits hi
    obtain ⟨j', hskip, hj'⟩ := ih hj
    have hpending : i.pending ≠ 0 := by
      rw [hi.pending_eq]
      exact Nat.succ_ne_zero _
    have hread : i.readChunk = (.ok p, j) := by
      simpa [PacketFeed.next, hpending, Prod.ext_iff] using hn
    refine ⟨j', ?_, hj'⟩
    simp only [List.length_cons, skip, hpending, if_false, hread, hskip]

/-- The next header is looked for behind what the session before left unread. -/
theorem nextHeader_of_unread {q : List Sequence} (hi : i.Awaits q.length (q.map .sequence ++ l) r) :
    ∃ j : Inbox, i.nextHeader = j.nextHeader ∧ j.Awaits 0 l r := by
  obtain ⟨j, hskip, hj⟩ := skip_of_awaits hi
  refine ⟨j, ?_, hj⟩
  rw [nextHeader_eq_readHeader hj]
  simp [nextHeader, hi.not_finished, hi.pending_eq, hskip, hj.not_broken]

/-- An end-of-stream header of any kind ends a batch once and for all. -/
theorem nextHeader_of_ending {e : Header} (he : e.Sound) (heos : e.endOfStream = true)
    (hi : i.Awaits 0 (.header e :: l) r) :
    ∃ j, i.nextHeader = (.ok none, j) ∧ j.finished = true := by
  obtain ⟨c, hstream, hrest⟩ := hi.stream
  obtain ⟨s, c', hread, hsize, -⟩ := Packet.readTyped_of_payload hi.steady hstream hrest
  have hpayload : Packet.ofPayload (Packet.header e).type (Packet.header e).payload = .ok (.header e.received) :=
    Packet.ofPayload_header he.ofRaw_raw hsize
  have hreceived : e.received.endOfStream = true := heos
  rw [hpayload] at hread
  refine ⟨{ i with source := s, finished := true }, ?_, rfl⟩
  rw [nextHeader_eq_readHeader hi]
  simp [readHeader, hread, hreceived]

/-! Reading a batch. -/

/-- Takes the next session, pulls its packets `n` times and lets it go. -/
def readSession (n : Nat) (i : Inbox) :
    Except TransferError (Option (Header × List (Option Delivery))) × Inbox :=
  match i.nextHeader with
  | (.error e, i) => (.error e, i)
  | (.ok none, i) => (.ok none, i)
  | (.ok (some h), i) =>
    let (l, s) := pullTimes n (Session.inbound h i)
    (.ok (some (h, l)), s.packets.inner)

/-- Takes one session after another, each with its own number of pulls. -/
def readSessions : List Nat → Inbox → List (Except TransferError (Option (Header × List (Option Delivery))))
  | [], _ => []
  | n :: counts, i =>
    let (result, i) := i.readSession n
    result :: readSessions counts i

theorem readSessions_of_finished (hi : i.finished = true) (counts : List Nat) :
    readSessions counts i = List.replicate counts.length (.ok none) := by
  induction counts with
  | nil => rfl
  | cons n counts ih =>
    have hn : i.readSession n = (.ok none, i) := by simp [readSession, nextHeader, hi]
    simp only [readSessions, hn, ih, List.length_cons, List.replicate_succ]

/-- A session on a stream: its header and its packets. -/
def onStream (x : Header × List Sequence) : List Packet := .header x.1 :: x.2.map .sequence

/-- Headers as they are parsed, each with as many packets as it lists, whatever these are. -/
def Whole (l : List (Header × List Sequence)) : Prop :=
  ∀ x ∈ l, x.1.Parsed ∧ x.1.endOfStream = false ∧ x.2.length = x.1.chunkCount

theorem readSessions_of_awaits {l : List (Header × List Sequence)} (hl : Whole l) {e : Header} (he : e.Sound)
    (heos : e.endOfStream = true) {q : List Sequence}
    (hi : i.Awaits q.length (q.map .sequence ++ (l.flatMap onStream ++ [.header e])) r) (counts : List Nat) :
    readSessions counts i =
      (l.zip counts).map (fun (x, n) => .ok (some (x.1, pulled 0 x.1.hashes x.2 n))) ++
        List.replicate (counts.length - l.length) (.ok none) := by
  induction counts generalizing i l q with
  | nil => simp [readSessions]
  | cons n counts ih =>
    obtain ⟨j, hnext, hj⟩ := nextHeader_of_unread hi
    cases l with
    | nil =>
      obtain ⟨j', hend, hfinished⟩ := nextHeader_of_ending he heos hj
      have hn : i.readSession n = (.ok none, j') := by simp [readSession, hnext, hend]
      simp [readSessions, hn, readSessions_of_finished hfinished, List.replicate_succ]
    | cons x l =>
      obtain ⟨hc, hx, hlen⟩ := hl x List.mem_cons_self
      have hrest : Whole l := fun y hy => hl y (List.mem_cons_of_mem x hy)
      have hstream : (x :: l).flatMap onStream ++ [.header e] =
          .header x.1 :: (x.2.map .sequence ++ (l.flatMap onStream ++ [.header e])) := by
        simp [onStream]
      rw [hstream] at hj
      obtain ⟨j', hheader, hj'⟩ := nextHeader_of_awaits hc.canonical hx hj
      rw [← hlen] at hj'
      obtain ⟨s, q', hpull, hs⟩ := pullTimes_of_awaits (k := 0) hlen hj' x.1 x.1.endOfStream n
      have hn : i.readSession n = (.ok (some (x.1, pulled 0 x.1.hashes x.2 n)), s.packets.inner) := by
        simp only [readSession, hnext, hheader]
        rw [Session.inbound, Session.withPackets, Verified.new, hpull]
      simp only [readSessions, hn, ih hrest hs, List.zip_cons_cons, List.map_cons, List.cons_append,
        List.length_cons, Nat.add_sub_add_right]

/-- Sessions on a stream come one after another, each with its header and with its packets up to the first
that is refused, as far as they are pulled; and then the end of the batch. -/
theorem readSessions_of_writes {l : List (Header × List Sequence)} (hl : Whole l) {e : Header} (he : e.Made)
    (heos : e.endOfStream = true) {w : Sink}
    (hw : Packet.Writes (l.flatMap onStream ++ [.header e]) Sink.empty w) {s : Source} (hs : s.Steady)
    (hpos : s.pos = 0) {r : Bytes} (hbytes : s.bytes = w.accepted ++ r) (counts : List Nat) :
    readSessions counts (Inbox.new s) =
      (l.zip counts).map (fun (x, n) => .ok (some (x.1, pulled 0 x.1.hashes x.2 n))) ++
        List.replicate (counts.length - l.length) (.ok none) := by
  obtain ⟨b, hstream, rfl⟩ := Packet.stream_of_writes ⟨rfl, rfl⟩ hw
  rw [Sink.accepted_grow_empty] at hbytes
  have hi := awaits_new hs hpos hstream hbytes
  exact readSessions_of_awaits (q := []) hl he.sound heos hi counts

/-- A session with a packet that has no place in it, and one without packets. -/
theorem readSessions_of_misplaced :
    let g := Outgoing.note.draft.header
    let h := { g with hashes := [default] }
    ∃ w, Packet.Writes ([(h, [Sequence.ofChunk 5 ⟨#[7, 8]⟩]), (g, [])].flatMap onStream ++
        [.header Header.terminator]) Sink.empty w ∧
      readSessions [3, 0, 1] (Inbox.new (.ofBytes (w.accepted ++ ⟨#[9]⟩))) =
        [.ok (some (h, [some (.error (.outOfOrder 0 5)), none, none])), .ok (some (g, [])), .ok none] := by
  intro g h
  have hg : g.Parsed :=
    (Header.canonical_of_build (d := Outgoing.note.draft) rfl (by decide) (by decide)).parsed (by decide)
  have hh : h.Parsed :=
    (Header.canonical_of_build (d := { Outgoing.note.draft with hashes := [default] }) rfl (by decide)
      (by decide)).parsed (by decide)
  have hl : Whole [(h, [Sequence.ofChunk 5 ⟨#[7, 8]⟩]), (g, [])] := by
    intro x hx
    simp only [List.mem_cons, List.not_mem_nil, or_false] at hx
    rcases hx with rfl | rfl
    · exact ⟨hh, rfl, rfl⟩
    · exact ⟨hg, rfl, rfl⟩
  have hfits : ∀ p ∈ [(h, [Sequence.ofChunk 5 ⟨#[7, 8]⟩]), (g, [])].flatMap onStream ++
      [.header Header.terminator], p.payload.size ≤ Frame.maxLength := by decide
  obtain ⟨w, hw⟩ := Packet.exists_writes hfits (w := Sink.empty) ⟨rfl, rfl⟩
  exact ⟨w, hw, readSessions_of_writes hl .terminator rfl hw (Source.steady_ofBytes _) rfl rfl [3, 0, 1]⟩

end Inbox
end ChunkRelay
