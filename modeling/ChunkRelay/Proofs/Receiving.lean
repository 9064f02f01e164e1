import ChunkRelay.Proofs.Sending

/-! Batches over a byte stream. What was written of sessions, one after another, is received as the same
sessions in the same order, and nothing of what stands behind them on the stream is touched. -/
namespace ChunkRelay

open PacketFeed

namespace Inbox

/-- An inbox with `k` chunks of a session to go before whose source the packets `l` stand, and `r` after
them. -/
structure Awaits (i : Inbox) (k : Nat) (l : List Packet) (r : Bytes) : Prop where
  pending_eq : i.pending = k
  not_broken : i.broken = false
  not_finished : i.finished = false
  steady : i.source.Steady
  stream : ∃ c, Packet.Stream l c ∧ i.source.rest = c ++ r

variable {i : Inbox} {k : Nat} {l : List Packet} {r : Bytes}

/-- A new inbox awaits what stands first in its source. -/
theorem awaits_new {s : Source} (hs : s.Steady) (hpos : s.pos = 0) {b : Bytes} (hl : Packet.Stream l b)
    (hbytes : s.bytes = b ++ r) : (new s).Awaits 0 l r :=
  ⟨rfl, rfl, rfl, hs, b, hl, (Source.rest_of_start hpos).trans hbytes⟩

theorem readChunk_of_awaits {p : Sequence} (h : i.Awaits (k + 1) (.sequence p :: l) r) :
    ∃ i', PacketFeed.next i = (some (.ok p), i') ∧ i'.Awaits k l r := by
  obtain ⟨c, hc, hrest⟩ := h.stream
  obtain ⟨s, c', hread, hs, hc', hrest'⟩ :=
    Packet.readTyped_of_stream h.steady (Packet.faithful_sequence p) hc hrest
  have hpending : i.pending ≠ 0 := by
    rw [h.pending_eq]
    exact Nat.succ_ne_zero k
  refine ⟨{ i with source := s, pending := i.pending - 1 }, ?_, ?_, h.not_broken, h.not_finished, hs, c',
    hc', hrest'⟩
  · simp [PacketFeed.next, hpending, readChunk, h.not_broken, hread]
  · rw [h.pending_eq]
    rfl

/-- The chunks that are pending are pulled off the stream, and no more. -/
theorem drains_of_awaits {q : List Sequence} (h : i.Awaits q.length (q.map .sequence ++ l) r) :
    ∃ i', Drains i q i' ∧ i'.Awaits 0 l r := by
  induction q generalizing i with
  | nil =>
    refine ⟨i, runs_nil_iff.mpr ?_, h⟩
    simp [PacketFeed.next, h.pending_eq]
  | cons p q ih =>
    obtain ⟨j, hn, hj⟩ := readChunk_of_awaits h
    obtain ⟨i', hd, hi'⟩ := ih hj
    exact ⟨i', runs_cons_iff.mpr ⟨j, hn, hd⟩, hi'⟩

theorem nextHeader_eq_readHeader (h : i.Awaits 0 l r) : i.nextHeader = i.readHeader := by
  simp [nextHeader, h.not_finished, h.pending_eq, skip, h.not_broken]

/-- A header is received as its record is decoded. -/
theorem nextHeader_of_record {h g : Header} (hr : Header.ofRaw h.raw = .ok g) (he : g.endOfStream = false)
    (hi : i.Awaits 0 (.header h :: l) r) :
    ∃ i', i.nextHeader = (.ok (some g), i') ∧ i'.Awaits g.chunkCount l r := by
  obtain ⟨c, hstream, hrest⟩ := hi.stream
  obtain ⟨s, c', hread, hsize, hsteady, hc', hrest'⟩ := Packet.readTyped_of_payload hi.steady hstream hrest
  have hpayload : Packet.ofPayload (Packet.header h).type (Packet.header h).payload = .ok (.header g) :=
    Packet.ofPayload_header hr hsize
  rw [hpayload] at hread
  refine ⟨{ i with source := s, pending := g.chunkCount }, ?_, rfl, hi.not_broken, hi.not_finished, hsteady, c',
    hc', hrest'⟩
  simp [nextHeader_eq_readHeader hi, readHeader, hread, he]

theorem nextHeader_of_awaits {h : Header} (hc : h.Canonical) (he : h.endOfStream = false)
    (hi : i.Awaits 0 (.header h :: l) r) :
    ∃ i', i.nextHeader = (.ok (some h), i') ∧ i'.Awaits h.chunkCount l r :=
  nextHeader_of_record (Header.ofRaw_raw hc) he hi

/-- The end of a batch is found once and for all. -/
theorem nextHeader_of_terminator (hi : i.Awaits 0 [.header Header.terminator] r) :
    ∃ i', i.nextHeader = (.ok none, i') ∧ i'.nextHeader = (.ok none, i') ∧ i'.source.rest = r := by
  obtain ⟨c, hstream, hrest⟩ := hi.stream
  obtain ⟨s, c', hread, hs, hc', hrest'⟩ := Packet.readTyped_of_stream hi.steady
    (Packet.faithful_header Header.canonical_terminator) hstream hrest
  cases hc' with
  | nil =>
    rw [ByteArray.empty_append] at hrest'
    refine ⟨{ i with source := s, finished := true }, ?_, ?_, hrest'⟩
    · rw [nextHeader_eq_readHeader hi]
      simp [readHeader, hread, Header.terminator]
    · simp [nextHeader]

end Inbox

/-- A session with a feed of some kind. -/
structure Outgoing where
  feed : Type
  [pulls : PacketFeed feed]
  session : Session feed

namespace Outgoing

instance (o : Outgoing) : PacketFeed o.feed := o.pulls

def header (o : Outgoing) : Header := o.session.header

/-- The session sends the message, with its body from memory, from a file, or as packets. -/
inductive Sends (m : Message) (last : Bool) : Outgoing → Prop
  | bytes {body : Bytes} {threshold : Nat} {s : Session (List Delivery)} :
      Session.ofBytes m body threshold last = .ok s → Sends m last ⟨_, s⟩
  | file {disk : Disk} {path : String} {threshold : Nat} {s : Session (ChunkReader Source)} :
      Session.ofFile m disk path threshold last = .ok s → Sends m last ⟨_, s⟩
  | packets {φ : Type} [PacketFeed φ] {packets : φ} {toDisk : Bool} {s : Session φ} :
      Session.outbound m packets last toDisk = .ok s → Sends m last ⟨_, s⟩

/-- Sessions of which the last one, and no other, closes the batch. Their messages have a media type and
no empty signature. -/
inductive Batch : List Outgoing → Prop
  | last {o : Outgoing} {m : Message} :
      m.mime ≠ "" → m.signature ≠ some ByteArray.empty → Sends m true o → Batch [o]
  | cons {o : Outgoing} {m : Message} {l : List Outgoing} :
      m.mime ≠ "" → m.signature ≠ some ByteArray.empty → Sends m false o → Batch l → Batch (o :: l)

/-- Writing the sessions one after another succeeds with these counts. -/
inductive Written : List Outgoing → Sink → List Nat → Sink → Prop
  | nil {w : Sink} : Written [] w [] w
  | cons {o : Outgoing} {l : List Outgoing} {w w₁ w' : Sink} {n : Nat} {counts : List Nat}
      {s : Session o.feed} :
      o.session.writeTo w = (.ok n, s, w₁) → Written l w₁ counts w' → Written (o :: l) w (n :: counts) w'

/-- An inbox yields the sessions one after another: each comes with its header, is drained of the packets
that the sender's session drains of, and is then completed. -/
inductive Received : List Outgoing → Inbox → Inbox → Prop
  | nil {i : Inbox} : Received [] i i
  | cons {o : Outgoing} {l : List Outgoing} {i j i' : Inbox} {q : List Sequence} {t : Session o.feed}
      {s : Session Inbox} :
      i.nextHeader = (.ok (some o.header), j) → Drains o.session q t →
      Drains (Session.inbound o.header j) q s → s.state = .completed →
      Received l s.packets.inner i' → Received (o :: l) i i'

theorem outbound_of_sends {m : Message} {last : Bool} {o : Outgoing} (h : Sends m last o) :
    ∃ packets toDisk, Session.outbound m (packets : o.feed) last toDisk = .ok o.session := by
  cases h with
  | @bytes body threshold s h =>
    unfold Session.ofBytes at h
    split at h
    · cases h
    · exact ⟨_, _, h⟩
  | @file disk path threshold s h =>
    unfold Session.ofFile at h
    split at h
    · unfold Session.ofSource at h
      split at h
      · cases h
      · exact ⟨_, _, h⟩
    · cases h
    · cases h
  | packets h => exact ⟨_, _, h⟩

/-- A session that sends a message begins with a header that can be read back. -/
theorem withPackets_of_sends {m : Message} {last : Bool} {o : Outgoing} (hm : m.mime ≠ "")
    (hs : m.signature ≠ some ByteArray.empty) (h : Sends m last o) :
    ∃ packets : o.feed, o.session = Session.withPackets o.header packets last ∧ o.header.Canonical ∧
      o.header.endOfStream = false := by
  obtain ⟨packets, toDisk, hout⟩ := outbound_of_sends h
  unfold Session.outbound at hout
  split at hout
  · cases hout
  · rename_i h' hbuild
    have hsession := Except.ok.inj hout
    have hheader : o.header = h' := by rw [header, ← hsession]; rfl
    rw [hheader]
    refine ⟨packets, hsession.symm, ?_, by rw [(Header.of_build hbuild).1]; rfl⟩
    exact Header.canonical_of_build hbuild (fun he => hm (Option.some.inj he)) hs

/-- What is written of a session: its packets, of which there are as many as its header lists. -/
theorem stream_of_writeTo {o : Outgoing} {packets : o.feed} {last : Bool}
    (ho : o.session = Session.withPackets o.header packets last) {w w' : Sink} (hw : w.Unfailing) {n : Nat}
    {t : Session o.feed} (hwrite : o.session.writeTo w = (.ok n, t, w')) :
    ∃ q t b, Drains o.session q t ∧ Listed 0 o.header.hashes q ∧ n = o.header.chunkCount ∧
      Packet.Stream (Session.packetsOf o.header last q) b ∧ w' = w.grow b := by
  rw [ho] at hwrite ⊢
  obtain ⟨q, v, b, hd, rfl, hstream, rfl, rfl⟩ := Session.drains_of_writeTo hw hwrite
  have hl : Listed 0 o.header.hashes q := Verified.listed_of_drains hd rfl
  exact ⟨q, _, b, Session.runs_of_verified hd o.header last, hl, hl.length_eq.symm, hstream, rfl⟩

/-- A session on a stream is received with its header as its record is decoded, and the inbox is left at what
stands after it. -/
theorem receive_of_record {h g : Header} (hr : Header.ofRaw h.raw = .ok g) (he : g.endOfStream = false)
    {q : List Sequence} (hq : Listed 0 g.hashes q) {i : Inbox} {l : List Packet} {r : Bytes}
    (hi : i.Awaits 0 (.header h :: (q.map .sequence ++ l)) r) :
    ∃ j s, i.nextHeader = (.ok (some g), j) ∧ Drains (Session.inbound g j) q s ∧ s.state = .completed ∧
      s.packets.inner.Awaits 0 l r := by
  obtain ⟨j, hnext, hj⟩ := Inbox.nextHeader_of_record hr he hi
  rw [Header.chunkCount, hq.length_eq] at hj
  obtain ⟨i', hd, hi'⟩ := Inbox.drains_of_awaits hj
  have hverified : Drains (Verified.new g j) q ⟨i', [], 0 + q.length, true⟩ := Verified.drains_of_listed hd hq
  exact ⟨j, _, hnext, Session.runs_of_verified hverified g g.endOfStream, rfl, hi'⟩

theorem receive_of_awaits {h : Header} (hc : h.Canonical) (he : h.endOfStream = false) {q : List Sequence}
    (hq : Listed 0 h.hashes q) {i : Inbox} {l : List Packet} {r : Bytes}
    (hi : i.Awaits 0 (.header h :: (q.map .sequence ++ l)) r) :
    ∃ j s, i.nextHeader = (.ok (some h), j) ∧ Drains (Session.inbound h j) q s ∧ s.state = .completed ∧
      s.packets.inner.Awaits 0 l r :=
  receive_of_record (Header.ofRaw_raw hc) he hq hi

/-- A batch that is written is received session by session, up to its end. -/
theorem received_of_written {l : List Outgoing} (hl : Batch l) {w w' : Sink} (hw : w.Unfailing)
    {counts : List Nat} (hwrite : Written l w counts w') :
    counts = l.map (fun o => o.header.chunkCount) ∧ ∃ packets b, Packet.Stream packets b ∧ w' = w.grow b ∧
      ∀ (i : Inbox) (r : Bytes), i.Awaits 0 packets r →
        ∃ i', Received l i i' ∧ i'.Awaits 0 [.header Header.terminator] r := by
  induction hl generalizing w counts with
  | @last o m hm hs hsends =>
    obtain ⟨packets, ho, hc, he⟩ := withPackets_of_sends hm hs hsends
    cases hwrite with
    | cons hfirst hrest =>
      cases hrest with
      | nil =>
        obtain ⟨q, t, b, hd, hq, hn, hstream, rfl⟩ := stream_of_writeTo ho hw hfirst
        refine ⟨by rw [hn, List.map_singleton], _, b, hstream, rfl, fun i r hi => ?_⟩
        rw [Session.packetsOf_last he] at hi
        obtain ⟨j, s, hnext, hdrain, hstate, hs⟩ := receive_of_awaits hc he hq hi
        exact ⟨_, .cons hnext hd hdrain hstate .nil, hs⟩
  | @cons o m l hm hs hsends _ ih =>
    obtain ⟨packets, ho, hc, he⟩ := withPackets_of_sends hm hs hsends
    cases hwrite with
    | cons hfirst hrest =>
      obtain ⟨q, t, b, hd, hq, hn, hstream, rfl⟩ := stream_of_writeTo ho hw hfirst
      obtain ⟨hcounts, packets', c, hstream', rfl, hreceive⟩ := ih (hw.grow b) hrest
      refine ⟨by rw [hn, hcounts, List.map_cons], _, _, hstream.append hstream', by rw [Sink.grow_grow],
        fun i r hi => ?_⟩
      rw [Session.packetsOf_not_last, List.cons_append] at hi
      obtain ⟨j, s, hnext, hdrain, hstate, hs⟩ := receive_of_awaits hc he hq hi
      obtain ⟨i', hreceived, hi'⟩ := hreceive _ r hs
      exact ⟨i', .cons hnext hd hdrain hstate hreceived, hi'⟩

/-- A batch survives the byte stream, whatever follows it there and however few bytes each read hands
out: every session is received as it was sent, then the end of the batch is found and stays, and what
follows is left unread. -/
theorem received_of_batch {l : List Outgoing} (hl : Batch l) {counts : List Nat} {w : Sink}
    (hwrite : Written l Sink.empty counts w) {s : Source} (hs : s.Steady) (hpos : s.pos = 0) {r : Bytes}
    (hbytes : s.bytes = w.accepted ++ r) :
    counts = l.map (fun o => o.header.chunkCount) ∧
      ∃ i i', Received l (Inbox.new s) i ∧ i.nextHeader = (.ok none, i') ∧
        i'.nextHeader = (.ok none, i') ∧ i'.source.rest = r := by
  obtain ⟨hcounts, packets, b, hstream, rfl, hreceive⟩ := received_of_written hl ⟨rfl, rfl⟩ hwrite
  have hrest : s.rest = b ++ r := by
    rw [Source.rest, hpos, ByteArray.extract_zero_size, hbytes, Sink.grow, Sink.empty, ByteArray.empty_append]
  obtain ⟨i, hreceived, hi⟩ := hreceive (Inbox.new s) r ⟨rfl, rfl, rfl, hs, b, hstream, hrest⟩
  obtain ⟨i', hend, hagain, hunread⟩ := Inbox.nextHeader_of_terminator hi
  exact ⟨hcounts, i, i', hreceived, hend, hagain, hunread⟩

/-- A message without a body. -/
def note : Message where
  contentKey := default
  recipient := none
  sender := none
  application := "chat"
  signature := none
  sessionId := 1
  blockSize := 4
  mime := "text/plain"
  extension := "txt"
  userFilename := none
  hashes := []
  body := .inline ByteArray.empty

def ofNote (last : Bool) : Outgoing := ⟨List Delivery, Session.withPackets note.draft.header [] last⟩

/-- Three bytes in two chunks. -/
def letterChunks : List Sequence := [.ofChunk 0 ⟨#[7, 8]⟩, .ofChunk 1 ⟨#[9]⟩]

/-- A message with the three bytes as its body. -/
def letter : Message :=
  { note with blockSize := 2, hashes := letterChunks.map Sequence.hash, body := .inline ⟨#[7, 8, 9]⟩ }

def ofLetter (last : Bool) : Outgoing :=
  ⟨List Delivery, Session.withPackets letter.draft.header (letterChunks.map .ok) last⟩

/-- A message without a body, and then one with two chunks. -/
def noteAndLetter : List Outgoing := [ofNote false, ofLetter true]

theorem batch_noteAndLetter : Batch noteAndLetter := by
  have hnote : Session.ofBytes note ByteArray.empty 8 false = .ok (ofNote false).session := rfl
  have hletter : Session.ofBytes letter ⟨#[7, 8, 9]⟩ 8 true = .ok (ofLetter true).session := rfl
  exact .cons (by decide) (by decide) (.bytes hnote) (.last (by decide) (by decide) (.bytes hletter))

/-- What the two are written as. -/
theorem written_noteAndLetter :
    ∃ b, Packet.Stream [.header note.draft.header, .header letter.draft.header, .sequence (.ofChunk 0 ⟨#[7, 8]⟩),
        .sequence (.ofChunk 1 ⟨#[9]⟩), .header Header.terminator] b ∧
      Written noteAndLetter Sink.empty [0, 2] (Sink.empty.grow b) := by
  have hnone : Drains (Verified.new note.draft.header ([] : List Delivery)) [] _ :=
    Verified.drains_of_listed (drains_list []) .nil
  have hchunks : Drains (Verified.new letter.draft.header (letterChunks.map .ok : List Delivery)) letterChunks _ :=
    Verified.drains_of_listed (drains_list letterChunks) (.cons rfl rfl (.cons rfl rfl .nil))
  obtain ⟨b, hb, hnote⟩ := Session.writeTo_of_drains hnone (by decide +kernel) (List.forall_mem_nil _)
    (w := Sink.empty) ⟨rfl, rfl⟩ false
  obtain ⟨c, hc, hletter⟩ := Session.writeTo_of_drains hchunks (by decide +kernel) (by decide +kernel)
    (w := Sink.empty.grow b) ⟨rfl, rfl⟩ true
  refine ⟨b ++ c, hb.append hc, .cons hnote ?_⟩
  rw [← Sink.grow_grow]
  exact .cons hletter .nil

theorem received_of_noteAndLetter :
    ∃ w i i', Written noteAndLetter Sink.empty [0, 2] w ∧
      Received noteAndLetter (Inbox.new (.ofBytes (w.accepted ++ ⟨#[7, 8]⟩))) i ∧
      i.nextHeader = (.ok none, i') ∧ i'.nextHeader = (.ok none, i') ∧ i'.source.rest = ⟨#[7, 8]⟩ := by
  obtain ⟨b, -, hwrite⟩ := written_noteAndLetter
  obtain ⟨-, i, i', h⟩ := received_of_batch batch_noteAndLetter hwrite (Source.steady_ofBytes _) rfl rfl
  exact ⟨_, i, i', hwrite, h⟩

end Outgoing
end ChunkRelay
