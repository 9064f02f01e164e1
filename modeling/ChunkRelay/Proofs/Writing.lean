import ChunkRelay.Proofs.Refusals
import ChunkRelay.Proofs.Transport
import ChunkRelay.Proofs.Verdicts

/-! Sessions on a writer that may fail, at any byte or when it is flushed. What the writer has accepted is the front
of what the session puts on a stream. A failure that comes after the last packet no longer shows in the session's
state. -/
namespace ChunkRelay

open PacketFeed

namespace Sink

theorem room_le (w : Sink) (n : Nat) : w.room n ≤ n := by
  unfold room
  split <;> omega

theorem flush_eq_ok_iff {w w' : Sink} : ByteSink.flush w = (.ok (), w') ↔ w.flushError = none ∧ w = w' := by
  change w.flush = _ ↔ _
  unfold flush
  cases w.flushError <;> simp

theorem flush_eq_error_iff {w w' : Sink} {x : IoError} :
    ByteSink.flush w = (.error x, w') ↔ w.flushError = some x ∧ w = w' := by
  change w.flush = _ ↔ _
  unfold flush
  cases w.flushError <;> simp

/-- What there is room for of two writes is what there is room for of the first, and if that is all of it, what there
is then room for of the second. -/
theorem room_append (w : Sink) (a b : Bytes) :
    w.room (a ++ b).size = if w.room a.size = a.size then a.size + (w.grow a).room b.size else w.room a.size := by
  rw [ByteArray.size_append]
  unfold room grow
  cases w.limit with
  | none => simp
  | some limit =>
    simp only [ByteArray.size_append]
    split <;> omega

end Sink

namespace Packet

/-! What a writer with limited room accepts of one packet after another is what it accepts of them all at once. -/

/-- A write is accepted as far as there is room. -/
theorem push_eq_grow (b : Bytes) (w : Sink) :
    push b w = (if w.room b.size = b.size then .ok () else .error (.framing (.io w.overflow)),
      w.grow (b.slice 0 (w.room b.size))) := by
  have hpush : ByteSink.push b w = w.push b := rfl
  by_cases hroom : w.room b.size = b.size
  · simp only [push, Frame.push, hpush, Sink.push, hroom, if_true, Bytes.slice_self, Sink.grow]
  · simp only [push, Frame.push, hpush, Sink.push, hroom, if_false, Sink.grow]

theorem push_empty (w : Sink) : push ByteArray.empty w = (.ok (), w) := by
  have hroom : w.room ByteArray.empty.size = ByteArray.empty.size := Nat.le_zero.mp (w.room_le 0)
  rw [push_eq_grow, hroom, if_pos rfl, Bytes.slice_self, Sink.grow_empty]

theorem push_append (a b : Bytes) (w : Sink) :
    push (a ++ b) w =
      match push a w with
      | (.error e, w) => (.error e, w)
      | (.ok (), w) => push b w := by
  rw [push_eq_grow (a ++ b), push_eq_grow a, Sink.room_append]
  by_cases hroom : w.room a.size = a.size
  · have hsplit (n : Nat) : (a ++ b).slice 0 (a.size + n) = a ++ b.slice 0 n := by
      rw [← Bytes.slice_append_slice, Bytes.slice_append_left _ (by omega), Bytes.slice_self, Nat.zero_add]
      exact congrArg (a ++ ·) (Bytes.slice_append_right a b 0 n)
    simp only [hroom, if_true, Bytes.slice_self, push_eq_grow b, hsplit, Sink.grow_grow, ByteArray.size_append,
      Nat.add_left_cancel_iff]
    rfl
  · have hle := w.room_le a.size
    have hlt : w.room a.size ≠ (a ++ b).size := by
      rw [ByteArray.size_append]
      omega
    simp only [hroom, if_false, hlt, Bytes.slice_append_left b (show 0 + w.room a.size ≤ a.size by omega)]

theorem writeTyped_of_fits {p : Packet} (hp : p.fits = true) (w : Sink) : p.writeTyped w = push p.trace w := by
  obtain ⟨b, hb⟩ := encode_of_le (of_decide_eq_true hp)
  rw [writeTyped, trace_of_encode hb, push_append, hb]
  rcases push (⟨#[p.type.byte]⟩ : Bytes) w with ⟨_ | _, w'⟩ <;> rfl

theorem writeAll_of_fits {l : List Packet} (hl : ∀ p ∈ l, p.fits = true) (w : Sink) :
    writeAll l w = push (Bytes.concat (l.map trace)) w := by
  induction l generalizing w with
  | nil => exact (push_empty w).symm
  | cons p l ih =>
    rw [List.map_cons, Bytes.concat_cons, push_append, writeAll, writeTyped_of_fits (hl p List.mem_cons_self)]
    simp only [ih fun q hq => hl q (List.mem_cons_of_mem p hq)]
    rcases push p.trace w with ⟨_ | _, w'⟩ <;> rfl

end Packet

namespace Session

open Packet (writeAll)

variable {φ ω : Type} [PacketFeed φ] [ByteSink ω]

/-- What the feed of a session has to bring for it. -/
def items (s : Session φ) : List Delivery := (collect s.fuel s.packets.inner).1

/-- The packets that come through, up to the first item that is not right. -/
def chunks (s : Session φ) : List Sequence := s.header.upToFault 0 s.items

/-- What is wrong with the packets, if anything is. -/
def fault? (s : Session φ) : Option TransferError := s.header.firstFault? 0 s.items

/-! What becomes of a session that nobody has pulled. -/

/-- A session that nobody has pulled. One that is completed from the start has nothing to pull. -/
structure Fresh (s : Session φ) : Prop where
  packets_eq : s.packets = .new s.header s.packets.inner
  state_cases : s.state = .unfinished ∨ s.state = .completed ∧ s.packets.next.1 = none

theorem fresh_withPackets (h : Header) (packets : φ) (last : Bool) : (withPackets h packets last).Fresh :=
  ⟨rfl, .inl rfl⟩

theorem Fresh.verified_runs {s : Session φ} (hs : s.Fresh) :
    ∃ v, Runs (Verified.new s.header s.packets.inner) s.chunks s.fault? v := by
  obtain ⟨l, e, v, hr⟩ := Verified.exists_runs (Verified.new s.header s.packets.inner) rfl
  have hafter : Runs (Verified.after s.header 0 s.packets.inner) l e v := hr
  have hfuel : l.length < s.fuel := by
    rw [fuel, hs.packets_eq]
    exact Verified.length_lt_fuel hr
  obtain ⟨hl, he⟩ := Verified.eq_of_runs hafter (Nat.zero_le _) hfuel
  rw [hl, he] at hr
  exact ⟨v, hr⟩

theorem Fresh.runs {s : Session φ} (hs : s.Fresh) :
    ∃ v, Runs s s.chunks s.fault? ⟨s.header, v, s.last, .ofEnding s.fault?⟩ := by
  obtain ⟨v, hr⟩ := hs.verified_runs
  rw [← hs.packets_eq] at hr
  obtain ⟨header, packets, last, state⟩ := s
  rcases hs.state_cases with rfl | ⟨rfl, hnext⟩
  · exact ⟨v, runs_of_verified hr header last⟩
  · have hend : PacketFeed.next packets = ((none : Option TransferError).map .error, packets.next.2) :=
      Prod.ext hnext rfl
    obtain ⟨hchunks, hfault⟩ := hr.unique (runs_nil_iff.mpr hend)
    refine ⟨packets, ?_⟩
    rw [hchunks, hfault]
    exact runs_nil_iff.mpr rfl

/-- If nothing is wrong with the packets, as many come through as there are to be. -/
theorem Fresh.length_chunks {s : Session φ} (hs : s.Fresh) (hf : s.fault? = none) :
    s.chunks.length = s.header.chunkCount := by
  obtain ⟨v, hr⟩ := hs.verified_runs
  rw [hf] at hr
  exact (Verified.listed_of_drains hr rfl).length_eq.symm

/-- Whether the header and the packets of a session are all right and written. -/
def delivers (s : Session φ) (w : ω) : Bool :=
  s.fault?.isNone && (writeAll (.header s.header :: s.chunks.map .sequence) w).1.toBool

/-- A session that is written is left completed if the result is good. If it is not, the session is left failed, with
the text of the result or as abandoned with its header, except where the failure comes after its packets: there it is
left completed. -/
theorem state_writeTo (h : Header) (packets : φ) (last : Bool) (w : ω) :
    let s := withPackets h packets last
    (s.writeTo w).2.1.state =
      match (s.writeTo w).1 with
      | .ok _ => .completed
      | .error e =>
        if s.delivers w then .completed
        else if ((Packet.header h).writeTyped w).1.toBool then .failed e.message
        else .failed TransferError.abandoned.message := by
  intro s
  have hopen : s.state = .unfinished := rfl
  have hheader : s.header = h := rfl
  have hfresh : s.Fresh := fresh_withPackets h packets last
  clear_value s
  subst hheader
  obtain ⟨v, hr⟩ := hfresh.runs
  rcases hwrite : s.writeTo w with ⟨r, u, w'⟩
  have hwrites := writes_writeTo hr w r u w' hwrite
  unfold delivers
  cases hwrites with
  | unopened hhead => simp [writeAll, hhead, Except.toBool, abandon, state_fail, hopen]
  | cut hhead hchunks hu => simp [writeAll, hhead, hchunks, hu, Except.toBool]
  | refused hpackets hfault =>
    obtain ⟨w₁, hhead, -⟩ := Packet.writeAll_cons_eq_ok_iff.mp hpackets
    simp [hfault, hhead, Except.toBool, SessionState.ofEnding]
  | unclosed hpackets hfault hend => simp [hpackets, hfault, Except.toBool, SessionState.ofEnding]
  | unflushed hpackets hfault hend hflush => simp [hpackets, hfault, Except.toBool, SessionState.ofEnding]
  | sent hpackets hfault hend hflush => simp [hfault, SessionState.ofEnding]

/-- A writer that takes every byte and cannot be flushed: the session is not sent, and it is completed all the same. -/
theorem completed_of_unflushed :
    let p := Sequence.ofChunk 0 ⟨#[7, 8]⟩
    let h : Header :=
      { Header.terminator with application := "chat", blockSize := 4, endOfStream := false, hashes := [p.hash] }
    let w : Sink := { Sink.empty with flushError := some (.other "flush refused") }
    let sent := (withPackets h ([.ok p] : List Delivery) true).writeTo w
    h.endOfStream = false ∧ failure? sent.1 = some (.io (.other "flush refused")) ∧ sent.2.1.state = .completed := by
  intro p h w sent
  decide +kernel

/-- The packets that a session stands for on a stream. Behind packets that something is wrong with, no end of the batch
is marked. -/
def output (s : Session φ) : List Packet :=
  .header s.header :: (s.chunks.map .sequence ++ if s.fault? = none then ending s.header s.last else [])

/-- What it comes to to write these packets, behind which `e` is found wrong if anything is, and to flush the writer. -/
def outcome (out : List Packet) (e : Option TransferError) (count : Nat) (w : ω) : Except TransferError Nat × ω :=
  match writeAll out w with
  | (.error x, w) => (.error (.packet x), w)
  | (.ok (), w) =>
    match e with
    | some x => (.error x, w)
    | none =>
      match ByteSink.flush w with
      | (.error x, w) => (.error (.io x), w)
      | (.ok (), w) => (.ok count, w)

omit [PacketFeed φ] in
theorem Writes.eq_outcome {t t' : Session φ} {l : List Sequence} {e : Option TransferError} {w w' : ω}
    {r : Except TransferError Nat} {u : Session φ} (h : Writes t l e t' w r u w') {out : List Packet}
    (hout : out = .header t.header :: (l.map .sequence ++ if e = none then ending t'.header t'.last else [])) :
    (r, w') = outcome out e l.length w := by
  subst hout
  rw [outcome, ← List.cons_append, Packet.writeAll_append]
  cases h with
  | unopened hhead => simp [writeAll, hhead]
  | cut hhead hchunks _ => simp [writeAll, hhead, hchunks]
  | refused hpackets hfault =>
    simp only [hpackets, hfault]
    simp [writeAll]
  | unclosed hpackets hfault hend => simp [hpackets, hfault, hend]
  | unflushed hpackets hfault hend hflush => simp [hpackets, hfault, hend, hflush]
  | sent hpackets hfault hend hflush => simp [hpackets, hfault, hend, hflush]

/-- Writing a session is writing what it stands for on a stream. -/
theorem Fresh.writeTo_eq {s : Session φ} (hs : s.Fresh) (w : ω) :
    ((s.writeTo w).1, (s.writeTo w).2.2) = outcome s.output s.fault? s.chunks.length w := by
  obtain ⟨v, hr⟩ := hs.runs
  exact (writes_writeTo hr w _ _ _ rfl).eq_outcome rfl

theorem Fresh.fault_of_sent {s : Session φ} (hs : s.Fresh) {w : ω} {n : Nat} (h : (s.writeTo w).1 = .ok n) :
    s.fault? = none := by
  have hwritten : (outcome s.output s.fault? s.chunks.length w).1 = .ok n := by rw [← hs.writeTo_eq w, h]
  unfold outcome at hwritten
  split at hwritten
  · cases hwritten
  · split at hwritten
    · cases hwritten
    · assumption

omit [PacketFeed φ] in
/-- What a sink has accepted is what it accepts of all that is to be written. -/
theorem Writes.on_sink {t t' : Session φ} {l : List Sequence} {e : Option TransferError} {w w' : Sink}
    {r : Except TransferError Nat} {u : Session φ} (h : Writes t l e t' w r u w') {out : List Packet}
    (hout : out = .header t.header :: (l.map .sequence ++ if e = none then ending t'.header t'.last else [])) :
    w' = (writeAll out w).2 ∧
      ∀ n, r = .ok n ↔ e = none ∧ (writeAll out w).1 = .ok () ∧ w'.flushError = none ∧ n = l.length := by
  have houtcome := h.eq_outcome hout
  unfold outcome at houtcome
  rcases hall : writeAll out w with ⟨x | _, w₁⟩
  · rw [hall] at houtcome
    cases houtcome
    simp
  rw [hall] at houtcome
  cases e with
  | some x =>
    cases houtcome
    simp
  | none =>
    rcases hflush : ByteSink.flush w₁ with ⟨x | _, w₂⟩
    · obtain ⟨hrefuses, rfl⟩ := Sink.flush_eq_error_iff.mp hflush
      simp only [hflush] at houtcome
      cases houtcome
      simp [hrefuses]
    · obtain ⟨hflushes, rfl⟩ := Sink.flush_eq_ok_iff.mp hflush
      simp only [hflush] at houtcome
      cases houtcome
      simp [hflushes, eq_comm]

/-- Of the bytes that a session stands for on a stream, a writer with room for `limit` of them has accepted the first,
as many as it has room for. The session is sent exactly if nothing is wrong with its packets, there is room for all of
it and the writer can be flushed; then the chunks of its header are counted. -/
theorem accepted_writeTo {s : Session φ} (hs : s.Fresh) (hheader : (Packet.header s.header).fits = true)
    (hchunks : ∀ p ∈ s.chunks, (Packet.sequence p).fits = true) {w : Sink} {limit : Nat}
    (hlimit : w.limit = some (w.accepted.size + limit)) :
    ∃ wire, Packet.Stream s.output wire ∧
      (s.writeTo w).2.2.accepted = w.accepted ++ wire.slice 0 (min limit wire.size) ∧
      ∀ n, (s.writeTo w).1 = .ok n ↔
        s.fault? = none ∧ wire.size ≤ limit ∧ w.flushError = none ∧ n = s.header.chunkCount := by
  have hfits : ∀ p ∈ s.output, p.fits = true := by
    intro p hp
    rcases List.mem_cons.mp hp with rfl | hp
    · exact hheader
    rcases List.mem_append.mp hp with hp | hp
    · obtain ⟨q, hq, rfl⟩ := List.mem_map.mp hp
      exact hchunks q hq
    · split at hp
      · exact decide_eq_true (payload_le_of_mem_ending hp)
      · cases hp
  obtain ⟨v, hr⟩ := hs.runs
  rcases hwrite : s.writeTo w with ⟨r, u, w'⟩
  obtain ⟨hsink, hresult⟩ := (writes_writeTo hr w r u w' hwrite).on_sink (rfl : s.output = _)
  obtain ⟨wire, hwire⟩ : ∃ wire, wire = Bytes.concat (s.output.map Packet.trace) := ⟨_, rfl⟩
  have hroom : w.room wire.size = min limit wire.size := by
    simp only [Sink.room, hlimit]
    omega
  rw [Packet.writeAll_of_fits hfits, ← hwire, Packet.push_eq_grow, hroom] at hsink hresult
  refine ⟨wire, hwire ▸ Packet.stream_of_fits hfits, by rw [hsink]; rfl, fun n => ?_⟩
  have hall : min limit wire.size = wire.size ↔ wire.size ≤ limit := by omega
  rw [hresult n, hsink]
  refine and_congr_right fun hf => and_congr ?_ (and_congr Iff.rfl (by rw [hs.length_chunks hf]))
  by_cases hle : wire.size ≤ limit
  · simp [hle]
  · simp [mt hall.mp hle, hle]

/-- One chunk, on a writer that fails after a hundred bytes, which is within the header. -/
theorem accepted_writeTo_of_cut :
    let p := Sequence.ofChunk 0 ⟨#[7, 8]⟩
    let h : Header :=
      { Header.terminator with application := "chat", blockSize := 4, endOfStream := false, hashes := [p.hash] }
    let s := withPackets h ([.ok p] : List Delivery) true
    let w : Sink := { Sink.empty with limit := some 100 }
    s.chunks = [p] ∧ s.fault? = none ∧ s.Fresh ∧ (Packet.header s.header).fits = true ∧
      (∀ q ∈ s.chunks, (Packet.sequence q).fits = true) ∧ w.limit = some (w.accepted.size + 100) ∧
      ∃ wire, Packet.Stream s.output wire ∧
        (s.writeTo w).2.2.accepted = w.accepted ++ wire.slice 0 (min 100 wire.size) ∧
        ∀ n, (s.writeTo w).1 = .ok n ↔
          s.fault? = none ∧ wire.size ≤ 100 ∧ w.flushError = none ∧ n = s.header.chunkCount := by
  intro p h s w
  have hright : h.fault? 0 (.ok p) = none := Header.fault?_eq_none_iff.mpr ⟨p, rfl, rfl, rfl⟩
  have hitems : s.items = [.ok p] := rfl
  have hchunks : s.chunks = [p] := by
    rw [chunks, hitems]
    simp only [Header.upToFault, show s.header = h from rfl, hright, if_true]
  have hfault : s.fault? = none := by
    rw [fault?, hitems]
    simp only [Header.firstFault?, show s.header = h from rfl, hright, Option.none_or]
    rfl
  have hfresh : s.Fresh := fresh_withPackets h _ true
  have hheader : (Packet.header s.header).fits = true := by decide +kernel
  have hfits : ∀ q ∈ s.chunks, (Packet.sequence q).fits = true := by
    rw [hchunks]
    decide +kernel
  exact ⟨hchunks, hfault, hfresh, hheader, hfits, rfl, accepted_writeTo hfresh hheader hfits rfl⟩

end Session
end ChunkRelay
