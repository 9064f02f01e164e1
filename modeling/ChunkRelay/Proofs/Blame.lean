import ChunkRelay.Proofs.Breaking
import ChunkRelay.Proofs.Writing

/-! Which errors blame the data. A transport that fails under a packet has the packet's error, and so the data are
blamed for it, whether the packet was to be written or to be read. They are not blamed for a flush that fails, nor for
what is asked of a stream after its failure. -/
namespace ChunkRelay

open PacketFeed
open TransferError (brokeWith cutShort retold)

namespace Packet

variable {ω : Type} [ByteSink ω]

/-- A packet is not written where the writer fails, or where no frame holds it. -/
theorem writeTyped_eq_error {p : Packet} {w w' : ω} {x : PacketError} (h : p.writeTyped w = (.error x, w')) :
    (∃ y, x = .framing (.io y)) ∨ p.fits = false ∧ x = .framing (.tooLarge p.payload.size) := by
  have hpush {b : Bytes} {v v' : ω} (hb : push b v = (.error x, v')) : ∃ y, x = .framing (.io y) := by
    unfold push Frame.push at hb
    rcases hsink : ByteSink.push b v with ⟨y | _, u⟩ <;> rw [hsink] at hb <;> cases hb
    exact ⟨y, rfl⟩
  unfold writeTyped at h
  split at h
  · cases h
    exact .inl (hpush ‹_›)
  · cases hfits : p.fits with
    | false =>
      rw [encode_of_not_fits hfits] at h
      cases h
      exact .inr ⟨rfl, rfl⟩
    | true =>
      obtain ⟨b, hb⟩ := encode_of_le (of_decide_eq_true hfits)
      rw [hb] at h
      exact .inl (hpush h)

theorem writeAll_eq_error {l : List Packet} {w w' : ω} {x : PacketError} (h : writeAll l w = (.error x, w')) :
    (∃ y, x = .framing (.io y)) ∨ ∃ p ∈ l, p.fits = false ∧ x = .framing (.tooLarge p.payload.size) := by
  induction l generalizing w with
  | nil => cases h
  | cons p l ih =>
    rw [writeAll] at h
    split at h
    · cases h
      exact (writeTyped_eq_error ‹_›).imp_right fun hp => ⟨p, List.mem_cons_self, hp⟩
    · refine (ih h).imp_right fun hlater => ?_
      obtain ⟨q, hq, hx⟩ := hlater
      exact ⟨q, List.mem_cons_of_mem p hq, hx⟩

end Packet

namespace Session

open Packet (writeAll)

variable {φ ω : Type} [PacketFeed φ] [ByteSink ω]

/-- What stands behind an error in which writing packets that are all right ends. -/
inductive Cause (out : List Packet) (w : ω) : TransferError → Prop
  | transport {y : IoError} : (writeAll out w).1 = .error (.framing (.io y)) → Cause out w (brokeWith y)
  | oversize {p : Packet} : (writeAll out w).1 = .error (.framing (.tooLarge p.payload.size)) → p ∈ out →
      p.fits = false → Cause out w (.packet (.framing (.tooLarge p.payload.size)))
  | flush {w' : ω} {y : IoError} : writeAll out w = (.ok (), w') → (ByteSink.flush w').1 = .error y →
      Cause out w (.io y)

omit [PacketFeed φ] in
theorem Cause.blame {out : List Packet} {w : ω} {x : TransferError} (h : Cause out w x) :
    x.isIntegrity = true ↔ (writeAll out w).1 ≠ .ok () := by
  cases h with
  | transport hall => simp [hall, TransferError.isIntegrity, brokeWith]
  | oversize hall => simp [hall, TransferError.isIntegrity]
  | flush hall => simp [hall, TransferError.isIntegrity]

theorem Fresh.cause {s : Session φ} (hs : s.Fresh) (hf : s.fault? = none) {w : ω} {x : TransferError}
    (h : (s.writeTo w).1 = .error x) : Cause s.output w x := by
  have hwritten : (outcome s.output s.fault? s.chunks.length w).1 = .error x := by rw [← hs.writeTo_eq w, h]
  rw [hf, outcome] at hwritten
  rcases hall : writeAll s.output w with ⟨z | _, w₁⟩
  · rw [hall] at hwritten
    cases hwritten
    have hfirst : (writeAll s.output w).1 = .error z := by rw [hall]
    obtain ⟨y, rfl⟩ | ⟨p, hp, hfits, rfl⟩ := Packet.writeAll_eq_error hall
    · exact .transport hfirst
    · exact .oversize hfirst hp hfits
  · simp only [hall] at hwritten
    rcases hflush : ByteSink.flush w₁ with ⟨y | _, w₂⟩
    · rw [hflush] at hwritten
      cases hwritten
      exact .flush hall (by rw [hflush])
    · rw [hflush] at hwritten
      cases hwritten

end Session

namespace Inbox

variable {i : Inbox} {f : Nat} {e : IoError}

theorem errors_whole (x : Header × List Sequence) : errors (.ok (some (.whole x))) = [] := by
  simp [errors, Receipt.whole, failure?, List.filterMap_map, Function.comp_def]

theorem errors_breaking (n : Nat) (cut : List (Header × List Sequence)) : errors (breaking n cut) = [cutShort] := by
  unfold breaking
  split
  · rfl
  · split
    · rfl
    · simp [errors, Receipt.cut, failure?, List.filterMap_map, Function.comp_def]

theorem errors_lost (n : Nat) :
    (List.replicate n (Except.error TransferError.streamBroken)).flatMap errors = List.replicate n .streamBroken := by
  induction n with
  | zero => rfl
  | succ n ih => rw [List.replicate_succ, List.flatMap_cons, ih, List.replicate_succ, errors, List.singleton_append]

/-- Of a batch that is cut off, every call behind the whole sessions tells. -/
theorem errors_outcomes (n : Nat) (whole cut : List (Header × List Sequence)) (calls : Nat) :
    (((outcomes n whole cut).take calls).rightpad calls (.error .streamBroken)).flatMap errors =
      if calls ≤ whole.length then [] else cutShort :: List.replicate (calls - whole.length - 1) .streamBroken := by
  induction whole generalizing n calls with
  | nil =>
    rw [outcomes_nil]
    cases calls with
    | zero => rfl
    | succ k =>
      simp only [List.take_succ_cons, List.take_nil, List.rightpad, List.length_cons, List.length_nil, List.cons_append,
        List.nil_append, List.flatMap_cons, errors_breaking, errors_lost]
      rfl
  | cons x whole ih =>
    rw [outcomes_cons]
    cases calls with
    | zero => rfl
    | succ k =>
      have hlater := ih (n - Packet.span (onStream x)) k
      simp only [List.rightpad] at hlater
      simp only [List.take_succ_cons, List.rightpad, List.length_cons, List.cons_append, List.flatMap_cons, errors_whole,
        List.nil_append, Nat.add_sub_add_right, Nat.add_le_add_iff_right, hlater]

/-- Of a batch that arrives in whole no call tells an error. -/
theorem errors_of_whole {sent : List (Header × List Sequence)} (hsent : ∀ x ∈ sent, Listing x)
    (hi : i.Lacks 0 (sent.flatMap onStream ++ [.header Header.terminator]) ByteArray.empty) (calls : Nat) :
    (drainSessions calls i).flatMap errors = [] := by
  induction sent generalizing i calls with
  | nil =>
    obtain ⟨c, hc, hrest⟩ := hi.stream
    have hawaits : i.Awaits 0 [.header Header.terminator] ByteArray.empty :=
      ⟨hi.pending_eq, hi.not_broken, hi.not_finished, hi.steady, c, hc, by simpa using hrest.symm⟩
    obtain ⟨j, hend, hagain, -⟩ := nextHeader_of_terminator hawaits
    have hnone (n : Nat) : (drainSessions n j).flatMap errors = [] := by
      induction n with
      | zero => rfl
      | succ n ih => simp only [drainSessions, drainSession, hagain, List.flatMap_cons, ih, errors, List.append_nil]
    cases calls with
    | zero => rfl
    | succ n => simp only [drainSessions, drainSession, hend, List.flatMap_cons, hnone, errors, List.append_nil]
  | cons x sent ih =>
    rw [List.flatMap_cons, List.append_assoc] at hi
    have hsize : Packet.span (onStream x) ≤ i.left := by
      obtain ⟨c, hc, hrest⟩ := hi.stream
      have hspan := hc.size_eq
      rw [hrest, ByteArray.append_empty, Packet.span_append] at hspan
      rw [left]
      omega
    obtain ⟨j, hfirst, hj, -⟩ := drainSession_of_whole (hsent x List.mem_cons_self) hi hsize
    cases calls with
    | zero => rfl
    | succ n =>
      simp only [drainSessions, hfirst, List.flatMap_cons, errors_whole, List.nil_append]
      exact ih (fun y hy => hsent y (List.mem_cons_of_mem x hy)) hj n

end Inbox

namespace Outgoing

open Inbox (CutAt drainSessions errors)

/-- What a reader is told where the source fails at the `f`-th byte of a batch. -/
theorem errors_of_breaks {l : List Outgoing} (hl : Series l) {counts : List Nat} {v : Sink}
    (hwrite : Written l Sink.empty counts v) {s : Source} {f : Nat} {e : IoError} (hs : s.Breaks f e) (hstart : s.pos = 0)
    (hbytes : s.bytes = v.accepted) :
    ∃ sent, Sent l sent ∧
      (f = s.bytes.size → ∀ calls, (drainSessions calls (Inbox.new s)).flatMap errors = []) ∧
      (f < s.bytes.size → ∃ whole cut, CutAt f sent whole cut ∧ ∀ calls,
        (drainSessions calls (Inbox.new s)).flatMap errors =
          if calls ≤ whole.length then [] else brokeWith e :: List.replicate (calls - whole.length - 1) .streamBroken) := by
  obtain ⟨sent, b, hsent, hlisting, hstream, rfl⟩ := stream_of_series hl ⟨rfl, rfl⟩ hwrite
  rw [Sink.accepted_grow_empty] at hbytes
  have hrest : (s.front f).rest = s.bytes.extract 0 f := Source.rest_of_start hstart
  have hi : (Inbox.new (s.front f)).Lacks 0 (sent.flatMap Inbox.onStream ++ [.header Header.terminator])
      (s.bytes.extract f s.bytes.size) := by
    refine ⟨rfl, rfl, rfl, hs.steady_front, b, hstream, ?_⟩
    rw [← hbytes, Inbox.new, hrest, Bytes.take_append_drop hs.within]
  have hpos : s.pos ≤ f := hstart ▸ Nat.zero_le f
  refine ⟨sent, hsent, fun hf calls => ?_, fun hf => ?_⟩
  · subst hf
    rw [ByteArray.extract_same] at hi
    rw [Inbox.errors_of_breaks hs hpos, Inbox.errors_of_whole hlisting hi, List.map_nil]
  · have hleft : (Inbox.new (s.front f)).left = f := by
      rw [Inbox.left, Inbox.new, hrest, ByteArray.size_extract]
      omega
    have hcut : (Inbox.new (s.front f)).left <
        Packet.span (sent.flatMap Inbox.onStream ++ [.header Header.terminator]) := by
      rw [hleft, ← hstream.size_eq, ← hbytes]
      exact hf
    obtain ⟨whole, cut, hat, hcalls⟩ := Inbox.drainSessions_of_lacks hlisting hi hcut
    rw [hleft] at hat hcalls
    refine ⟨whole, cut, hat, fun calls => ?_⟩
    rw [Inbox.errors_of_breaks hs hpos, hcalls, Inbox.errors_outcomes]
    split
    · rfl
    · rw [List.map_cons, TransferError.retold_cutShort, List.map_replicate, TransferError.retold_streamBroken]

/-- Whom a transport's failure is laid on. Right packets are not written because the writer fails or a frame does not
hold one of them, and the data are blamed unless it is the flush that fails. Where a source fails within a batch, every
call behind the sessions that came in whole tells it: the first with the failure, which is laid on the data, the others
of a stream that is lost, which is not. A failure right behind a batch shows in no call. -/
theorem blame_of_broken_transport {φ ω : Type} [PacketFeed φ] [ByteSink ω] {t : Session φ} (ht : t.Fresh)
    (hfault : t.fault? = none) (w : ω) {l : List Outgoing} (hl : Series l) {counts : List Nat} {v : Sink}
    (hwrite : Written l Sink.empty counts v) {s : Source} {f : Nat} {e : IoError} (hs : s.Breaks f e) (hstart : s.pos = 0)
    (hbytes : s.bytes = v.accepted) :
    (∀ x, (t.writeTo w).1 = .error x →
      Session.Cause t.output w x ∧ (x.isIntegrity = true ↔ (Packet.writeAll t.output w).1 ≠ .ok ())) ∧
    ∃ sent, Sent l sent ∧
      (f = s.bytes.size → ∀ calls, (drainSessions calls (Inbox.new s)).flatMap errors = []) ∧
      (f < s.bytes.size → ∃ whole cut, CutAt f sent whole cut ∧ ∀ calls,
        let told := (drainSessions calls (Inbox.new s)).flatMap errors
        told = (if calls ≤ whole.length then [] else
          brokeWith e :: List.replicate (calls - whole.length - 1) .streamBroken) ∧
        ∀ x ∈ told, x.isIntegrity = true ↔ x = brokeWith e) := by
  refine ⟨fun x hx => ⟨ht.cause hfault hx, (ht.cause hfault hx).blame⟩, ?_⟩
  obtain ⟨sent, hsent, hend, hbroken⟩ := errors_of_breaks hl hwrite hs hstart hbytes
  refine ⟨sent, hsent, hend, fun hf => ?_⟩
  obtain ⟨whole, cut, hat, hcalls⟩ := hbroken hf
  refine ⟨whole, cut, hat, fun calls => ⟨hcalls calls, fun x hx => ?_⟩⟩
  rw [hcalls calls] at hx
  split at hx
  · cases hx
  rcases List.mem_cons.mp hx with rfl | hx
  · exact ⟨fun _ => rfl, fun _ => rfl⟩
  · obtain rfl := (List.mem_replicate.mp hx).2
    simp [TransferError.isIntegrity, brokeWith]

/-- A letter on a writer that has room for a part of its second chunk, and a note and a letter from a source that fails
within that chunk. -/
theorem blame_of_letter :
    let t := (ofLetter true).session
    let room := Packet.span [.header letter.draft.header, .sequence (.ofChunk 0 ⟨#[7, 8]⟩)] + 3
    let w : Sink := { Sink.empty with limit := some room }
    let e : IoError := .other "radio dropped"
    ∃ (v : Sink) (s : Source), t.Fresh ∧ t.fault? = none ∧ Series noteAndLetter ∧
      Written noteAndLetter Sink.empty [0, 2] v ∧ s.Breaks midChunk e ∧ s.pos = 0 ∧ s.bytes = v.accepted ∧
      (∀ x, (t.writeTo w).1 = .error x →
        Session.Cause t.output w x ∧ (x.isIntegrity = true ↔ (Packet.writeAll t.output w).1 ≠ .ok ())) ∧
      ∃ sent, Sent noteAndLetter sent ∧
        (midChunk = s.bytes.size → ∀ calls, (drainSessions calls (Inbox.new s)).flatMap errors = []) ∧
        (midChunk < s.bytes.size → ∃ whole cut, CutAt midChunk sent whole cut ∧ ∀ calls,
          let told := (drainSessions calls (Inbox.new s)).flatMap errors
          told = (if calls ≤ whole.length then [] else
            brokeWith e :: List.replicate (calls - whole.length - 1) .streamBroken) ∧
          ∀ x ∈ told, x.isIntegrity = true ↔ x = brokeWith e) := by
  intro t room w e
  obtain ⟨b, hlt, hwrite⟩ := exists_written_noteAndLetter
  have hfresh : t.Fresh := Session.fresh_withPackets letter.draft.header _ true
  have hfault : t.fault? = none := by decide +kernel
  rw [← Sink.accepted_grow_empty b] at hlt
  let s : Source := { Source.ofBytes (Sink.empty.grow b).accepted with breakAt := some (midChunk, e) }
  have hs : s.Breaks midChunk e := ⟨rfl, Nat.le_of_lt hlt, fun _ _ => Nat.zero_lt_of_lt hlt⟩
  exact ⟨_, s, hfresh, hfault, series_noteAndLetter, hwrite, hs, rfl, rfl,
    blame_of_broken_transport hfresh hfault w series_noteAndLetter hwrite hs rfl rfl⟩

/-- A writer that takes no byte of a chunk that is all right: nothing was received, and the data are blamed. -/
theorem blamed_of_full_writer :
    let p := Sequence.ofChunk 0 ⟨#[7, 8]⟩
    let h : Header :=
      { Header.terminator with application := "chat", blockSize := 4, endOfStream := false, hashes := [p.hash] }
    let s := Session.withPackets h ([.ok p] : List Delivery) true
    let w : Sink := { Sink.empty with limit := some 0, overflow := .other "link down" }
    s.fault? = none ∧ failure? (s.writeTo w).1 = some (brokeWith (.other "link down")) ∧
      (brokeWith (.other "link down")).isIntegrity = true := by
  intro p h s w
  decide +kernel

end Outgoing
end ChunkRelay
