import ChunkRelay.Proofs.Framing
import ChunkRelay.Proofs.Verification
import ChunkRelay.Transfer.Batch

/-! What a session puts on a stream: its header, the packets that its feed runs through, and the end of
the batch where the session is the last one. A writer may fail at any of these; one that takes everything
refuses only what fits no frame. -/
namespace ChunkRelay
namespace Session

open PacketFeed
open Packet (writeAll)

variable {φ ω : Type}

/-- The session with a writer along with its feed. -/
def onto (t : Session φ) (w : ω) : Session (φ × ω) := t.withFeed (t.packets.inner, w)

@[simp] theorem header_onto (t : Session φ) (w : ω) : (t.onto w).header = t.header := rfl

@[simp] theorem last_onto (t : Session φ) (w : ω) : (t.onto w).last = t.last := rfl

@[simp] theorem fuel_onto (t : Session φ) (w : ω) : (t.onto w).fuel = t.fuel := rfl

theorem fail_onto (t : Session φ) (w : ω) (e : TransferError) : (t.onto w).fail e = (t.fail e).onto w := by
  unfold fail settle isOpen
  by_cases ht : t.state = .unfinished
  · have hopen : (t.onto w).state = .unfinished := ht
    simp only [ht, hopen, decide_true, if_true]
    rfl
  · have hopen : ¬ (t.onto w).state = .unfinished := ht
    simp only [ht, hopen, decide_false, Bool.false_eq_true, if_false]

/-- Pulling leaves the writer alone. -/
theorem next_onto [PacketFeed φ] (t : Session φ) (w : ω) : (t.onto w).next = (t.next.1, t.next.2.onto w) := by
  obtain ⟨header, ⟨f, remaining, received, done⟩, last, state⟩ := t
  cases state with
  | completed => rfl
  | failed reason => rfl
  | unfinished =>
    cases done with
    | true => rfl
    | false =>
      rcases hn : PacketFeed.next f with ⟨_ | e | p, s⟩
      · by_cases hr : remaining.isEmpty
        · simp [next, onto, withFeed, isOpen, Verified.next, next_pair, hn, hr, settle]
        · simp [next, onto, withFeed, isOpen, Verified.next, next_pair, hn, hr, settle, fail,
            Verified.expected]
      · simp [next, onto, withFeed, isOpen, Verified.next, next_pair, hn, settle, fail]
      · have hcheck : (⟨(f, w), remaining, received, false⟩ : Verified (φ × ω)).check p =
            (⟨f, remaining, received, false⟩ : Verified φ).check p := rfl
        cases hc : (⟨f, remaining, received, false⟩ : Verified φ).check p with
        | error e =>
          simp [next, onto, withFeed, isOpen, Verified.next, next_pair, hn, hcheck, hc, settle, fail]
        | ok rest => simp [next, onto, withFeed, isOpen, Verified.next, next_pair, hn, hcheck, hc]

section Writers

variable [ByteSink ω]

/-- A packet goes to the writer, and the session is left alone. -/
theorem writePacket_eq (p : Packet) (t : Session φ) (w : ω) :
    writePacket p (t.onto w) = ((p.writeTyped w).1.mapError .packet, t.onto (p.writeTyped w).2) := by
  have hpush (b : Bytes) (w : ω) : Packet.push b (t.onto w) = ((Packet.push b w).1, t.onto (Packet.push b w).2) := by
    simp only [Packet.push, Frame.push, ByteSink.push, onto, withFeed]
    cases ByteSink.push b w with
    | mk r w' => cases r <;> rfl
  simp only [writePacket, Packet.writeTyped, hpush]
  rcases Packet.push (⟨#[p.type.byte]⟩ : Bytes) w with ⟨_ | _, w'⟩
  · rfl
  · cases p.encode with
    | error e => rfl
    | ok b =>
      simp only [hpush]
      rcases Packet.push b w' with ⟨_ | _, w''⟩ <;> rfl

theorem flush_eq (t : Session φ) (w : ω) :
    flush (t.onto w) = ((ByteSink.flush w).1.mapError .io, t.onto (ByteSink.flush w).2) := by
  simp only [flush, ByteSink.flush, onto, withFeed]
  cases ByteSink.flush w with
  | mk r w' => cases r <;> rfl

/-- What closes a batch. -/
def ending (h : Header) (last : Bool) : List Packet :=
  if last ∧ ¬ h.endOfStream then [.header Header.terminator] else []

theorem writeEnd_eq (t : Session φ) (w : ω) :
    writeEnd (t.onto w) = ((writeAll (ending t.header t.last) w).1.mapError .packet,
      t.onto (writeAll (ending t.header t.last) w).2) := by
  by_cases hlast : t.last ∧ ¬ t.header.endOfStream
  · rw [ending, if_pos hlast, writeEnd, header_onto, last_onto, if_pos hlast, writePacket_eq]
    simp only [writeAll]
    rcases (Packet.header Header.terminator).writeTyped w with ⟨_ | _, w'⟩ <;> rfl
  · rw [ending, if_neg hlast, writeEnd, header_onto, last_onto, if_neg hlast]
    rfl

/-- The end of a batch fits a frame. -/
theorem payload_le_of_mem_ending {h : Header} {last : Bool} {p : Packet} (hp : p ∈ ending h last) :
    p.payload.size ≤ Frame.maxLength := by
  unfold ending at hp
  split at hp
  · rw [List.mem_singleton.mp hp]
    decide
  · cases hp

variable [PacketFeed φ]

/-- Where the packets of a run are written, the loop ends as the run does. -/
theorem forEach_of_written {t t' : Session φ} {l : List Sequence} {e : Option TransferError} (hr : Runs t l e t')
    {w w' : ω} (hw : writeAll (l.map .sequence) w = (.ok (), w')) {fuel : Nat} (count : Nat) (hf : l.length < fuel) :
    forEach writeChunk fuel count (t.onto w) = (e.elim (.ok (count + l.length)) .error, t'.onto w') := by
  induction l generalizing t w fuel count with
  | nil =>
    have hn : t.next = (e.map .error, t') := runs_nil_iff.mp hr
    obtain ⟨-, rfl⟩ := Prod.mk.inj hw
    cases fuel with
    | zero => cases hf
    | succ fuel => cases e <;> simp [forEach, next_onto, hn]
  | cons p l ih =>
    obtain ⟨u, hn, hrest⟩ := runs_cons_iff.mp hr
    rw [Session.next_eq] at hn
    cases fuel with
    | zero => cases hf
    | succ fuel =>
      simp only [List.map_cons, writeAll] at hw
      rcases hp : (Packet.sequence p).writeTyped w with ⟨_ | _, w₁⟩
      · simp [hp] at hw
      · simp only [hp] at hw
        have hloop := ih hrest hw (count + 1) (Nat.lt_of_succ_lt_succ hf)
        simp only [forEach, Session.next_eq, next_onto, hn, writeChunk, writePacket_eq, hp, mapError_ok, hloop,
          List.length_cons]
        rw [Nat.add_assoc, Nat.add_comm 1]

/-- Where one of them is not, the session fails with it. -/
theorem forEach_of_unwritten {t t' : Session φ} {l : List Sequence} {e : Option TransferError} (hr : Runs t l e t')
    {w w' : ω} {x : PacketError} (hw : writeAll (l.map .sequence) w = (.error x, w')) {fuel : Nat} (count : Nat)
    (hf : l.length < fuel) :
    ∃ u : Session φ, forEach writeChunk fuel count (t.onto w) = (.error (.packet x), u.onto w') ∧
      u.state = .failed (TransferError.packet x).message := by
  induction l generalizing t w fuel count with
  | nil => cases (Prod.mk.inj hw).1
  | cons p l ih =>
    obtain ⟨u, hn, hrest⟩ := runs_cons_iff.mp hr
    rw [Session.next_eq] at hn
    cases fuel with
    | zero => cases hf
    | succ fuel =>
      simp only [List.map_cons, writeAll] at hw
      rcases hp : (Packet.sequence p).writeTyped w with ⟨y | _, w₁⟩
      · simp only [hp, Prod.mk.injEq, Except.error.injEq] at hw
        obtain ⟨rfl, rfl⟩ := hw
        have hopen : u.state = .unfinished := by
          obtain ⟨ht, -, hu⟩ := next_eq_ok_iff.mp hn
          rw [hu]
          exact ht
        refine ⟨u.fail (.packet y), ?_, by simp [state_fail, hopen]⟩
        simp only [forEach, Session.next_eq, next_onto, hn, writeChunk, writePacket_eq, hp, mapError_error, fail_onto]
      · simp only [hp] at hw
        obtain ⟨v, hloop, hv⟩ := ih hrest hw (count + 1) (Nat.lt_of_succ_lt_succ hf)
        refine ⟨v, ?_, hv⟩
        simp only [forEach, Session.next_eq, next_onto, hn, writeChunk, writePacket_eq, hp, mapError_ok, hloop]

/-- What writing a session may come to: the result, the session, and the writer. Of the session, its header and its run
count: the packets `l`, and then its end or the failure `e`, which leaves it as `t'`. -/
inductive Writes (t : Session φ) (l : List Sequence) (e : Option TransferError) (t' : Session φ) (w : ω) :
    Except TransferError Nat → Session φ → ω → Prop
  | unopened {x : PacketError} {w₁ : ω} : (Packet.header t.header).writeTyped w = (.error x, w₁) →
      Writes t l e t' w (.error (.packet x)) t.abandon w₁
  | cut {x : PacketError} {u : Session φ} {w₁ w₂ : ω} : (Packet.header t.header).writeTyped w = (.ok (), w₁) →
      writeAll (l.map .sequence) w₁ = (.error x, w₂) → u.state = .failed (TransferError.packet x).message →
      Writes t l e t' w (.error (.packet x)) u w₂
  | refused {x : TransferError} {w₁ : ω} : writeAll (.header t.header :: l.map .sequence) w = (.ok (), w₁) →
      e = some x → Writes t l e t' w (.error x) t' w₁
  | unclosed {x : PacketError} {w₁ w₂ : ω} : writeAll (.header t.header :: l.map .sequence) w = (.ok (), w₁) →
      e = none → writeAll (ending t'.header t'.last) w₁ = (.error x, w₂) →
      Writes t l e t' w (.error (.packet x)) t' w₂
  | unflushed {x : IoError} {w₁ w₂ w₃ : ω} : writeAll (.header t.header :: l.map .sequence) w = (.ok (), w₁) →
      e = none → writeAll (ending t'.header t'.last) w₁ = (.ok (), w₂) → ByteSink.flush w₂ = (.error x, w₃) →
      Writes t l e t' w (.error (.io x)) t' w₃
  | sent {w₁ w₂ w₃ : ω} : writeAll (.header t.header :: l.map .sequence) w = (.ok (), w₁) →
      e = none → writeAll (ending t'.header t'.last) w₁ = (.ok (), w₂) → ByteSink.flush w₂ = (.ok (), w₃) →
      Writes t l e t' w (.ok l.length) t' w₃

theorem writes_writeTo {t t' : Session φ} {l : List Sequence} {e : Option TransferError} (hr : Runs t l e t') (w : ω) :
    ∀ r u w', t.writeTo w = (r, u, w') → Writes t l e t' w r u w' := by
  suffices h : ∀ r s, (t.onto w).write = (r, s) →
      Writes t l e t' w r (s.withFeed s.packets.inner.1) s.packets.inner.2 by
    intro r u w' hwrite
    have hparts : Writes t l e t' w (t.writeTo w).1 (t.writeTo w).2.1 (t.writeTo w).2.2 := h _ _ rfl
    rwa [hwrite] at hparts
  intro r s hwrite
  have hfuel := length_lt_fuel hr
  simp only [write, header_onto, writePacket_eq] at hwrite
  rcases hhead : (Packet.header t.header).writeTyped w with ⟨x | _, w₁⟩
  · simp only [hhead, mapError_error, Prod.mk.injEq] at hwrite
    obtain ⟨rfl, rfl⟩ := hwrite
    rw [abandon, fail_onto]
    exact .unopened hhead
  simp only [hhead, mapError_ok, fuel_onto] at hwrite
  rcases hchunks : writeAll (l.map .sequence) w₁ with ⟨x | _, w₂⟩
  · obtain ⟨u, hloop, hu⟩ := forEach_of_unwritten hr hchunks 0 hfuel
    simp only [hloop, Prod.mk.injEq] at hwrite
    obtain ⟨rfl, rfl⟩ := hwrite
    exact .cut hhead hchunks hu
  have hpackets : writeAll (.header t.header :: l.map .sequence) w = (.ok (), w₂) :=
    Packet.writeAll_cons_eq_ok_iff.mpr ⟨w₁, hhead, hchunks⟩
  rw [forEach_of_written hr hchunks 0 hfuel] at hwrite
  cases he : e with
  | some x =>
    simp only [he, Option.elim, Prod.mk.injEq] at hwrite
    obtain ⟨rfl, rfl⟩ := hwrite
    exact .refused hpackets rfl
  | none =>
    simp only [he, Option.elim, writeEnd_eq] at hwrite
    rcases hend : writeAll (ending t'.header t'.last) w₂ with ⟨x | _, w₃⟩
    · simp only [hend, mapError_error, Prod.mk.injEq] at hwrite
      obtain ⟨rfl, rfl⟩ := hwrite
      exact .unclosed hpackets rfl hend
    simp only [hend, mapError_ok, flush_eq] at hwrite
    rcases hflush : ByteSink.flush w₃ with ⟨x | _, w₄⟩
    · simp only [hflush, mapError_error, Prod.mk.injEq] at hwrite
      obtain ⟨rfl, rfl⟩ := hwrite
      exact .unflushed hpackets rfl hend hflush
    · simp only [hflush, mapError_ok, Prod.mk.injEq, Nat.zero_add] at hwrite
      obtain ⟨rfl, rfl⟩ := hwrite
      exact .sent hpackets rfl hend hflush

theorem writeTo_of_written {t t' : Session φ} {l : List Sequence} (hr : Drains t l t') {w w₁ w₂ w₃ : ω}
    (hpackets : writeAll (.header t.header :: l.map .sequence) w = (.ok (), w₁))
    (hend : writeAll (ending t'.header t'.last) w₁ = (.ok (), w₂)) (hflush : ByteSink.flush w₂ = (.ok (), w₃)) :
    t.writeTo w = (.ok l.length, t', w₃) := by
  obtain ⟨w₀, hhead, hchunks⟩ := Packet.writeAll_cons_eq_ok_iff.mp hpackets
  rcases hwrite : t.writeTo w with ⟨r, u, w'⟩
  cases writes_writeTo hr w _ _ _ hwrite with
  | unopened hx => cases hx.symm.trans hhead
  | cut hx hy _ =>
    cases hx.symm.trans hhead
    cases hy.symm.trans hchunks
  | refused _ hx => cases hx
  | unclosed hx _ hy =>
    cases hx.symm.trans hpackets
    cases hy.symm.trans hend
  | unflushed hx _ hy hz =>
    cases hx.symm.trans hpackets
    cases hy.symm.trans hend
    cases hz.symm.trans hflush
  | sent hx _ hy hz =>
    cases hx.symm.trans hpackets
    cases hy.symm.trans hend
    cases hz.symm.trans hflush
    rfl

end Writers

/-! Writers that take everything. -/

variable [PacketFeed φ]

/-- The packets that a session of these puts on a stream. -/
def packetsOf (h : Header) (last : Bool) (l : List Sequence) : List Packet :=
  .header h :: (l.map .sequence ++ ending h last)

theorem packetsOf_last {h : Header} (he : h.endOfStream = false) (l : List Sequence) :
    packetsOf h true l = .header h :: (l.map .sequence ++ [.header Header.terminator]) := by
  simp [packetsOf, ending, he]

theorem packetsOf_not_last (h : Header) (l : List Sequence) : packetsOf h false l = .header h :: l.map .sequence := by
  simp [packetsOf, ending]

/-- A session that is written has come to its end, and its packets are on the stream. -/
theorem drains_of_writeTo {h : Header} {packets : φ} {last : Bool} {w w' : Sink} (hw : w.Unfailing) {n : Nat}
    {t : Session φ} (hwrite : (withPackets h packets last).writeTo w = (.ok n, t, w')) :
    ∃ l v b, Drains (Verified.new h packets) l v ∧ n = l.length ∧ Packet.Stream (packetsOf h last l) b ∧
      t = ⟨h, v, last, .completed⟩ ∧ w' = w.grow b := by
  obtain ⟨l, e, v, hv⟩ := Verified.exists_runs (Verified.new h packets) rfl
  have hr : Runs (withPackets h packets last) l e ⟨h, v, last, .ofEnding e⟩ := runs_of_verified hv h last
  cases writes_writeTo hr w _ _ _ hwrite with
  | @sent _ w₂ _ hpackets he hend hflush =>
    subst he
    have hall : writeAll (packetsOf h last l) w = (.ok (), w₂) := by
      rw [packetsOf, ← List.cons_append]
      exact Packet.writeAll_append_eq_ok_iff.mpr ⟨_, hpackets, hend⟩
    obtain ⟨b, hb, rfl⟩ := Packet.stream_of_writes hw (Packet.writes_iff.mpr hall)
    rw [Sink.flush_eq (hw.grow b), Prod.mk.injEq] at hflush
    exact ⟨l, v, b, hv, rfl, hb, rfl, hflush.2.symm⟩

/-- A session whose packets come to their end without a failure is written in full, if its header and its
packets fit frames. -/
theorem writeTo_of_drains {h : Header} {packets : φ} {l : List Sequence} {v : Verified φ}
    (hd : Drains (Verified.new h packets) l v) (hh : h.encode.size ≤ Frame.maxLength)
    (hl : ∀ p ∈ l, p.encode.size ≤ Frame.maxLength) {w : Sink} (hw : w.Unfailing) (last : Bool) :
    ∃ b, Packet.Stream (packetsOf h last l) b ∧
      (withPackets h packets last).writeTo w = (.ok l.length, ⟨h, v, last, .completed⟩, w.grow b) := by
  have hr : Drains (withPackets h packets last) l ⟨h, v, last, .completed⟩ := runs_of_verified hd h last
  have hfits : ∀ p ∈ packetsOf h last l, p.payload.size ≤ Frame.maxLength := by
    intro p hp
    rcases List.mem_cons.mp hp with rfl | hp
    · exact hh
    rcases List.mem_append.mp hp with hp | hp
    · obtain ⟨q, hq, rfl⟩ := List.mem_map.mp hp
      exact hl q hq
    · exact payload_le_of_mem_ending hp
  obtain ⟨w₂, hall⟩ := Packet.exists_writes hfits hw
  obtain ⟨b, hb, rfl⟩ := Packet.stream_of_writes hw hall
  have hall' := Packet.writes_iff.mp hall
  rw [packetsOf, ← List.cons_append] at hall'
  obtain ⟨w₁, hpackets, hend⟩ := Packet.writeAll_append_eq_ok_iff.mp hall'
  exact ⟨b, hb, writeTo_of_written hr hpackets hend (Sink.flush_eq (hw.grow b))⟩

end Session
end ChunkRelay
