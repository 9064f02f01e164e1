import ChunkRelay.Proofs.Skipping
import Mathlib.Algebra.GroupWithZero.Nat

/-! Streams that are cut off. Whatever of a batch arrives, the sessions that lie wholly in it are received,
the cut is found where it is, and it is never taken for the end of the batch. -/
namespace ChunkRelay

open PacketFeed

theorem Bytes.exists_of_append_eq_append {a b c d : Bytes} (h : a ++ b = c ++ d) (hsize : a.size ≤ c.size) :
    ∃ e, c = a ++ e ∧ b = e ++ d := by
  have hlists : a.data.toList ++ b.data.toList = c.data.toList ++ d.data.toList := by
    simpa using congrArg (fun x : Bytes => x.data.toList) h
  rcases List.append_eq_append_iff.mp hlists with ⟨e, hc, hb⟩ | ⟨e, ha, hd⟩
  · exact ⟨⟨e.toArray⟩, ByteArray.ext (Array.toList_inj.mp (by simpa using hc)),
      ByteArray.ext (Array.toList_inj.mp (by simpa using hb))⟩
  · have hlength : a.data.toList.length ≤ c.data.toList.length := hsize
    rw [ha, List.length_append] at hlength
    have he : e = [] := List.eq_nil_of_length_eq_zero (by omega)
    subst he
    exact ⟨ByteArray.empty, ByteArray.ext (Array.toList_inj.mp (by simpa using ha.symm)),
      ByteArray.ext (Array.toList_inj.mp (by simpa using hd.symm))⟩

theorem Bytes.take_append_drop {b : Bytes} {n : Nat} (h : n ≤ b.size) : b.extract 0 n ++ b.extract n b.size = b := by
  rw [ByteArray.extract_append_extract, Nat.zero_min, Nat.max_eq_right h, ByteArray.extract_zero_size]

namespace Frame

variable {s : Source} {t : Bytes}

/-- What is whole in the front of a stream is read as if nothing were cut off. -/
theorem readExact_of_whole (hs : s.Steady) {a c : Bytes} (h : a ++ c = s.rest ++ t)
    (hsize : a.size ≤ s.rest.size) :
    readExact s a.size = (.ok a, s.advance a.size) ∧ c = (s.advance a.size).rest ++ t := by
  obtain ⟨e, hrest, hc⟩ := Bytes.exists_of_append_eq_append h hsize
  obtain ⟨hread, he⟩ := readExact_append hs hrest
  exact ⟨hread, by rw [he, hc]⟩

theorem read_of_cut (hs : s.Steady) {payload b : Bytes} (hb : encode payload = .ok b) (h : b = s.rest ++ t)
    (hcut : s.rest.size < b.size) : ∃ s', Frame.read s = (.error .truncated, s') := by
  suffices hresult : (Frame.read s).1 = .error .truncated from ⟨_, Prod.ext hresult rfl⟩
  obtain ⟨hmax, rfl⟩ := encode_eq_ok_iff.mp hb
  have hsize : (UInt32.ofNat payload.size).toNat = payload.size :=
    UInt32.toNat_ofNat_of_lt' (Nat.lt_of_le_of_lt hmax (by decide))
  have hfits : ¬ payload.size > maxLength := Nat.not_lt.mpr hmax
  simp only [ByteArray.size_append, Bytes.size_ofUInt32LE] at hcut
  rw [ByteArray.append_assoc] at h
  -- the cut is in the length, in the payload or in the checksum
  by_cases hlength : s.rest.size < 4
  · simp only [Frame.read, readExact_of_short hs hlength]
  obtain ⟨hhead, hrest⟩ := readExact_of_whole hs h (by simp only [Bytes.size_ofUInt32LE]; omega)
  rw [Bytes.size_ofUInt32LE] at hhead hrest
  have hleft : (s.advance 4).rest.size = s.rest.size - 4 := by simp; omega
  have hvalue := (Bytes.holds_self (Bytes.ofUInt32LE (UInt32.ofNat payload.size))).uint32LE_eq
  by_cases hpayload : (s.advance 4).rest.size < payload.size
  · simp only [Frame.read, hhead, hvalue, hsize, if_neg hfits, readExact_of_short (hs.advance 4) hpayload]
  obtain ⟨hbody, -⟩ := readExact_of_whole (hs.advance 4) hrest (Nat.le_of_not_lt hpayload)
  have htrailer : ((s.advance 4).advance payload.size).rest.size < 4 := by
    simp only [Source.size_rest, Source.bytes_advance, Source.pos_advance] at hcut hleft ⊢
    omega
  simp only [Frame.read, hhead, hvalue, hsize, if_neg hfits, hbody,
    readExact_of_short ((hs.advance 4).advance _) htrailer]

end Frame

namespace Packet

/-- The bytes that packets take on a stream. -/
def span (l : List Packet) : Nat := (l.map wireSize).sum

@[simp] theorem span_nil : span [] = 0 := rfl

@[simp] theorem span_cons (p : Packet) (l : List Packet) : span (p :: l) = p.wireSize + span l := by simp [span]

@[simp] theorem span_append (l m : List Packet) : span (l ++ m) = span l + span m := by simp [span]

variable {s : Source} {p : Packet} {l : List Packet} {c t : Bytes}

/-- A packet that arrives in whole is read, whatever is cut off behind it. -/
theorem readTyped_of_whole (hs : s.Steady) (hl : Stream (p :: l) c) (h : c = s.rest ++ t)
    (hsize : p.wireSize ≤ s.rest.size) :
    readTyped s = (ofPayload p.type p.payload, s.advance p.wireSize) ∧ p.payload.size ≤ Frame.maxLength ∧
      ∃ c', Stream l c' ∧ c' = (s.advance p.wireSize).rest ++ t := by
  cases hl with
  | @cons _ _ b c' hb hl =>
    have hfirst : ByteArray.size (⟨#[p.type.byte]⟩ ++ b) = p.wireSize := by
      rw [ByteArray.size_append]
      exact size_of_encode hb
    obtain ⟨e, hrest, hc'⟩ := Bytes.exists_of_append_eq_append h (hfirst ▸ hsize)
    obtain ⟨hread, he⟩ := readTyped_append hs hb hrest
    exact ⟨hread, (Frame.encode_eq_ok_iff.mp (encode_eq_ok_iff.mp hb)).1, c', hl, by rw [he, hc']⟩

/-- A packet that is cut off, wherever that is, is missed. -/
theorem readTyped_of_cut (hs : s.Steady) (hl : Stream (p :: l) c) (h : c = s.rest ++ t)
    (hcut : s.rest.size < p.wireSize) : ∃ s', readTyped s = (.error (.framing .truncated), s') := by
  suffices hresult : (readTyped s).1 = .error (.framing .truncated) from ⟨_, Prod.ext hresult rfl⟩
  cases hl with
  | @cons _ _ b c' hb hl =>
    have hfirst := size_of_encode hb
    have hbyte : ByteArray.size ⟨#[p.type.byte]⟩ = 1 := rfl
    by_cases hnone : s.rest.size < 1
    · simp only [readTyped, Frame.readExact_of_short hs hnone]
    rw [ByteArray.append_assoc] at h
    obtain ⟨hread, hrest⟩ := Frame.readExact_of_whole hs h (by omega)
    rw [hbyte] at hread hrest
    have hleft : (s.advance 1).rest.size < b.size := by
      simp only [Source.size_rest, Source.bytes_advance, Source.pos_advance] at hcut hnone ⊢
      omega
    obtain ⟨e, hb', -⟩ := Bytes.exists_of_append_eq_append hrest.symm (Nat.le_of_lt hleft)
    obtain ⟨s', hframe⟩ := Frame.read_of_cut (hs.advance 1) (encode_eq_ok_iff.mp hb) hb' hleft
    have htype : Bytes.at0 ⟨#[p.type.byte]⟩ 0 = p.type.byte := rfl
    simp only [readTyped, hread, htype, ofByte_byte, read, hframe]

/-- What a stream holds is as long as the packets are. -/
theorem Stream.size_eq (h : Stream l c) : c.size = span l := by
  induction h with
  | nil => rfl
  | @cons p l b c hb _ ih =>
    have hfirst := size_of_encode hb
    have hbyte : ByteArray.size ⟨#[p.type.byte]⟩ = 1 := rfl
    rw [ByteArray.size_append, ByteArray.size_append, ih, span_cons, hbyte]
    omega

end Packet

/-- How a packet that is cut off is missed. -/
def TransferError.cutShort : TransferError := .packet (.framing .truncated)

open TransferError (cutShort)

/-! Sessions. -/

namespace PacketFeed

variable {σ : Type} [PacketFeed σ]

/-- All that pulling a feed brings up to its end, failures included. No more than `fuel` pulls are made. -/
def collect : Nat → σ → List Delivery × σ
  | 0, s => ([], s)
  | fuel + 1, s =>
    match PacketFeed.next s with
    | (none, s) => ([], s)
    | (some d, s) =>
      let (l, s) := collect fuel s
      (d :: l, s)

theorem collect_of_runs {s s' : σ} {l : List Sequence} {e : Option TransferError} (h : Runs s l e s')
    (hend : PacketFeed.next s' = (none, s')) {fuel : Nat} (hf : l.length + 1 < fuel) :
    collect fuel s = (l.map .ok ++ e.toList.map .error, s') := by
  induction l generalizing s fuel with
  | nil =>
    have hn := runs_nil_iff.mp h
    obtain ⟨fuel, rfl⟩ : ∃ n, fuel = n + 2 := ⟨fuel - 2, by omega⟩
    cases e <;> simp [collect, hn, hend]
  | cons p l ih =>
    obtain ⟨t, hn, hrest⟩ := runs_cons_iff.mp h
    obtain ⟨fuel, rfl⟩ : ∃ n, fuel = n + 1 := ⟨fuel - 1, by omega⟩
    simp only [collect, hn, ih hrest (Nat.lt_of_succ_lt_succ hf), List.map_cons, List.cons_append]

end PacketFeed

namespace Session

variable {σ : Type} [PacketFeed σ]

/-- All that a session brings up to its end. -/
def drain (s : Session σ) : List Delivery × Session σ := PacketFeed.collect (s.fuel + 1) s

/-- A session brings what its packets run through, then the failure that ended the run, and nothing after
it. -/
theorem drain_of_verified {v w : Verified σ} {l : List Sequence} {e : Option TransferError} (h : Runs v l e w)
    (header : Header) (last : Bool) :
    (⟨header, v, last, .unfinished⟩ : Session σ).drain =
      (l.map .ok ++ e.toList.map .error, ⟨header, w, last, .ofEnding e⟩) :=
  collect_of_runs (runs_of_verified h header last) (next_of_closed (SessionState.ofEnding_ne_unfinished e))
    (Nat.succ_lt_succ (Verified.length_lt_fuel h))

end Session

/-- Where the feed fails, the checked feed fails with it. -/
theorem Verified.runs_of_listed {σ : Type} [PacketFeed σ] {f f' : σ} {l : List Sequence} {e : TransferError}
    (hf : Runs f l (some e) f') {k : Nat} {hashes : List Hash} (hl : Listed k hashes l) (rest : List Hash) :
    Runs (⟨f, hashes ++ rest, k, false⟩ : Verified σ) l (some e) ⟨f', rest, k + l.length, true⟩ := by
  obtain ⟨u, hp, hn⟩ := hf
  exact ⟨_, pulls_of_listed hp hl rest, by simp only [next_eq, next, hn]; rfl⟩

theorem Listed.exists_of_append {k : Nat} {hashes : List Hash} {q r : List Sequence} (h : Listed k hashes (q ++ r)) :
    ∃ a b, hashes = a ++ b ∧ Listed k a q := by
  induction q generalizing k hashes with
  | nil => exact ⟨[], hashes, rfl, .nil⟩
  | cons p q ih =>
    cases h with
    | cons hn hh hl =>
      obtain ⟨a, b, rfl, ha⟩ := ih hl
      exact ⟨_ :: a, b, rfl, .cons hn hh ha⟩

/-- The chunks that arrive in whole with the first `n` bytes of all of them. -/
def Sequence.arrived : Nat → List Sequence → List Sequence
  | _, [] => []
  | n, p :: q =>
    if (Packet.sequence p).wireSize ≤ n then p :: arrived (n - (Packet.sequence p).wireSize) q else []

theorem Sequence.exists_arrived_append (n : Nat) (q : List Sequence) : ∃ r, q = arrived n q ++ r := by
  induction q generalizing n with
  | nil => exact ⟨[], rfl⟩
  | cons p q ih =>
    rw [arrived]
    split
    · obtain ⟨r, hr⟩ := ih (n - (Packet.sequence p).wireSize)
      exact ⟨r, by rw [List.cons_append, ← hr]⟩
    · exact ⟨p :: q, rfl⟩

namespace Inbox

/-- An inbox with `k` chunks of a session to go whose source holds the packets `l`, but for the bytes `t`
at their end. -/
structure Lacks (i : Inbox) (k : Nat) (l : List Packet) (t : Bytes) : Prop where
  pending_eq : i.pending = k
  not_broken : i.broken = false
  not_finished : i.finished = false
  steady : i.source.Steady
  stream : ∃ c, Packet.Stream l c ∧ c = i.source.rest ++ t

/-- The bytes that there still are. -/
def left (i : Inbox) : Nat := i.source.rest.size

/-- An inbox that gives no session any more. -/
structure Stuck (i : Inbox) : Prop where
  broken_eq : i.broken = true
  not_finished : i.finished = false

variable {i : Inbox} {k : Nat} {l : List Packet} {t : Bytes}

theorem nextHeader_of_stuck (h : i.Stuck) : i.nextHeader = (.error .streamBroken, i) := by
  cases hp : i.pending with
  | zero => simp [nextHeader, h.not_finished, h.broken_eq, hp, skip]
  | succ n => simp [nextHeader, h.not_finished, hp, skip, readChunk, h.broken_eq]

theorem left_advance (s : Source) (n : Nat) : (s.advance n).rest.size = s.rest.size - n := by
  simp only [Source.size_rest, Source.bytes_advance, Source.pos_advance]
  omega

theorem next_of_whole {p : Sequence} (h : i.Lacks (k + 1) (.sequence p :: l) t)
    (hsize : (Packet.sequence p).wireSize ≤ i.left) :
    ∃ j, PacketFeed.next i = (some (.ok p), j) ∧ j.Lacks k l t ∧ j.left = i.left - (Packet.sequence p).wireSize := by
  obtain ⟨c, hc, hrest⟩ := h.stream
  obtain ⟨hread, hfits, hstream⟩ := Packet.readTyped_of_whole h.steady hc hrest hsize
  rw [Packet.faithful_sequence p hfits] at hread
  have hpending : i.pending ≠ 0 := by
    rw [h.pending_eq]
    exact Nat.succ_ne_zero k
  refine ⟨{ i with source := i.source.advance (Packet.sequence p).wireSize, pending := i.pending - 1 }, ?_,
    ⟨?_, h.not_broken, h.not_finished, h.steady.advance _, hstream⟩, left_advance _ _⟩
  · simp [PacketFeed.next, hpending, readChunk, h.not_broken, hread]
  · rw [h.pending_eq]
    rfl

theorem next_of_cut {p : Sequence} (h : i.Lacks (k + 1) (.sequence p :: l) t)
    (hcut : i.left < (Packet.sequence p).wireSize) :
    ∃ j, PacketFeed.next i = (some (.error cutShort), j) ∧ j.Stuck := by
  obtain ⟨c, hc, hrest⟩ := h.stream
  have hpending : i.pending ≠ 0 := by
    rw [h.pending_eq]
    exact Nat.succ_ne_zero k
  obtain ⟨s, hread⟩ := Packet.readTyped_of_cut h.steady hc hrest hcut
  refine ⟨{ i with source := s, broken := true }, ?_, rfl, h.not_finished⟩
  simp [PacketFeed.next, hpending, readChunk, h.not_broken, hread, cutShort]

/-- Chunks that all arrive are all pulled. -/
theorem drains_of_whole {q : List Sequence} (h : i.Lacks q.length (q.map .sequence ++ l) t)
    (hsize : Packet.span (q.map .sequence) ≤ i.left) :
    ∃ j, Drains i q j ∧ j.Lacks 0 l t ∧ j.left = i.left - Packet.span (q.map .sequence) := by
  induction q generalizing i with
  | nil =>
    refine ⟨i, runs_nil_iff.mpr ?_, h, rfl⟩
    simp [PacketFeed.next, h.pending_eq]
  | cons p q ih =>
    rw [List.map_cons, Packet.span_cons] at hsize
    obtain ⟨j, hn, hj, hleft⟩ := next_of_whole h (by omega)
    obtain ⟨j', hd, hj', hleft'⟩ := ih hj (by omega)
    refine ⟨j', runs_cons_iff.mpr ⟨j, hn, hd⟩, hj', ?_⟩
    rw [hleft', hleft, List.map_cons, Packet.span_cons]
    omega

/-- Of chunks that are cut off those are pulled that arrive in whole, and then pulling fails. -/
theorem runs_of_cut {q : List Sequence} (h : i.Lacks q.length (q.map .sequence ++ l) t)
    (hcut : i.left < Packet.span (q.map .sequence)) :
    ∃ j, Runs i (Sequence.arrived i.left q) (some cutShort) j ∧ j.Stuck := by
  induction q generalizing i with
  | nil => cases hcut
  | cons p q ih =>
    rw [List.map_cons, Packet.span_cons] at hcut
    rw [Sequence.arrived]
    by_cases hp : (Packet.sequence p).wireSize ≤ i.left
    · obtain ⟨j, hn, hj, hleft⟩ := next_of_whole h hp
      obtain ⟨j', hr, hj'⟩ := ih hj (by omega)
      rw [hleft] at hr
      exact ⟨j', by rw [if_pos hp]; exact runs_cons_iff.mpr ⟨j, hn, hr⟩, hj'⟩
    · obtain ⟨j, hn, hj⟩ := next_of_cut h (Nat.lt_of_not_le hp)
      exact ⟨j, by rw [if_neg hp]; exact runs_nil_iff.mpr hn, hj⟩

theorem nextHeader_of_lacks (h : i.Lacks 0 l t) : i.nextHeader = i.readHeader := by
  simp [nextHeader, h.not_finished, h.pending_eq, skip, h.not_broken]

theorem nextHeader_of_whole {h : Header} (hs : h.Sound) (he : h.endOfStream = false)
    (hi : i.Lacks 0 (.header h :: l) t) (hsize : (Packet.header h).wireSize ≤ i.left) :
    ∃ j, i.nextHeader = (.ok (some h.received), j) ∧ j.Lacks h.chunkCount l t ∧
      j.left = i.left - (Packet.header h).wireSize := by
  obtain ⟨c, hc, hrest⟩ := hi.stream
  obtain ⟨hread, hfits, hstream⟩ := Packet.readTyped_of_whole hi.steady hc hrest hsize
  have hpayload : Packet.ofPayload (Packet.header h).type (Packet.header h).payload = .ok (.header h.received) :=
    Packet.ofPayload_header hs.ofRaw_raw hfits
  have hreceived : h.received.endOfStream = false := he
  rw [hpayload] at hread
  refine ⟨{ i with source := i.source.advance (Packet.header h).wireSize, pending := h.chunkCount }, ?_,
    ⟨rfl, hi.not_broken, hi.not_finished, hi.steady.advance _, hstream⟩, left_advance _ _⟩
  rw [nextHeader_of_lacks hi]
  simp only [readHeader, hread, hreceived]
  rfl

theorem nextHeader_of_cut {h : Header} (hi : i.Lacks 0 (.header h :: l) t)
    (hcut : i.left < (Packet.header h).wireSize) :
    ∃ j, i.nextHeader = (.error cutShort, j) ∧ j.Stuck := by
  obtain ⟨c, hc, hrest⟩ := hi.stream
  obtain ⟨s, hread⟩ := Packet.readTyped_of_cut hi.steady hc hrest hcut
  refine ⟨{ i with source := s, broken := true }, ?_, rfl, hi.not_finished⟩
  rw [nextHeader_of_lacks hi]
  simp [readHeader, hread, cutShort]

/-! Batches. -/

/-- What a session comes to: its header, what its packets brought, and the state that it was left in. -/
structure Receipt where
  header : Header
  items : List Delivery
  state : SessionState

/-- Takes the next session and reads it to its end. -/
def drainSession (i : Inbox) : Except TransferError (Option Receipt) × Inbox :=
  match i.nextHeader with
  | (.error e, i) => (.error e, i)
  | (.ok none, i) => (.ok none, i)
  | (.ok (some h), i) =>
    let (items, s) := (Session.inbound h i).drain
    (.ok (some ⟨h, items, s.state⟩), s.packets.inner)

/-- Takes so many sessions one after another. -/
def drainSessions : Nat → Inbox → List (Except TransferError (Option Receipt))
  | 0, _ => []
  | n + 1, i =>
    let (result, i) := i.drainSession
    result :: drainSessions n i

/-- A session that arrives in whole. -/
def Receipt.whole (x : Header × List Sequence) : Receipt := ⟨x.1.received, x.2.map .ok, .completed⟩

/-- A session of whose chunks `n` bytes arrive. -/
def Receipt.cut (n : Nat) (x : Header × List Sequence) : Receipt :=
  ⟨x.1.received, (Sequence.arrived n x.2).map .ok ++ [.error cutShort], .failed cutShort.message⟩

/-- What a reader comes to where `n` bytes are left and the first of these sessions, or the end of the batch
if there is none, is cut off. -/
def breaking (n : Nat) : List (Header × List Sequence) → Except TransferError (Option Receipt)
  | [] => .error cutShort
  | x :: _ =>
    if n < (Packet.header x.1).wireSize then .error cutShort
    else .ok (some (.cut (n - (Packet.header x.1).wireSize) x))

/-- Of the sessions that are sent, `whole` lie in the first `n` bytes of their batch, and the first of the
others, `cut`, does not. -/
structure CutAt (n : Nat) (sent whole cut : List (Header × List Sequence)) : Prop where
  split : sent = whole ++ cut
  inside : Packet.span (whole.flatMap onStream) ≤ n
  outside : ∀ x, cut.head? = some x → n < Packet.span ((whole ++ [x]).flatMap onStream)

/-- What a reader comes to that `n` bytes of such a batch reach, up to where it breaks. -/
def outcomes (n : Nat) (whole cut : List (Header × List Sequence)) : List (Except TransferError (Option Receipt)) :=
  whole.map (fun x => .ok (some (.whole x))) ++ [breaking (n - Packet.span (whole.flatMap onStream)) cut]

theorem ok_none_notMem_outcomes (n : Nat) (whole cut : List (Header × List Sequence)) :
    .ok none ∉ outcomes n whole cut := by
  have hbreaking (m : Nat) : breaking m cut ≠ .ok none := by
    unfold breaking
    split
    · simp
    · split <;> simp
  rw [outcomes, List.mem_append, not_or]
  exact ⟨by simp, fun h => hbreaking _ (List.mem_singleton.mp h).symm⟩

theorem outcomes_nil (n : Nat) (cut : List (Header × List Sequence)) : outcomes n [] cut = [breaking n cut] := by
  rw [outcomes, List.flatMap_nil, Packet.span_nil, Nat.sub_zero]
  rfl

theorem outcomes_cons (n : Nat) (x : Header × List Sequence) (whole cut : List (Header × List Sequence)) :
    outcomes n (x :: whole) cut = .ok (some (.whole x)) :: outcomes (n - Packet.span (onStream x)) whole cut := by
  rw [outcomes, outcomes, List.flatMap_cons, Packet.span_append, Nat.sub_sub]
  rfl

/-- A header with the chunks that it lists. -/
structure Listing (x : Header × List Sequence) : Prop where
  sound : x.1.Sound
  not_ended : x.1.endOfStream = false
  listed : Listed 0 x.1.hashes x.2

variable {x : Header × List Sequence}

theorem span_onStream (x : Header × List Sequence) :
    Packet.span (onStream x) = (Packet.header x.1).wireSize + Packet.span (x.2.map .sequence) := Packet.span_cons _ _

/-- A session comes to what its packets run through. -/
theorem drainSession_of_runs {k : Inbox} {h : Header} (hi : i.nextHeader = (.ok (some h), k)) {q : List Sequence}
    {e : Option TransferError} {v : Verified Inbox} (hr : Runs (Verified.new h k) q e v) :
    i.drainSession = (.ok (some ⟨h, q.map .ok ++ e.toList.map .error, .ofEnding e⟩), v.inner) := by
  have hsession : Session.inbound h k = ⟨h, .new h k, h.endOfStream, .unfinished⟩ := rfl
  simp only [drainSession, hi, hsession, Session.drain_of_verified hr h h.endOfStream]

theorem drainSession_of_whole (hx : Listing x) (hi : i.Lacks 0 (onStream x ++ l) t)
    (hsize : Packet.span (onStream x) ≤ i.left) :
    ∃ j, i.drainSession = (.ok (some (.whole x)), j) ∧ j.Lacks 0 l t ∧ j.left = i.left - Packet.span (onStream x) := by
  rw [span_onStream] at hsize ⊢
  obtain ⟨j, hheader, hj, hleft⟩ := nextHeader_of_whole hx.sound hx.not_ended hi (by omega)
  rw [Header.chunkCount, hx.listed.length_eq] at hj
  obtain ⟨j', hd, hj', hleft'⟩ := drains_of_whole hj (by omega)
  have hverified : Drains (Verified.new x.1.received j) x.2 ⟨j', [], 0 + x.2.length, true⟩ :=
    Verified.drains_of_listed hd hx.listed
  refine ⟨j', ?_, hj', by omega⟩
  rw [drainSession_of_runs hheader hverified, Option.toList_none, List.map_nil, List.append_nil]
  rfl

theorem drainSession_of_cut (hx : Listing x) (hi : i.Lacks 0 (onStream x ++ l) t)
    (hcut : i.left < Packet.span (onStream x)) (rest : List (Header × List Sequence)) :
    ∃ j, i.drainSession = (breaking i.left (x :: rest), j) ∧ j.Stuck := by
  rw [span_onStream] at hcut
  rw [breaking]
  by_cases hheader : i.left < (Packet.header x.1).wireSize
  · obtain ⟨j, hn, hj⟩ := nextHeader_of_cut hi hheader
    exact ⟨j, by rw [if_pos hheader, drainSession, hn], hj⟩
  · obtain ⟨j, hn, hj, hleft⟩ := nextHeader_of_whole hx.sound hx.not_ended hi (Nat.le_of_not_lt hheader)
    rw [Header.chunkCount, hx.listed.length_eq] at hj
    obtain ⟨j', hr, hj'⟩ := runs_of_cut hj (by omega)
    -- the chunks that arrive are the first that the header lists
    obtain ⟨r, hq⟩ := Sequence.exists_arrived_append j.left x.2
    obtain ⟨a, b, hhashes, ha⟩ := Listed.exists_of_append (hq ▸ hx.listed)
    have hruns := Verified.runs_of_listed hr ha b
    rw [← hhashes] at hruns
    have hverified : Runs (Verified.new x.1.received j) (Sequence.arrived j.left x.2) (some cutShort) _ := hruns
    refine ⟨j', ?_, hj'⟩
    rw [if_neg hheader, ← hleft, drainSession_of_runs hn hverified]
    rfl

theorem drainSessions_of_stuck (h : i.Stuck) (n : Nat) :
    drainSessions n i = List.replicate n (.error .streamBroken) := by
  induction n with
  | zero => rfl
  | succ n ih =>
    have hn : i.drainSession = (.error .streamBroken, i) := by rw [drainSession, nextHeader_of_stuck h]
    simp only [drainSessions, hn, ih, List.replicate_succ]

/-- One call and those after it. -/
theorem drainSessions_of_first {r : Except TransferError (Option Receipt)} {j : Inbox}
    {later : List (Except TransferError (Option Receipt))} (hfirst : i.drainSession = (r, j))
    (hlater : ∀ n, drainSessions n j = (later.take n).rightpad n (.error .streamBroken)) (calls : Nat) :
    drainSessions calls i = ((r :: later).take calls).rightpad calls (.error .streamBroken) := by
  cases calls with
  | zero => rfl
  | succ n => simp [drainSessions, hfirst, hlater n, List.rightpad]

/-- A call that breaks the batch is the last to come to anything else than that. -/
theorem drainSessions_of_break {r : Except TransferError (Option Receipt)} {j : Inbox}
    (hfirst : i.drainSession = (r, j)) (hj : j.Stuck) (calls : Nat) :
    drainSessions calls i = ([r].take calls).rightpad calls (.error .streamBroken) :=
  drainSessions_of_first hfirst (fun n => by simp [drainSessions_of_stuck hj, List.rightpad]) calls

/-- The sessions that arrive in whole are received, the one that is cut off breaks the batch, and nothing
is received after it. -/
theorem drainSessions_of_lacks {sent : List (Header × List Sequence)} (hsent : ∀ x ∈ sent, Listing x)
    (hi : i.Lacks 0 (sent.flatMap onStream ++ [.header Header.terminator]) t)
    (hcut : i.left < Packet.span (sent.flatMap onStream ++ [.header Header.terminator])) :
    ∃ whole cut, CutAt i.left sent whole cut ∧
      ∀ calls, drainSessions calls i = ((outcomes i.left whole cut).take calls).rightpad calls (.error .streamBroken) := by
  induction sent generalizing i with
  | nil =>
    obtain ⟨j, hn, hj⟩ := nextHeader_of_cut hi (by simpa using hcut)
    have hfirst : i.drainSession = (.error cutShort, j) := by rw [drainSession, hn]
    refine ⟨[], [], ⟨rfl, Nat.zero_le _, by simp⟩, fun calls => ?_⟩
    rw [outcomes_nil]
    exact drainSessions_of_break hfirst hj calls
  | cons x sent ih =>
    have hx := hsent x List.mem_cons_self
    rw [List.flatMap_cons, List.append_assoc] at hi hcut
    by_cases hsize : Packet.span (onStream x) ≤ i.left
    · obtain ⟨j, hfirst, hj, hleft⟩ := drainSession_of_whole hx hi hsize
      rw [Packet.span_append] at hcut
      obtain ⟨whole, cut, ⟨rfl, hinside, houtside⟩, hcalls⟩ :=
        ih (fun y hy => hsent y (List.mem_cons_of_mem x hy)) hj (by omega)
      have hspan (m : List (Header × List Sequence)) : Packet.span ((x :: m).flatMap onStream) =
          Packet.span (onStream x) + Packet.span (m.flatMap onStream) := by
        rw [List.flatMap_cons, Packet.span_append]
      refine ⟨x :: whole, cut, ⟨rfl, ?_, fun y hy => ?_⟩, fun calls => ?_⟩
      · rw [hspan]
        omega
      · have hy' := houtside y hy
        rw [List.cons_append, hspan]
        omega
      · rw [outcomes_cons, ← hleft]
        exact drainSessions_of_first hfirst hcalls calls
    · obtain ⟨j, hfirst, hj⟩ := drainSession_of_cut hx hi (Nat.lt_of_not_le hsize) sent
      refine ⟨[], x :: sent, ⟨rfl, Nat.zero_le _, fun y hy => ?_⟩, fun calls => ?_⟩
      · obtain rfl := Option.some.inj hy
        simpa using Nat.lt_of_not_le hsize
      · rw [outcomes_nil]
        exact drainSessions_of_break hfirst hj calls

end Inbox

namespace Outgoing

open Inbox (CutAt Listing onStream outcomes drainSessions)

/-- The session carries a message and was not pulled yet. -/
structure Opens (o : Outgoing) (last : Bool) : Prop where
  untouched : ∃ packets : o.feed, o.session = Session.withPackets o.header packets last
  made : o.header.Made
  not_ended : o.header.endOfStream = false

/-- Sessions of which the last one, and no other, closes the batch. -/
inductive Series : List Outgoing → Prop
  | last {o : Outgoing} : Opens o true → Series [o]
  | cons {o : Outgoing} {l : List Outgoing} : Opens o false → Series l → Series (o :: l)

/-- What sessions send: each its header and the packets that it drains of. -/
inductive Sent : List Outgoing → List (Header × List Sequence) → Prop
  | nil : Sent [] []
  | cons {o : Outgoing} {l : List Outgoing} {q : List Sequence} {t : Session o.feed}
      {sent : List (Header × List Sequence)} :
      Drains o.session q t → Sent l sent → Sent (o :: l) ((o.header, q) :: sent)

/-- What is written of one session. -/
theorem stream_of_opens {o : Outgoing} {last : Bool} (ho : Opens o last) {w w' : Sink} (hw : w.Unfailing)
    {n : Nat} {s : Session o.feed} (hwrite : o.session.writeTo w = (.ok n, s, w')) :
    ∃ q t b, Drains o.session q t ∧ Listing (o.header, q) ∧
      Packet.Stream (onStream (o.header, q) ++ if last then [.header Header.terminator] else []) b ∧
      w' = w.grow b := by
  obtain ⟨packets, hsession⟩ := ho.untouched
  obtain ⟨q, t, b, hd, hq, -, hstream, hgrow⟩ := stream_of_writeTo hsession hw hwrite
  have hending : Session.ending o.header last = if last then [.header Header.terminator] else [] := by
    simp [Session.ending, ho.not_ended]
  rw [Session.packetsOf, hending, ← List.cons_append] at hstream
  exact ⟨q, t, b, hd, ⟨ho.made.sound, ho.not_ended, hq⟩, hstream, hgrow⟩

/-- What is written of a batch. -/
theorem stream_of_series {l : List Outgoing} (hl : Series l) {w w' : Sink} (hw : w.Unfailing)
    {counts : List Nat} (hwrite : Written l w counts w') :
    ∃ sent b, Sent l sent ∧ (∀ x ∈ sent, Listing x) ∧
      Packet.Stream (sent.flatMap onStream ++ [.header Header.terminator]) b ∧ w' = w.grow b := by
  induction hl generalizing w counts with
  | @last o ho =>
    cases hwrite with
    | cons hfirst hrest =>
      cases hrest with
      | nil =>
        obtain ⟨q, t, b, hd, hx, hstream, rfl⟩ := stream_of_opens ho hw hfirst
        exact ⟨[(o.header, q)], b, .cons hd .nil, by simpa using hx, by simpa using hstream, rfl⟩
  | @cons o l ho _ ih =>
    cases hwrite with
    | cons hfirst hrest =>
      obtain ⟨q, t, b, hd, hx, hstream, rfl⟩ := stream_of_opens ho hw hfirst
      obtain ⟨sent, c, hsent, hlisting, hstream', rfl⟩ := ih (hw.grow b) hrest
      refine ⟨(o.header, q) :: sent, b ++ c, .cons hd hsent, ?_, ?_, by rw [Sink.grow_grow]⟩
      · exact List.forall_mem_cons.mpr ⟨hx, hlisting⟩
      · rw [List.flatMap_cons, List.append_assoc]
        exact Packet.Stream.append (by simpa using hstream) hstream'

/-- A batch that is cut off, at whatever byte, is never taken for a complete one. The sessions that lie
wholly in what arrives are received in order. At the cut either no header comes, or a session fails for want
of a chunk after those that arrive; and from there on the stream is given up. -/
theorem drainSessions_of_cut {l : List Outgoing} (hl : Series l) {counts : List Nat} {w : Sink}
    (hwrite : Written l Sink.empty counts w) :
    ∃ sent, Sent l sent ∧ ∀ (s : Source) (lost : Bytes), s.Steady → s.pos = 0 →
      w.accepted = s.bytes ++ lost → lost ≠ ByteArray.empty →
      ∃ whole cut, CutAt s.bytes.size sent whole cut ∧ ∀ calls,
        drainSessions calls (Inbox.new s) =
            ((outcomes s.bytes.size whole cut).take calls).rightpad calls (.error .streamBroken) ∧
          .ok none ∉ drainSessions calls (Inbox.new s) := by
  obtain ⟨sent, b, hsent, hlisting, hstream, rfl⟩ := stream_of_series hl ⟨rfl, rfl⟩ hwrite
  refine ⟨sent, hsent, fun s lost hs hstart hbytes hlost => ?_⟩
  rw [Sink.accepted_grow_empty] at hbytes
  have hrest : s.rest = s.bytes := Source.rest_of_start hstart
  have hi : (Inbox.new s).Lacks 0 (sent.flatMap onStream ++ [.header Header.terminator]) lost :=
    ⟨rfl, rfl, rfl, hs, b, hstream, hbytes.trans (congrArg (· ++ lost) hrest.symm)⟩
  have hleft : (Inbox.new s).left = s.bytes.size := congrArg ByteArray.size hrest
  have hcut : (Inbox.new s).left < Packet.span (sent.flatMap onStream ++ [.header Header.terminator]) := by
    have hsize : lost.size ≠ 0 := fun h => hlost (ByteArray.size_eq_zero_iff.mp h)
    rw [← hstream.size_eq, hbytes, ByteArray.size_append, hleft]
    omega
  obtain ⟨whole, cut, hat, hcalls⟩ := Inbox.drainSessions_of_lacks hlisting hi hcut
  rw [hleft] at hat hcalls
  refine ⟨whole, cut, hat, fun calls => ⟨hcalls calls, ?_⟩⟩
  rw [hcalls calls]
  intro hmem
  rcases List.mem_append.mp hmem with h | h
  · exact Inbox.ok_none_notMem_outcomes _ whole cut (List.mem_of_mem_take h)
  · simp at h

theorem opens_note : Opens (ofNote false) false := ⟨⟨[], rfl⟩, .built (d := note.draft) rfl, rfl⟩

theorem opens_letter : Opens (ofLetter true) true :=
  ⟨⟨letterChunks.map .ok, rfl⟩, .built (d := letter.draft) rfl, rfl⟩

theorem series_noteAndLetter : Series noteAndLetter := .cons opens_note (.last opens_letter)

/-- What stands before the second chunk of the letter. -/
def beforeLastChunk : List Packet :=
  [.header note.draft.header, .header letter.draft.header, .sequence (.ofChunk 0 ⟨#[7, 8]⟩)]

/-- Within the second chunk of the letter, three bytes behind its start. -/
def midChunk : Nat := Packet.span beforeLastChunk + 3

theorem midChunk_lt : midChunk < Packet.span (beforeLastChunk ++ [.sequence (.ofChunk 1 ⟨#[9]⟩)]) := by decide +kernel

theorem exists_written_noteAndLetter :
    ∃ b, midChunk < b.size ∧ Written noteAndLetter Sink.empty [0, 2] (Sink.empty.grow b) := by
  obtain ⟨b, hstream, hwrite⟩ := written_noteAndLetter
  refine ⟨b, ?_, hwrite⟩
  rw [hstream.size_eq]
  decide +kernel

/-- A note, and a letter whose second chunk is cut. -/
theorem drainSessions_of_cut_letter :
    midChunk < Packet.span (beforeLastChunk ++ [.sequence (.ofChunk 1 ⟨#[9]⟩)]) ∧
    ∃ w sent, Series noteAndLetter ∧ Written noteAndLetter Sink.empty [0, 2] w ∧ Sent noteAndLetter sent ∧
      let s := Source.ofBytes (w.accepted.extract 0 midChunk)
      s.bytes.size = midChunk ∧ ∃ whole cut, CutAt s.bytes.size sent whole cut ∧ ∀ calls,
        drainSessions calls (Inbox.new s) =
            ((outcomes s.bytes.size whole cut).take calls).rightpad calls (.error .streamBroken) ∧
          .ok none ∉ drainSessions calls (Inbox.new s) := by
  obtain ⟨b, hsize, hwrite⟩ := exists_written_noteAndLetter
  obtain ⟨sent, hsent, hcut⟩ := drainSessions_of_cut series_noteAndLetter hwrite
  rw [Sink.accepted_grow_empty] at hcut
  refine ⟨midChunk_lt, _, sent, series_noteAndLetter, hwrite, hsent, ?_⟩
  rw [Sink.accepted_grow_empty]
  have hbytes : (b.extract 0 midChunk).size = midChunk := by
    rw [ByteArray.size_extract, Nat.min_eq_left (Nat.le_of_lt hsize), Nat.sub_zero]
  refine ⟨hbytes, hcut _ (b.extract midChunk b.size) (Source.steady_ofBytes _) rfl ?_ fun he => ?_⟩
  · exact (Bytes.take_append_drop (Nat.le_of_lt hsize)).symm
  · have hlast := congrArg ByteArray.size he
    rw [ByteArray.size_extract, Nat.min_self] at hlast
    exact absurd hlast (Nat.sub_ne_zero_of_lt hsize)

end Outgoing
end ChunkRelay
