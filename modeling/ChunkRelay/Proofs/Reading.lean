import ChunkRelay.Proofs.Transport
import ChunkRelay.Proofs.Truncation

/-! What is read of a batch from a source that may hand out its bytes in any pieces and break at any of them. It is
told packet by packet: each is the one that is due, and the first that is wrong is the last that is read. -/
namespace ChunkRelay

open PacketFeed

/-- Every member of the list is as it should be among those before and those after it. -/
structure Throughout {α : Type} (P : List α → α → List α → Prop) (l : List α) : Prop where
  at_each : ∀ before a after, l = before ++ a :: after → P before a after

/-- What each step of a run keeps of the events before it tells of all its events. -/
theorem Throughout.at_each_of_steps {α ι ρ : Type} (run : List ι → ρ → List α) (event : ρ → ι → α) (step : ρ → ι → ρ)
    (hnil : ∀ r, run [] r = []) (hcons : ∀ c cs r, run (c :: cs) r = event r c :: run cs (step r c))
    (P : List α → ρ → Prop) (Q : List α → α → List α → Prop)
    (hstep : ∀ {past r}, P past r → ∀ c, P (past ++ [event r c]) (step r c))
    (hpost : ∀ {past r}, P past r → ∀ c cs, Q past (event r c) (run cs (step r c)))
    {past : List α} {r : ρ} (hr : P past r) (cs : List ι) :
    ∀ before a after, run cs r = before ++ a :: after → Q (past ++ before) a after := by
  induction cs generalizing past r with
  | nil =>
    intro before a after ha
    rw [hnil] at ha
    cases before <;> cases ha
  | cons c cs ih =>
    intro before a after ha
    rw [hcons] at ha
    cases before with
    | nil =>
      obtain ⟨rfl, rfl⟩ := List.cons.inj ha
      rw [List.append_nil]
      exact hpost hr c cs
    | cons x before =>
      obtain ⟨rfl, hrun⟩ := List.cons.inj ha
      have hrest := ih (hstep hr c) before a after hrun
      rwa [List.append_assoc, List.singleton_append] at hrest

/-- What came where a packet of some kind was due. -/
structure Reading where
  due : PacketType
  result : Except PacketError Packet

namespace Reading

/-- The read failed, or a packet of another kind came. -/
def Wrong (x : Reading) : Prop := ∀ p, x.result = .ok p → p.type ≠ x.due

/-- An end-of-stream header came where a header was due. -/
def Ends (x : Reading) : Prop :=
  x.due = .blockHeader ∧ ∃ h, x.result = .ok (.header h) ∧ h.endOfStream = true

/-- The kind of packet that is due where `n` chunks are owed. -/
def kind (n : Nat) : PacketType := if n = 0 then .blockHeader else .blockSequence

/-- The chunks that are owed after one more packet, if it is right. -/
def owed (n : Nat) (x : Reading) : Nat :=
  match x.result with
  | .ok (.header h) => h.chunkCount
  | _ => n - 1

/-- Each packet that was read was due, since a header is followed by as many chunks as it lists and these by the
next header, and the first that was wrong or ended the batch was the last that was read. -/
def InTurn (l : List Reading) : Prop := Throughout
  (fun before x after => x.due = kind (before.foldl owed 0) ∧ (x.Wrong ∨ x.Ends → after = [])) l

end Reading

namespace Inbox

/-- Reading goes on. -/
structure Live (i : Inbox) : Prop where
  not_broken : i.broken = false
  not_finished : i.finished = false

/-- A batch that has broken has not ended. -/
def Sound (i : Inbox) : Prop := i.broken = true → i.finished = false

theorem Live.sound {i : Inbox} (hi : i.Live) : i.Sound := fun _ => hi.not_finished

/-- What comes where the next packet is due. -/
def reading (i : Inbox) : Reading := ⟨Reading.kind i.pending, (Packet.readTyped i.source).1⟩

/-- The inbox after it has read the packet that is due. -/
def readDue (i : Inbox) : Inbox := if i.pending = 0 then i.readHeader.2 else i.readChunk.2

/-- What reading a packet may come to. -/
inductive Comes (i : Inbox) (s : Source) : Reading → Inbox → Prop
  | chunk {p : Sequence} : i.pending ≠ 0 →
      Comes i s ⟨.blockSequence, .ok (.sequence p)⟩ { i with source := s, pending := i.pending - 1 }
  | header {h : Header} : i.pending = 0 → h.endOfStream = false →
      Comes i s ⟨.blockHeader, .ok (.header h)⟩ { i with source := s, pending := h.chunkCount }
  | ending {h : Header} : i.pending = 0 → h.endOfStream = true →
      Comes i s ⟨.blockHeader, .ok (.header h)⟩ { i with source := s, finished := true }
  | wrong {x : Reading} : x.Wrong → Comes i s x { i with source := s, broken := true }

variable {i j k : Inbox} {s : Source} {x : Reading} {l m : List Reading}

theorem Comes.source_eq (h : Comes i s x j) : j.source = s := by cases h <;> rfl

theorem Comes.broken_iff (h : Comes i s x j) (hi : i.Live) : j.broken = true ↔ x.Wrong := by
  cases h with
  | chunk => exact iff_of_false (by simp [hi.not_broken]) fun hw => hw _ rfl rfl
  | header => exact iff_of_false (by simp [hi.not_broken]) fun hw => hw _ rfl rfl
  | ending => exact iff_of_false (by simp [hi.not_broken]) fun hw => hw _ rfl rfl
  | wrong hw => exact iff_of_true rfl hw

theorem Comes.finished_iff (h : Comes i s x j) (hi : i.Live) : j.finished = true ↔ x.Ends := by
  cases h with
  | chunk => exact iff_of_false (by simp [hi.not_finished]) fun he => nomatch he.1
  | header _ hh =>
    refine iff_of_false (by simp [hi.not_finished]) ?_
    rintro ⟨-, h, he, hend⟩
    cases he
    simp [hh] at hend
  | ending _ hh => exact iff_of_true rfl ⟨rfl, _, rfl, hh⟩
  | wrong hw =>
    refine iff_of_false (by simp [hi.not_finished]) ?_
    rintro ⟨hdue, h, he, -⟩
    exact hw _ he hdue.symm

theorem Comes.pending_eq (h : Comes i s x j) (hj : j.Live) : j.pending = Reading.owed i.pending x := by
  cases h with
  | chunk => rfl
  | header => rfl
  | ending => exact absurd hj.not_finished (by simp)
  | wrong => exact absurd hj.not_broken (by simp)

theorem Comes.sound (h : Comes i s x j) (hi : i.Live) : j.Sound := by
  cases h with
  | chunk => exact hi.sound
  | header => exact hi.sound
  | ending => exact fun hb => absurd hb (by simp [hi.not_broken])
  | wrong => exact fun _ => hi.not_finished

theorem comes (hb : i.broken = false) :
    ∃ s, Packet.readTyped i.source = (i.reading.result, s) ∧ i.Comes s i.reading i.readDue := by
  unfold reading readDue Reading.kind
  rcases hr : Packet.readTyped i.source with ⟨result, s⟩
  refine ⟨s, rfl, ?_⟩
  by_cases hp : i.pending = 0
  · simp only [if_pos hp, readHeader, hr]
    split
    · rename_i h t hh
      cases hh
      cases he : h.endOfStream with
      | true => exact .ending hp he
      | false => exact .header hp he
    · rename_i p t hne hh
      cases hh
      refine .wrong fun q hq => ?_
      cases hq
      cases p <;> simp_all [Packet.type]
    · rename_i e t hh
      cases hh
      refine .wrong fun q hq => ?_
      cases hq
  · simp only [if_neg hp, readChunk, if_neg (Bool.eq_false_iff.mp hb), hr]
    split
    · rename_i h t hh
      cases hh
      exact .chunk hp
    · rename_i p t hne hh
      cases hh
      refine .wrong fun q hq => ?_
      cases hq
      cases p <;> simp_all [Packet.type]
    · rename_i e t hh
      cases hh
      refine .wrong fun q hq => ?_
      cases hq

/-- Reading what is due, one packet after another, as long as reading goes on. -/
inductive Takes : Inbox → List Reading → Inbox → Prop
  | nil {i : Inbox} : Takes i [] i
  | cons {i j : Inbox} {l : List Reading} : i.Live → Takes i.readDue l j → Takes i (i.reading :: l) j

theorem Takes.append (hl : Takes i l j) (hm : Takes j m k) : Takes i (l ++ m) k := by
  induction hl with
  | nil => exact hm
  | cons hi _ ih => exact .cons hi (ih hm)

theorem Takes.reads (h : Takes i l j) : Packet.Reads i.source (l.map (·.result)) j.source := by
  induction h with
  | nil => exact .nil
  | @cons i j l hi _ ih =>
    obtain ⟨s, hread, hc⟩ := comes hi.not_broken
    exact .cons hread (hc.source_eq ▸ ih)

theorem Takes.eq_of_not_live (h : Takes i l j) (hi : ¬ i.Live) : l = [] ∧ j = i := by
  cases h with
  | nil => exact ⟨rfl, rfl⟩
  | cons hlive => exact absurd hlive hi

/-- Reading breaks where something is wrong, and nowhere else. -/
theorem Takes.broken_iff (h : Takes i l j) : j.broken = true ↔ i.broken = true ∨ ∃ x ∈ l, x.Wrong := by
  induction h with
  | nil => simp
  | cons hi _ ih =>
    obtain ⟨s, -, hc⟩ := comes hi.not_broken
    simp [ih, hc.broken_iff hi, hi.not_broken]

/-- Reading ends where the batch ends, and nowhere else. -/
theorem Takes.finished_iff (h : Takes i l j) : j.finished = true ↔ i.finished = true ∨ ∃ x ∈ l, x.Ends := by
  induction h with
  | nil => simp
  | cons hi _ ih =>
    obtain ⟨s, -, hc⟩ := comes hi.not_broken
    simp [ih, hc.finished_iff hi, hi.not_finished]

theorem Takes.sound (h : Takes i l j) (hi : i.Sound) : j.Sound := by
  induction h with
  | nil => exact hi
  | cons hlive _ ih =>
    obtain ⟨s, -, hc⟩ := comes hlive.not_broken
    exact ih (hc.sound hlive)

theorem Takes.live (h : Takes i l j) (hj : j.Live) : i.Live := by
  cases h with
  | nil => exact hj
  | cons hi => exact hi

theorem Takes.split (h : Takes i (l ++ m) j) : ∃ k, Takes i l k ∧ Takes k m j := by
  induction l generalizing i with
  | nil => exact ⟨i, .nil, h⟩
  | cons x l ih =>
    cases h with
    | cons hi h =>
      obtain ⟨k, hl, hm⟩ := ih h
      exact ⟨k, .cons hi hl, hm⟩

theorem Takes.pending_eq (h : Takes i l j) (hj : j.Live) : j.pending = l.foldl Reading.owed i.pending := by
  induction h with
  | nil => rfl
  | cons hi h ih =>
    obtain ⟨s, -, hc⟩ := comes hi.not_broken
    rw [List.foldl_cons, ← hc.pending_eq (h.live hj), ih hj]

theorem Takes.inTurn {s : Source} (h : Takes (new s) l j) : Reading.InTurn l := by
  refine ⟨fun before x after hl => ?_⟩
  obtain ⟨k, hbefore, hrest⟩ := (hl ▸ h).split
  cases hrest with
  | cons hk hafter =>
    obtain ⟨t, -, hc⟩ := comes hk.not_broken
    refine ⟨congrArg Reading.kind (hbefore.pending_eq hk), fun hstop => ?_⟩
    refine (hafter.eq_of_not_live fun hlive => ?_).1
    rcases hstop with hwrong | hends
    · exact Bool.noConfusion (hlive.not_broken.symm.trans ((hc.broken_iff hk).mpr hwrong))
    · exact Bool.noConfusion (hlive.not_finished.symm.trans ((hc.finished_iff hk).mpr hends))

/-! What the next header and the next chunk come to. -/

/-- The packets that come, `n` of them at most, up to a header or to one that is wrong. -/
def readings : Nat → Inbox → List Reading
  | 0, _ => []
  | n + 1, i =>
    if i.broken ∨ i.finished then [] else i.reading :: if i.pending = 0 then [] else readings n i.readDue

theorem live_or_stuck_or_finished (i : Inbox) : i.Live ∨ i.Stuck ∨ i.finished = true := by
  cases hf : i.finished with
  | true => exact .inr (.inr rfl)
  | false =>
    cases hb : i.broken with
    | true => exact .inr (.inl ⟨hb, hf⟩)
    | false => exact .inl ⟨hb, hf⟩

theorem readings_of_not_live (hi : ¬ i.Live) (n : Nat) : i.readings n = [] := by
  cases n with
  | zero => rfl
  | succ n =>
    rcases i.live_or_stuck_or_finished with hlive | hstuck | hend
    · exact absurd hlive hi
    · rw [readings, if_pos (.inl hstuck.broken_eq)]
    · rw [readings, if_pos (.inr hend)]

theorem Stuck.not_live (hi : i.Stuck) : ¬ i.Live := fun h =>
  Bool.noConfusion (h.not_broken.symm.trans hi.broken_eq)

theorem not_live_of_finished (hi : i.finished = true) : ¬ i.Live := fun h =>
  Bool.noConfusion (h.not_finished.symm.trans hi)

/-- What taking the next header comes to, with what was read for it. -/
inductive Outcome (j : Inbox) : List Reading → Except TransferError (Option Header) → Prop
  | ended {l : List Reading} : j.finished = true → Outcome j l (.ok none)
  | broke {l : List Reading} {e : TransferError} : j.Stuck → Outcome j l (.error e)
  | session {l : List Reading} {h : Header} : j.Live →
      Outcome j (l ++ [⟨.blockHeader, .ok (.header h)⟩]) (.ok (some h))

theorem Outcome.cons {r : Except TransferError (Option Header)} (h : Outcome j l r) (x : Reading) :
    Outcome j (x :: l) r := by
  cases h with
  | ended hj => exact .ended hj
  | broke hj => exact .broke hj
  | @session l h hj => exact .session (l := x :: l) hj

theorem readHeader_outcome (hi : i.Live) (hp : i.pending = 0) :
    Outcome i.readHeader.2 [i.reading] i.readHeader.1 := by
  simp only [reading, Reading.kind, if_pos hp, readHeader]
  rcases Packet.readTyped i.source with ⟨e | p, s⟩
  · exact .broke ⟨rfl, hi.not_finished⟩
  · cases p with
    | header h =>
      simp only
      split
      · exact .ended rfl
      · exact .session (l := []) ⟨hi.not_broken, hi.not_finished⟩
    | sequence p => exact .broke ⟨rfl, hi.not_finished⟩
    | identity p => exact .broke ⟨rfl, hi.not_finished⟩
    | declare p => exact .broke ⟨rfl, hi.not_finished⟩

theorem readChunk_outcome (hi : i.Live) (hp : i.pending ≠ 0) :
    (∃ p, i.reading = ⟨.blockSequence, .ok (.sequence p)⟩ ∧ i.readChunk = (.ok p, i.readDue) ∧
      i.readDue.Live ∧ i.readDue.pending + 1 = i.pending) ∨
    ∃ e, i.readChunk = (.error e, i.readDue) ∧ i.readDue.Stuck := by
  simp only [reading, readDue, Reading.kind, if_neg hp, readChunk, if_neg (Bool.eq_false_iff.mp hi.not_broken)]
  rcases Packet.readTyped i.source with ⟨e | p, s⟩
  · exact .inr ⟨_, rfl, rfl, hi.not_finished⟩
  · cases p with
    | sequence p => exact .inl ⟨p, rfl, rfl, ⟨hi.not_broken, hi.not_finished⟩, by simp only; omega⟩
    | header p => exact .inr ⟨_, rfl, rfl, hi.not_finished⟩
    | identity p => exact .inr ⟨_, rfl, rfl, hi.not_finished⟩
    | declare p => exact .inr ⟨_, rfl, rfl, hi.not_finished⟩

theorem nextHeader_outcome_of_live (hi : i.Live) :
    Takes i (i.readings (i.pending + 1)) i.nextHeader.2 ∧
      Outcome i.nextHeader.2 (i.readings (i.pending + 1)) i.nextHeader.1 := by
  have hgo (i : Inbox) (hi : i.Live) : ¬ (i.broken = true ∨ i.finished = true) := by
    simp [hi.not_broken, hi.not_finished]
  generalize hn : i.pending = n
  induction n generalizing i with
  | zero =>
    have hnext : i.nextHeader = i.readHeader := by
      simp [nextHeader, hi.not_finished, hn, skip, hi.not_broken]
    have hdue : i.readDue = i.readHeader.2 := if_pos hn
    simp only [hnext, readings, if_neg (hgo i hi), if_pos hn]
    exact ⟨.cons hi (hdue ▸ .nil), readHeader_outcome hi hn⟩
  | succ n ih =>
    have hp : i.pending ≠ 0 := hn ▸ Nat.succ_ne_zero n
    rw [readings, if_neg (hgo i hi), if_neg hp]
    rcases readChunk_outcome hi hp with ⟨p, -, hchunk, hlive, hpending⟩ | ⟨e, hchunk, hstuck⟩
    · obtain hpending : i.readDue.pending = n := by omega
      have hnext : i.nextHeader = i.readDue.nextHeader := by
        simp [nextHeader, hi.not_finished, hlive.not_finished, hn, hpending, skip, hchunk]
      rw [hnext]
      obtain ⟨htakes, houtcome⟩ := ih hlive hpending
      exact ⟨.cons hi htakes, houtcome.cons _⟩
    · have hnext : i.nextHeader = (.error e, i.readDue) := by
        simp [nextHeader, hi.not_finished, hn, skip, hchunk]
      rw [hnext, readings_of_not_live hstuck.not_live]
      exact ⟨.cons hi .nil, .broke hstuck⟩

theorem nextHeader_of_finished (h : i.finished = true) : i.nextHeader = (.ok none, i) := by
  rw [nextHeader, if_pos h]

theorem nextHeader_outcome (i : Inbox) :
    Takes i (i.readings (i.pending + 1)) i.nextHeader.2 ∧
      Outcome i.nextHeader.2 (i.readings (i.pending + 1)) i.nextHeader.1 := by
  rcases i.live_or_stuck_or_finished with hi | hi | hi
  · exact nextHeader_outcome_of_live hi
  · rw [readings_of_not_live hi.not_live, nextHeader_of_stuck hi]
    exact ⟨.nil, .broke hi⟩
  · rw [readings_of_not_live (not_live_of_finished hi), nextHeader_of_finished hi]
    exact ⟨.nil, .ended hi⟩

/-- A session begins right after its header. -/
theorem live_of_nextHeader {h : Header} (hn : i.nextHeader = (.ok (some h), j)) :
    j.Live ∧ ∃ l, i.readings (i.pending + 1) = l ++ [⟨.blockHeader, .ok (.header h)⟩] := by
  have houtcome := (nextHeader_outcome i).2
  rw [hn] at houtcome
  generalize i.readings (i.pending + 1) = l at houtcome
  cases houtcome with
  | session hj => exact ⟨hj, _, rfl⟩

/-- A batch that is told to have ended has. -/
theorem finished_of_nextHeader (hn : i.nextHeader = (.ok none, j)) : j.finished = true := by
  have houtcome := (nextHeader_outcome i).2
  rw [hn] at houtcome
  generalize i.readings (i.pending + 1) = l at houtcome
  cases houtcome with
  | ended hj => exact hj

/-- A pull takes one chunk, if there is one to take. -/
theorem takes_next (hf : i.finished = false) :
    Takes i (if i.pending ≠ 0 then i.readings 1 else []) (PacketFeed.next i).2 ∧
      (PacketFeed.next i).2.finished = false := by
  by_cases hp : i.pending = 0
  · rw [if_neg fun h => h hp]
    simp only [PacketFeed.next, if_pos hp]
    exact ⟨.nil, hf⟩
  have hnext : (PacketFeed.next i).2 = i.readChunk.2 := by simp only [PacketFeed.next, if_neg hp]
  rw [if_pos hp, hnext]
  cases hb : i.broken with
  | true =>
    have hstuck : i.Stuck := ⟨hb, hf⟩
    rw [readings_of_not_live hstuck.not_live]
    simp only [readChunk, if_pos hb]
    exact ⟨.nil, hf⟩
  | false =>
    have hlive : i.Live := ⟨hb, hf⟩
    have hone : i.readings 1 = [i.reading] := by simp [readings, hb, hf]
    rw [hone]
    rcases readChunk_outcome hlive hp with ⟨p, -, hchunk, hlive', -⟩ | ⟨e, hchunk, hstuck⟩
    · rw [hchunk]
      exact ⟨.cons hlive .nil, hlive'.not_finished⟩
    · rw [hchunk]
      exact ⟨.cons hlive .nil, hstuck.not_finished⟩

theorem exists_results {l : List Reading} (h : ∀ x ∈ l, ¬ x.Wrong) :
    ∃ ps : List Packet, l.map (·.result) = ps.map .ok := by
  induction l with
  | nil => exact ⟨[], rfl⟩
  | cons x l ih =>
    obtain ⟨hx, hl⟩ := List.forall_mem_cons.mp h
    obtain ⟨ps, hps⟩ := ih hl
    cases hresult : x.result with
    | error e => exact absurd (fun p hp => nomatch hresult.symm.trans hp) hx
    | ok p => exact ⟨p :: ps, by simp [hresult, hps]⟩

/-- The header of a session that begins stood right before the rest of the stream. -/
theorem Takes.header_bytes {s : Source} {l : List Reading} {h : Header}
    (ht : Takes (new s) (l ++ [⟨.blockHeader, .ok (.header h)⟩]) j) (hj : j.Live) :
    ∃ a b, Packet.Parses [.header h] b ∧ s.rest = a ++ b ++ j.source.rest := by
  have hright : ∀ x ∈ l, ¬ x.Wrong := fun x hx hw =>
    Bool.noConfusion (hj.not_broken.symm.trans (ht.broken_iff.mpr (.inr ⟨x, List.mem_append_left _ hx, hw⟩)))
  obtain ⟨ps, hps⟩ := exists_results hright
  have hreads := ht.reads
  have hmap : (l ++ [(⟨.blockHeader, .ok (.header h)⟩ : Reading)]).map (·.result) =
      (ps ++ [Packet.header h]).map .ok := by
    simp only [List.map_append, hps, List.map_cons, List.map_nil]
  rw [hmap] at hreads
  obtain ⟨b, hparses, hrest⟩ := hreads.parses
  obtain ⟨a, b, rfl, -, hb⟩ := hparses.split
  exact ⟨a, b, hb, hrest⟩

/-- Pulled packets are read one after another. -/
theorem reads_of_pulls {q : List Sequence} (h : Pulls i q j) :
    Packet.Reads i.source (q.map fun p => .ok (.sequence p)) j.source := by
  induction h with
  | nil => exact .nil
  | @cons i t j p q hn _ ih =>
    refine .cons ?_ ih
    simp only [PacketFeed.next, readChunk] at hn
    split at hn
    · cases hn
    · split at hn
      · cases hn
      · split at hn
        · rename_i hread
          cases hn
          exact hread
        · cases hn
        · cases hn

end Inbox

end ChunkRelay
