import ChunkRelay.Proofs.Cutting
import ChunkRelay.Proofs.Growth
import ChunkRelay.Proofs.Outbound
import ChunkRelay.Proofs.Writing

/-! Where a body is sent from. A file is cut as it is read and a body in memory all at once, but their packets are the
same. What is sent depends on a feed only through the packets that it brings, so the bytes and the result are the same
too. -/
namespace ChunkRelay

namespace PacketFeed

variable {φ ψ : Type} [PacketFeed φ] [PacketFeed ψ] {f f' : φ} {g g' : ψ}

/-- Two feeds that bring the same, however often they are asked. -/
def Tallies (f : φ) (g : ψ) : Prop := ∀ n, draws PacketFeed.next n f = draws PacketFeed.next n g

theorem tallies_iff : Tallies f g ↔
    (PacketFeed.next f).1 = (PacketFeed.next g).1 ∧ Tallies (PacketFeed.next f).2 (PacketFeed.next g).2 := by
  constructor
  · intro h
    exact ⟨(List.cons.inj (h 1)).1, fun n => (List.cons.inj (h (n + 1))).2⟩
  · rintro ⟨hfirst, hrest⟩ n
    cases n with
    | zero => rfl
    | succ n => rw [draws, draws, hfirst, hrest n]

/-- Feeds that run through the same packets and then end for good. -/
theorem tallies_of_drains {l : List Sequence} (hf : Drains f l f') (hf' : PacketFeed.next f' = (none, f'))
    (hg : Drains g l g') (hg' : PacketFeed.next g' = (none, g')) : Tallies f g := by
  induction l generalizing f g with
  | nil =>
    have hends : Tallies f' g' := fun n => by rw [draws_of_ended hf', draws_of_ended hg']
    rw [tallies_iff, runs_nil_iff.mp hf, runs_nil_iff.mp hg]
    exact ⟨rfl, hends⟩
  | cons p l ih =>
    obtain ⟨t, hnext, hrest⟩ := runs_cons_iff.mp hf
    obtain ⟨u, hnext', hrest'⟩ := runs_cons_iff.mp hg
    rw [tallies_iff, hnext, hnext']
    exact ⟨rfl, ih hrest hrest'⟩

theorem Tallies.runs (h : Tallies f g) {l : List Sequence} {e : Option TransferError} (hf : Runs f l e f') :
    ∃ g', Runs g l e g' := by
  induction l generalizing f g with
  | nil =>
    obtain ⟨hfirst, -⟩ := tallies_iff.mp h
    rw [runs_nil_iff.mp hf] at hfirst
    exact ⟨_, runs_nil_iff.mpr (Prod.ext hfirst.symm rfl)⟩
  | cons p l ih =>
    obtain ⟨t, hnext, hrest⟩ := runs_cons_iff.mp hf
    obtain ⟨hfirst, hlater⟩ := tallies_iff.mp h
    rw [hnext] at hfirst hlater
    obtain ⟨g', hg'⟩ := ih hlater hrest
    exact ⟨g', runs_cons_iff.mpr ⟨_, Prod.ext hfirst.symm rfl, hg'⟩⟩

/-- Checking the packets of a feed looks at nothing but what it brings. -/
theorem Tallies.verified (h : Tallies f g) (remaining : List Hash) (received : Nat) (done : Bool) :
    Tallies (Verified.mk f remaining received done) (Verified.mk g remaining received done) := by
  intro n
  induction n generalizing f g remaining received done with
  | zero => rfl
  | succ n ih =>
    obtain ⟨hfirst, hlater⟩ := tallies_iff.mp h
    cases done with
    | true =>
      have hf : (Verified.mk f remaining received true).next = (none, ⟨f, remaining, received, true⟩) := rfl
      have hg : (Verified.mk g remaining received true).next = (none, ⟨g, remaining, received, true⟩) := rfl
      simp only [draws, Verified.next_eq, hf, hg, ih h]
    | false =>
      rcases hf : PacketFeed.next f with ⟨d, f'⟩
      rcases hg : PacketFeed.next g with ⟨d', g'⟩
      rw [hf, hg] at hfirst hlater
      obtain rfl : d = d' := hfirst
      rcases d with _ | e | p
      · cases hr : remaining.isEmpty <;>
          simp [draws, Verified.next, hf, hg, hr, Verified.expected, ih hlater]
      · simp [draws, Verified.next, hf, hg, ih hlater]
      · have hcheck : (Verified.mk f remaining received false).check p =
            (Verified.mk g remaining received false).check p := rfl
        cases hc : (Verified.mk g remaining received false).check p <;>
          simp [draws, Verified.next, hf, hg, hcheck, hc, ih hlater]

/-- So does a session. -/
theorem Tallies.session {v : Verified φ} {w : Verified ψ} (h : Tallies v w) (header : Header) (last : Bool)
    (state : SessionState) : Tallies (Session.mk header v last state) (Session.mk header w last state) := by
  intro n
  induction n generalizing v w state with
  | zero => rfl
  | succ n ih =>
    cases state with
    | unfinished =>
      obtain ⟨hfirst, hlater⟩ := tallies_iff.mp h
      rw [Verified.next_eq, Verified.next_eq] at hfirst hlater
      rcases hv : v.next with ⟨d, v'⟩
      rcases hw : w.next with ⟨d', w'⟩
      rw [hv, hw] at hfirst hlater
      obtain rfl : d = d' := hfirst
      rcases d with _ | e | p <;>
        simp [draws, Session.next, Session.isOpen, Session.settle, Session.fail, hv, hw, ih hlater]
    | completed => simp [draws, Session.next, Session.isOpen, ih h]
    | failed reason => simp [draws, Session.next, Session.isOpen, ih h]

end PacketFeed

/-- A reader that has come to its end brings nothing more. -/
theorem ChunkReader.next_of_ended {σ : Type} [ByteSource σ] {r r' : ChunkReader σ}
    (h : PacketFeed.next r = (none, r')) : PacketFeed.next r' = (none, r') := by
  have hpull : r.pull = (none, r') := by
    simp only [PacketFeed.next] at h
    split at h
    · rename_i hr
      obtain ⟨-, rfl⟩ := Prod.mk.inj h
      exact hr
    · cases h
  have hdone : r'.done = true := by
    unfold pull at hpull
    split at hpull
    · rename_i hdone
      obtain ⟨-, rfl⟩ := Prod.mk.inj hpull
      exact hdone
    · split at hpull
      · cases hpull
      · split at hpull
        · obtain ⟨-, rfl⟩ := Prod.mk.inj hpull
          rfl
        · split at hpull <;> cases hpull
  simp only [PacketFeed.next, pull, hdone, if_true]

open PacketFeed in
/-- The chunks of a body in memory and a reader of the same body. -/
theorem ChunkReader.tallies {content : Bytes} {size : UInt32} (hs : Chunk.checkSize size = .ok ())
    (hcount : Chunk.count content.size size.toNat ≤ Chunk.maxCount) :
    Tallies ((Chunk.packets content size.toNat).map .ok : List Delivery)
      (ChunkReader.mk (Source.ofBytes content) size 0 false) := by
  obtain ⟨r, hr⟩ := drains_packets hs hcount
  have hend : PacketFeed.next r = (none, r) := by
    obtain ⟨t, -, hnext⟩ := hr
    exact next_of_ended hnext
  exact tallies_of_drains (drains_list _) rfl hr hend

namespace Session

open PacketFeed

variable {φ ψ : Type} [PacketFeed φ] [PacketFeed ψ]

theorem tallies_withPackets {f : φ} {g : ψ} (hfg : Tallies f g) (h : Header) (last : Bool) :
    Tallies (withPackets h f last) (withPackets h g last) := (hfg.verified h.hashes 0 false).session h last .unfinished

/-- Sessions that nobody has pulled are written alike if they bring the same under the same header. -/
theorem Fresh.writeTo_congr {s : Session φ} {t : Session ψ} (hs : s.Fresh) (ht : t.Fresh)
    (hheader : s.header = t.header) (hlast : s.last = t.last) (htallies : Tallies s t) {ω : Type} [ByteSink ω] (w : ω) :
    (s.writeTo w).1 = (t.writeTo w).1 ∧ (s.writeTo w).2.2 = (t.writeTo w).2.2 := by
  obtain ⟨v, hruns⟩ := hs.runs
  obtain ⟨u, hruns'⟩ := ht.runs
  obtain ⟨t', ht'⟩ := htallies.runs hruns
  obtain ⟨hchunks, hfault⟩ := ht'.unique hruns'
  have houtput : s.output = t.output := by rw [output, output, hheader, hlast, hchunks, hfault]
  have hwritten := hs.writeTo_eq w
  rw [houtput, hchunks, hfault, ← ht.writeTo_eq w] at hwritten
  exact Prod.mk.inj hwritten

section Messages

variable {d : Disk} {path : String} {content : Bytes}

/-- Sending a file: its source and its length are those of what is read from it. -/
theorem ofFile_eq_ofSource (hr : d.read path = .ok content) (m : Message) (threshold : Nat) (last : Bool) :
    ofFile m d path threshold last = ofSource m (Source.ofBytes content) content.size threshold last := by
  obtain ⟨mode, hstat⟩ := Disk.stat_of_read hr
  simp only [ofFile, Disk.openSource_of_read hr, hstat, Entry.length]

/-- Sending a file is sending its bytes, whatever the message, as long as they need no more chunks than there are
numbers. Both fail with the same error, or both give sessions with the same header that bring the same packets and the
same failure, however often they are pulled; and every writer is given the same bytes, with the same result. -/
theorem ofFile_agrees_ofBytes (hr : d.read path = .ok content) (m : Message) (threshold : Nat) (last : Bool)
    (hcount : Chunk.checkSize m.blockSize = .ok () →
      Chunk.count content.size m.blockSize.toNat ≤ Chunk.maxCount) :
    (∃ e, ofBytes m content threshold last = .error e ∧ ofFile m d path threshold last = .error e) ∨
      ∃ s t, ofBytes m content threshold last = .ok s ∧ ofFile m d path threshold last = .ok t ∧
        s.header = t.header ∧ s.last = t.last ∧ (∀ n, draws PacketFeed.next n s = draws PacketFeed.next n t) ∧
        ∀ (ω : Type) [ByteSink ω] (w : ω),
          (s.writeTo w).1 = (t.writeTo w).1 ∧ (s.writeTo w).2.2 = (t.writeTo w).2.2 := by
  rw [ofFile_eq_ofSource hr]
  cases hsize : Chunk.checkSize m.blockSize with
  | error e =>
    refine .inl ⟨.policy e, ?_, ?_⟩
    · simp only [ofBytes, Chunk.ofBody, BodyReader.new, hsize, Except.map]
    · simp only [ofSource, ChunkReader.new, hsize, Except.map]
  | ok u =>
    have hbody := Chunk.ofBody_eq hsize content
    rw [if_pos (hcount hsize)] at hbody
    cases hbuild : Header.build { m.draft with toDisk := storedOnDisk threshold content.size } with
    | error e =>
      refine .inl ⟨.policy e, ?_, ?_⟩
      · simp only [ofBytes, hbody, outbound, hbuild]
      · simp only [ofSource, ChunkReader.new, hsize, Except.map, outbound, hbuild]
    | ok h =>
      have hpackets : (Chunk.split content m.blockSize.toNat).map (fun c => Except.ok c.packet) =
          ((Chunk.packets content m.blockSize.toNat).map .ok : List Delivery) := by
        rw [Chunk.packets, List.map_map]
        rfl
      have htallies := tallies_withPackets (ChunkReader.tallies hsize (hcount hsize)) h last
      refine .inr ⟨withPackets h ((Chunk.packets content m.blockSize.toNat).map .ok) last,
        withPackets h ⟨.ofBytes content, m.blockSize, 0, false⟩ last, ?_, ?_, rfl, rfl, htallies, fun ω _ w => ?_⟩
      · simp only [ofBytes, hbody, outbound, hbuild, hpackets]
      · simp only [ofSource, ChunkReader.new, hsize, Except.map, outbound, hbuild]
      · exact (fresh_withPackets h _ last).writeTo_congr (fresh_withPackets h _ last) (by rfl) (by rfl) htallies w

/-- A file of two bytes that is sent in chunks of one byte, for a message that lists one of them. -/
theorem ofFile_agrees_ofBytes_of_two :
    let content : Bytes := ⟨#[7, 8]⟩
    let node := Disk.ofWorkDir ⟨#["node"]⟩
    let d := node.set (node.workDir.child "body") (.file content Disk.defaultMode)
    let m := Message.ofHeader
      { Header.terminator with
        application := "chat", blockSize := 1, endOfStream := false, hashes := [Hash.chunk 0 ⟨#[7]⟩] } (.file "body")
    d.read "body" = .ok content ∧ Chunk.count content.size m.blockSize.toNat = 2 ∧
      ((∃ e, ofBytes m content 16 true = .error e ∧ ofFile m d "body" 16 true = .error e) ∨
        ∃ s t, ofBytes m content 16 true = .ok s ∧ ofFile m d "body" 16 true = .ok t ∧ s.header = t.header ∧
          s.last = t.last ∧ (∀ n, draws PacketFeed.next n s = draws PacketFeed.next n t) ∧
          ∀ (ω : Type) [ByteSink ω] (w : ω),
            (s.writeTo w).1 = (t.writeTo w).1 ∧ (s.writeTo w).2.2 = (t.writeTo w).2.2) := by
  intro content node d m
  have hfree : node.FreeName "body" := ⟨⟨by decide, by decide⟩, by decide, by decide, by decide, by decide, by decide⟩
  have hr : d.read "body" = .ok content := hfree.read_set content Disk.defaultMode
  exact ⟨hr, by decide, ofFile_agrees_ofBytes hr m 16 true fun _ => by decide⟩

end Messages

/-! Bodies that need more chunks than there are numbers. -/

/-- A reader of such a body brings as many chunks as there are numbers and then fails. -/
theorem runs_of_many {s : Source} (hs : s.Steady) {size : UInt32} (hsize : 0 < size.toNat) {k m : Nat}
    (hp : s.pos = Chunk.offset s.bytes.size size.toNat k) (hm : k + m = Chunk.maxCount)
    (hmany : Chunk.maxCount < Chunk.count s.bytes.size size.toNat) :
    ∃ r, Runs (ChunkReader.mk s size k false) ((Chunk.run s.bytes size.toNat k m).map Chunk.packet)
      (some (.policy .tooManyChunks)) r := by
  have hpull := ChunkReader.pull_chunk hs hsize hp (by omega)
  induction m generalizing s k with
  | zero =>
    rw [if_neg (by omega)] at hpull
    refine ⟨⟨s.advance (min size.toNat s.rest.size), size, k, true⟩, runs_nil_iff.mpr ?_⟩
    simp only [PacketFeed.next, hpull, Except.map, Option.map_some]
  | succ m ih =>
    rw [if_pos (by omega)] at hpull
    have hplace := Source.pos_advance_chunk hp
    have hmany' : Chunk.maxCount < Chunk.count (s.advance (min size.toNat s.rest.size)).bytes.size size.toNat := hmany
    obtain ⟨r, hr⟩ := ih (hs.advance _) hplace (by omega) hmany'
      (ChunkReader.pull_chunk (hs.advance _) hsize hplace (by omega))
    refine ⟨r, ?_⟩
    rw [Chunk.run_succ, List.map_cons]
    exact runs_cons_iff.mpr ⟨_, by simp [PacketFeed.next, hpull, Except.map], hr⟩

/-- A body in memory is refused at once. -/
theorem ofBytes_of_many {m : Message} {content : Bytes} (hs : Chunk.checkSize m.blockSize = .ok ())
    (hmany : Chunk.maxCount < Chunk.count content.size m.blockSize.toNat) (threshold : Nat) (last : Bool) :
    ofBytes m content threshold last = .error (.policy .tooManyChunks) := by
  simp only [ofBytes, Chunk.ofBody_eq hs, if_neg (Nat.not_le.mpr hmany)]

/-- A file is opened, but nobody is sent the whole of it. -/
theorem ofFile_of_many {d : Disk} {path : String} {content : Bytes} (hr : d.read path = .ok content) {m : Message}
    (hs : Chunk.checkSize m.blockSize = .ok ())
    (hmany : Chunk.maxCount < Chunk.count content.size m.blockSize.toNat) {threshold : Nat} {last : Bool}
    {t : Session (ChunkReader Source)} (ht : ofFile m d path threshold last = .ok t) {ω : Type} [ByteSink ω] (w : ω)
    (n : Nat) : (t.writeTo w).1 ≠ .ok n := by
  rw [ofFile_eq_ofSource hr] at ht
  simp only [ofSource, ChunkReader.new, hs, Except.map, outbound] at ht
  split at ht
  · cases ht
  · rename_i h _
    cases ht
    intro hsent
    have hfresh := fresh_withPackets h (ChunkReader.mk (Source.ofBytes content) m.blockSize 0 false) last
    obtain ⟨v, hruns⟩ := hfresh.verified_runs
    rw [hfresh.fault_of_sent hsent] at hruns
    obtain ⟨r, hmanyruns⟩ := runs_of_many (Source.steady_ofBytes content) (Chunk.pos_of_checkSize hs)
      (Chunk.offset_zero _ _).symm (Nat.zero_add _) hmany
    cases (hmanyruns.unique (Verified.drains_inner hruns rfl)).2

/-- With more zero bytes than there are numbers, cut into chunks of one byte, a session is refused for the bytes but not
for the file that holds them. -/
theorem ofFile_differs_of_zeros :
    let content : Bytes := ⟨Array.replicate 4294967297 0⟩
    let node := Disk.ofWorkDir ⟨#["node"]⟩
    let d := node.set (node.workDir.child "body") (.file content Disk.defaultMode)
    let m := Message.ofHeader { Header.terminator with application := "t", blockSize := 1, endOfStream := false }
      (.file "body")
    d.read "body" = .ok content ∧ ofBytes m content 0 false = .error (.policy .tooManyChunks) ∧
      ∃ t, ofFile m d "body" 0 false = .ok t := by
  intro content node d m
  have hsize : content.size = 4294967297 := Array.size_replicate
  have hfree : node.FreeName "body" := ⟨⟨by decide, by decide⟩, by decide, by decide, by decide, by decide, by decide⟩
  have hr : d.read "body" = .ok content := hfree.read_set content Disk.defaultMode
  have hmany : Chunk.maxCount < Chunk.count content.size m.blockSize.toNat := by
    rw [hsize]
    decide
  clear_value content
  have hsound : ({ Header.terminator with application := "t", blockSize := 1, endOfStream := false } : Header).Sound :=
    ⟨rfl, rfl, rfl, rfl⟩
  exact ⟨hr, ofBytes_of_many rfl hmany 0 false, _, ofFile_of_read hsound rfl hr (.file "body") 0 false⟩

end Session
end ChunkRelay
