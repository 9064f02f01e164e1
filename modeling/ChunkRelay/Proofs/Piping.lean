import ChunkRelay.Proofs.Outbound
import ChunkRelay.Proofs.PartFiles
import ChunkRelay.Storage.Pipe

/-! Sessions that are read and written in other places. Where two feeds give the same packets and take the same
bytes, a session is written from one as from the other: from one file to another as from memory to a sink. -/
namespace ChunkRelay

/-- The same result, and related states behind it. -/
structure Agree {α β γ : Type} (R : α → β → Prop) (x : γ × α) (y : γ × β) : Prop where
  result_eq : x.1 = y.1
  related : R x.2 y.2

/-- Steps that agree fail both or succeed both. -/
theorem Agree.cases {α β γ ε : Type} {R : α → β → Prop} {x : Except ε γ × α} {y : Except ε γ × β}
    (h : Agree R x y) :
    (∃ e a b, x = (.error e, a) ∧ y = (.error e, b) ∧ R a b) ∨ ∃ c a b, x = (.ok c, a) ∧ y = (.ok c, b) ∧ R a b := by
  obtain ⟨r, a⟩ := x
  obtain ⟨r', b⟩ := y
  obtain ⟨rfl, hrel⟩ := h
  cases r with
  | error e => exact .inl ⟨e, a, b, rfl, rfl, hrel⟩
  | ok c => exact .inr ⟨c, a, b, rfl, rfl, hrel⟩

/-- Pulls that agree bring nothing both, or the same failure, or the same packet. -/
theorem Agree.delivery_cases {α β : Type} {R : α → β → Prop} {x : Option Delivery × α} {y : Option Delivery × β}
    (h : Agree R x y) :
    (∃ a b, x = (none, a) ∧ y = (none, b) ∧ R a b) ∨
      (∃ e a b, x = (some (.error e), a) ∧ y = (some (.error e), b) ∧ R a b) ∨
      ∃ p a b, x = (some (.ok p), a) ∧ y = (some (.ok p), b) ∧ R a b := by
  obtain ⟨r, a⟩ := x
  obtain ⟨r', b⟩ := y
  obtain ⟨rfl, hrel⟩ := h
  rcases r with _ | e | p
  · exact .inl ⟨a, b, rfl, rfl, hrel⟩
  · exact .inr (.inl ⟨e, a, b, rfl, rfl, hrel⟩)
  · exact .inr (.inr ⟨p, a, b, rfl, rfl, hrel⟩)

/-- Two kinds of feed, in related states, that give the same packets and take the same bytes. -/
structure Mirrors {φ ψ : Type} [PacketFeed φ] [ByteSink φ] [PacketFeed ψ] [ByteSink ψ] (R : φ → ψ → Prop) :
    Prop where
  next {f : φ} {g : ψ} : R f g → Agree R (PacketFeed.next f) (PacketFeed.next g)
  push {f : φ} {g : ψ} (b : Bytes) : R f g → Agree R (ByteSink.push b f) (ByteSink.push b g)
  flush {f : φ} {g : ψ} : R f g → Agree R (ByteSink.flush f) (ByteSink.flush g)

namespace Mirrors

variable {φ ψ : Type} [PacketFeed φ] [ByteSink φ] [PacketFeed ψ] [ByteSink ψ] {R : φ → ψ → Prop} {f : φ} {g : ψ}

theorem packetPush (hR : Mirrors R) (h : R f g) (b : Bytes) : Agree R (Packet.push b f) (Packet.push b g) := by
  rcases (hR.push b h).cases with ⟨e, f', g', hf, hg, hrel⟩ | ⟨u, f', g', hf, hg, hrel⟩ <;>
    simp only [Packet.push, Frame.push, hf, hg] <;> exact ⟨rfl, hrel⟩

theorem writeTyped (hR : Mirrors R) (h : R f g) (p : Packet) : Agree R (p.writeTyped f) (p.writeTyped g) := by
  unfold Packet.writeTyped
  rcases (hR.packetPush h ⟨#[p.type.byte]⟩).cases with ⟨e, f', g', hf, hg, hrel⟩ | ⟨u, f', g', hf, hg, hrel⟩ <;>
    rw [hf, hg]
  · exact ⟨rfl, hrel⟩
  · cases p.encode with
    | error e => exact ⟨rfl, hrel⟩
    | ok b => exact hR.packetPush hrel b

/-- A loop whose action keeps feeds related keeps them related. -/
theorem forEach (hR : Mirrors R) {act : Sequence → φ → Except TransferError Unit × φ}
    {act' : Sequence → ψ → Except TransferError Unit × ψ}
    (ha : ∀ p f g, R f g → Agree R (act p f) (act' p g)) (h : R f g) (fuel count : Nat) :
    Agree R (PacketFeed.forEach act fuel count f) (PacketFeed.forEach act' fuel count g) := by
  induction fuel generalizing f g count with
  | zero => exact ⟨rfl, h⟩
  | succ fuel ih =>
    rcases (hR.next h).delivery_cases with ⟨f', g', hf, hg, hrel⟩ | ⟨e, f', g', hf, hg, hrel⟩ |
      ⟨p, f', g', hf, hg, hrel⟩
    · simp only [PacketFeed.forEach, hf, hg]
      exact ⟨rfl, hrel⟩
    · simp only [PacketFeed.forEach, hf, hg]
      exact ⟨rfl, hrel⟩
    · rcases (ha p f' g' hrel).cases with ⟨e, f'', g'', hf', hg', hrel'⟩ | ⟨u, f'', g'', hf', hg', hrel'⟩
      · simp only [PacketFeed.forEach, hf, hg, hf', hg']
        exact ⟨rfl, hrel'⟩
      · simp only [PacketFeed.forEach, hf, hg, hf', hg']
        exact ih hrel' (count + 1)

end Mirrors

namespace Session

variable {φ ψ : Type} {R : φ → ψ → Prop} {s : Session φ} {t : Session ψ}

/-- Sessions that differ in their feeds only, which are related. -/
def Alike (R : φ → ψ → Prop) (s : Session φ) (t : Session ψ) : Prop :=
  ∃ g, t = s.withFeed g ∧ R s.packets.inner g

theorem Alike.header_eq (h : Alike R s t) : t.header = s.header := by
  obtain ⟨g, rfl, -⟩ := h
  rfl

theorem Alike.last_eq (h : Alike R s t) : t.last = s.last := by
  obtain ⟨g, rfl, -⟩ := h
  rfl

theorem Alike.fuel_eq (h : Alike R s t) : t.fuel = s.fuel := by
  obtain ⟨g, rfl, -⟩ := h
  rfl

theorem Alike.settle (h : Alike R s t) (state : SessionState) : Alike R (s.settle state) (t.settle state) := by
  obtain ⟨g, rfl, hR⟩ := h
  have hopen : (s.withFeed g).isOpen = s.isOpen := rfl
  unfold Session.settle
  rw [hopen]
  split
  · exact ⟨g, rfl, hR⟩
  · exact ⟨g, rfl, hR⟩

variable [PacketFeed φ] [ByteSink φ] [PacketFeed ψ] [ByteSink ψ]

/-- A pull brings the same from both and leaves them alike. -/
theorem Alike.next (hR : Mirrors R) (h : Alike R s t) : Agree (Alike R) s.next t.next := by
  obtain ⟨g, rfl, hrel⟩ := h
  obtain ⟨header, ⟨f, remaining, received, done⟩, last, state⟩ := s
  cases state with
  | completed => exact ⟨rfl, g, rfl, hrel⟩
  | failed reason => exact ⟨rfl, g, rfl, hrel⟩
  | unfinished =>
    cases done with
    | true => exact ⟨rfl, g, rfl, hrel⟩
    | false =>
      rcases (hR.next hrel).delivery_cases with ⟨f', g', hf, hg, hrel⟩ | ⟨e, f', g', hf, hg, hrel⟩ |
        ⟨p, f', g', hf, hg, hrel⟩
      · cases hr : remaining.isEmpty <;>
          simp only [Session.next, withFeed, isOpen, Verified.next, hf, hg, hr] <;> exact ⟨rfl, g', rfl, hrel⟩
      · simp only [Session.next, withFeed, isOpen, Verified.next, hf, hg]
        exact ⟨rfl, g', rfl, hrel⟩
      · have hcheck : (⟨g, remaining, received, false⟩ : Verified ψ).check p =
            (⟨f, remaining, received, false⟩ : Verified φ).check p := rfl
        cases hc : (⟨f, remaining, received, false⟩ : Verified φ).check p <;>
          simp only [Session.next, withFeed, isOpen, Verified.next, hf, hg, hcheck, hc] <;>
          exact ⟨rfl, g', rfl, hrel⟩

/-- Sessions on feeds that mirror each other mirror each other. -/
theorem mirrors_alike (hR : Mirrors R) : Mirrors (Alike R) where
  next h := h.next hR
  push b h := by
    obtain ⟨g, rfl, hrel⟩ := h
    obtain ⟨hresult, hrel⟩ := hR.push b hrel
    exact ⟨hresult, _, rfl, hrel⟩
  flush h := by
    obtain ⟨g, rfl, hrel⟩ := h
    obtain ⟨hresult, hrel⟩ := hR.flush hrel
    exact ⟨hresult, _, rfl, hrel⟩

theorem Alike.writePacket (hR : Mirrors R) (h : Alike R s t) (p : Packet) :
    Agree (Alike R) (Session.writePacket p s) (Session.writePacket p t) := by
  unfold Session.writePacket
  rcases ((mirrors_alike hR).writeTyped h p).cases with ⟨e, s', t', hs, ht, hrel⟩ | ⟨u, s', t', hs, ht, hrel⟩ <;>
    rw [hs, ht] <;> exact ⟨rfl, hrel⟩

theorem Alike.writeChunk (hR : Mirrors R) (h : Alike R s t) (p : Sequence) :
    Agree (Alike R) (Session.writeChunk p s) (Session.writeChunk p t) := by
  unfold Session.writeChunk
  rcases (h.writePacket hR (.sequence p)).cases with ⟨e, s', t', hs, ht, hrel⟩ | ⟨u, s', t', hs, ht, hrel⟩ <;>
    rw [hs, ht]
  · exact ⟨rfl, hrel.settle _⟩
  · exact ⟨rfl, hrel⟩

theorem Alike.writeEnd (hR : Mirrors R) (h : Alike R s t) : Agree (Alike R) s.writeEnd t.writeEnd := by
  unfold Session.writeEnd
  rw [h.last_eq, h.header_eq]
  split
  · exact h.writePacket hR _
  · exact ⟨rfl, h⟩

theorem Alike.flush (hR : Mirrors R) (h : Alike R s t) : Agree (Alike R) s.flush t.flush := by
  unfold Session.flush
  rcases ((mirrors_alike hR).flush h).cases with ⟨e, s', t', hs, ht, hrel⟩ | ⟨u, s', t', hs, ht, hrel⟩ <;>
    rw [hs, ht] <;> exact ⟨rfl, hrel⟩

/-- What is written of a session behind its header. -/
def writeBehind {σ : Type} [PacketFeed σ] [ByteSink σ] (s : Session σ) : Except TransferError Nat × Session σ :=
  match PacketFeed.forEach writeChunk s.fuel 0 s with
  | (.error e, s) => (.error e, s)
  | (.ok n, s) =>
    match s.writeEnd with
    | (.error e, s) => (.error e, s)
    | (.ok (), s) =>
      match s.flush with
      | (.error e, s) => (.error e, s)
      | (.ok (), s) => (.ok n, s)

theorem write_eq {σ : Type} [PacketFeed σ] [ByteSink σ] (s : Session σ) :
    s.write = match writePacket (.header s.header) s with
      | (.error e, s) => (.error e, s.abandon)
      | (.ok (), s) => s.writeBehind := rfl

theorem Alike.writeBehind (hR : Mirrors R) (h : Alike R s t) : Agree (Alike R) s.writeBehind t.writeBehind := by
  unfold Session.writeBehind
  rw [h.fuel_eq]
  rcases ((mirrors_alike hR).forEach (fun p _ _ h => h.writeChunk hR p) h s.fuel 0).cases with
    ⟨e, s₁, t₁, hs, ht, h₁⟩ | ⟨n, s₁, t₁, hs, ht, h₁⟩ <;> rw [hs, ht]
  · exact ⟨rfl, h₁⟩
  simp only []
  rcases (h₁.writeEnd hR).cases with ⟨e, s₂, t₂, hs, ht, h₂⟩ | ⟨u, s₂, t₂, hs, ht, h₂⟩ <;> rw [hs, ht]
  · exact ⟨rfl, h₂⟩
  simp only []
  rcases (h₂.flush hR).cases with ⟨e, s₃, t₃, hs, ht, h₃⟩ | ⟨u, s₃, t₃, hs, ht, h₃⟩ <;> rw [hs, ht]
  · exact ⟨rfl, h₃⟩
  · exact ⟨rfl, h₃⟩

/-- A session is written from one feed as from the other. -/
theorem Alike.write (hR : Mirrors R) (h : Alike R s t) : Agree (Alike R) s.write t.write := by
  rw [write_eq, write_eq, h.header_eq]
  rcases (h.writePacket hR (.header s.header)).cases with ⟨e, s₁, t₁, hs, ht, h₁⟩ | ⟨u, s₁, t₁, hs, ht, h₁⟩ <;>
    rw [hs, ht]
  · exact ⟨rfl, h₁.settle _⟩
  · exact h₁.writeBehind hR

end Session

/-! Two files of one disk. -/
namespace FilePipe

variable {d : Disk} {content : Bytes} {input output : Place} {mode m : Nat}

/-- A reader of the content in memory with a sink, and a reader of the file with the content that writes to
another file: both are at the same position, and what the sink has is in the other file or in the buffer. -/
inductive Carries (d : Disk) (content : Bytes) (input output : Place) (mode : Nat) :
    ChunkReader Source × Sink → ChunkReader FilePipe → Prop
  | at_ (size : UInt32) (next : Nat) (done : Bool) (pos : Nat) (written buffer : Bytes) :
      Carries d content input output mode
        (⟨(Source.ofBytes content).advance pos, size, next, done⟩, Sink.empty.grow (written ++ buffer))
        ⟨⟨d.set output (.file written mode), input, pos, output, buffer⟩, size, next, done⟩

theorem take_source (content : Bytes) (pos n : Nat) :
    ByteSource.take n ((Source.ofBytes content).advance pos) =
      (.ok (content.slice pos n), (Source.ofBytes content).advance (pos + (content.slice pos n).size)) := by
  have hpos : ((Source.ofBytes content).advance pos).pos = pos := Nat.zero_add pos
  have hbytes : ((Source.ofBytes content).advance pos).bytes = content := rfl
  have htake := Source.take_eq ((Source.steady_ofBytes content).advance pos) n
  rw [← Source.slice_pos, Source.size_rest, hbytes, hpos, Source.advance_advance] at htake
  rw [Bytes.size_slice_eq]
  exact htake

/-- The input is read as it was, since it is not the file that is written. -/
theorem take_file (hfile : d.entry? input = some (.file content m)) (hne : input ≠ output)
    (hroot : output ≠ .root) (written buffer : Bytes) (pos n : Nat) :
    ByteSource.take n (⟨d.set output (.file written mode), input, pos, output, buffer⟩ : FilePipe) =
      (.ok (content.slice pos n), ⟨d.set output (.file written mode), input,
        pos + (content.slice pos n).size, output, buffer⟩) := by
  have hentry : Disk.entry? (d.set output (.file written mode)) input = some (.file content m) := by
    rw [Disk.entry?_set hroot, if_neg hne, hfile]
  have htake : ByteSource.take n (⟨d.set output (.file written mode), input, pos, output, buffer⟩ : FilePipe) =
      take n ⟨d.set output (.file written mode), input, pos, output, buffer⟩ := rfl
  rw [htake]
  simp only [take, hentry]

theorem settle_eq (written buffer : Bytes) (pos : Nat) :
    settle ⟨d.set output (.file written mode), input, pos, output, buffer⟩ =
      ⟨d.set output (.file (written ++ buffer) mode), input, pos, output, ByteArray.empty⟩ := by
  simp only [settle, Disk.set_append]

/-- What is pushed is in the file behind what was written, or in the buffer. -/
theorem push_cases (written buffer b : Bytes) (pos : Nat) :
    ∃ written' buffer', push b ⟨d.set output (.file written mode), input, pos, output, buffer⟩ =
      ⟨d.set output (.file written' mode), input, pos, output, buffer'⟩ ∧
        written' ++ buffer' = written ++ buffer ++ b := by
  have hroom : ∃ w r, makeRoom b.size ⟨d.set output (.file written mode), input, pos, output, buffer⟩ =
      ⟨d.set output (.file w mode), input, pos, output, r⟩ ∧ w ++ r = written ++ buffer ∧
        (capacity ≤ b.size → r = ByteArray.empty) := by
    unfold makeRoom
    split
    · exact ⟨_, _, settle_eq written buffer pos, ByteArray.append_empty, fun _ => rfl⟩
    · rename_i hfits
      refine ⟨_, _, rfl, rfl, fun hbig => ?_⟩
      simp only at hfits
      exact ByteArray.size_eq_zero_iff.mp (by omega)
  obtain ⟨w, r, hmade, hkept, hempty⟩ := hroom
  simp only [push, hmade]
  split
  · exact ⟨w, r ++ b, rfl, by rw [← ByteArray.append_assoc, hkept]⟩
  · rename_i hbig
    refine ⟨w ++ b, r, by rw [Disk.set_append], ?_⟩
    rw [← hkept, hempty (Nat.le_of_not_lt hbig), ByteArray.append_empty, ByteArray.append_empty]

/-- Reading a file and writing another one goes as reading memory and writing to a sink. -/
theorem mirrors_carries (hfile : d.entry? input = some (.file content m)) (hne : input ≠ output)
    (hroot : output ≠ .root) : Mirrors (Carries d content input output mode) where
  next h := by
    obtain ⟨size, next, done, pos, written, buffer⟩ := h
    cases done with
    | true => exact ⟨rfl, .at_ ..⟩
    | false =>
      simp only [PacketFeed.next, ChunkReader.pull, take_source, take_file hfile hne hroot]
      by_cases hend : (content.slice pos size.toNat).size = 0
      · simp only [hend, if_true]
        exact ⟨rfl, .at_ ..⟩
      · by_cases hmax : next < Chunk.maxCount
        · simp only [hend, hmax, if_true, if_false]
          exact ⟨rfl, .at_ ..⟩
        · simp only [hend, hmax, if_false]
          exact ⟨rfl, .at_ ..⟩
  push b h := by
    obtain ⟨size, next, done, pos, written, buffer⟩ := h
    obtain ⟨written', buffer', hpush, hkept⟩ :=
      @push_cases d input output mode written buffer b pos
    have hsink : ByteSink.push b (Sink.empty.grow (written ++ buffer)) =
        (.ok (), Sink.empty.grow (written' ++ buffer')) := by
      rw [Sink.push_eq (Sink.Unfailing.grow ⟨rfl, rfl⟩ _), Sink.grow_grow, hkept]
    have hleft : ByteSink.push b
        ((⟨(Source.ofBytes content).advance pos, size, next, done⟩, Sink.empty.grow (written ++ buffer)) :
          ChunkReader Source × Sink) =
        (.ok (), (⟨(Source.ofBytes content).advance pos, size, next, done⟩, Sink.empty.grow (written' ++ buffer'))) :=
      congrArg (fun x => (x.1, ((⟨(Source.ofBytes content).advance pos, size, next, done⟩ : ChunkReader Source), x.2)))
        hsink
    have hright : ByteSink.push b
        (⟨⟨d.set output (.file written mode), input, pos, output, buffer⟩, size, next, done⟩ :
          ChunkReader FilePipe) =
        (.ok (), ⟨⟨d.set output (.file written' mode), input, pos, output, buffer'⟩, size, next, done⟩) :=
      congrArg (fun x => ((.ok (), ⟨x, size, next, done⟩) : Except IoError Unit × ChunkReader FilePipe)) hpush
    rw [hleft, hright]
    exact ⟨rfl, .at_ ..⟩
  flush h := by
    obtain ⟨size, next, done, pos, written, buffer⟩ := h
    have hright : ByteSink.flush
        (⟨⟨d.set output (.file written mode), input, pos, output, buffer⟩, size, next, done⟩ :
          ChunkReader FilePipe) =
        (.ok (), ⟨⟨d.set output (.file (written ++ buffer) mode), input, pos, output, ByteArray.empty⟩, size, next,
          done⟩) :=
      congrArg (fun x => ((.ok (), ⟨x, size, next, done⟩) : Except IoError Unit × ChunkReader FilePipe))
        (settle_eq written buffer pos)
    have hkept : written ++ buffer = (written ++ buffer) ++ ByteArray.empty := ByteArray.append_empty.symm
    rw [hright]
    refine ⟨rfl, ?_⟩
    have hcarries := @Carries.at_ d content input output mode size next done pos (written ++ buffer) ByteArray.empty
    rwa [← hkept] at hcarries

end FilePipe
end ChunkRelay
