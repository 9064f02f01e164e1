import ChunkRelay.Proofs.Packing
import ChunkRelay.Proofs.Saving

/-! Packing into the file that is packed. The output is opened only once the input has been read for the header, and
opening it empties it, so where both are one file its content is gone: the header that tells of it is written over it.
Any other file is left as it is, however far the packing gets. -/
namespace ChunkRelay

/-- What holds of a feed whatever is pulled from it and written to it. -/
structure PacketFeed.Invariant {φ : Type} [PacketFeed φ] [ByteSink φ] (I : φ → Prop) : Prop where
  next {f : φ} : I f → I (PacketFeed.next f).2
  push {f : φ} (b : Bytes) : I f → I (ByteSink.push b f).2
  flush {f : φ} : I f → I (ByteSink.flush f).2

namespace PacketFeed.Invariant

variable {φ : Type} [PacketFeed φ] [ByteSink φ] {I : φ → Prop}

/-- A feed for which something stays true mirrors itself. -/
theorem mirrors (hI : Invariant I) : Mirrors fun f g => f = g ∧ I g where
  next := by
    rintro f _ ⟨rfl, h⟩
    exact ⟨rfl, rfl, hI.next h⟩
  push b := by
    rintro ⟨rfl, h⟩
    exact ⟨rfl, rfl, hI.push b h⟩
  flush := by
    rintro f _ ⟨rfl, h⟩
    exact ⟨rfl, rfl, hI.flush h⟩

theorem packetPush (hI : Invariant I) {f : φ} (b : Bytes) (h : I f) : I (Packet.push b f).2 :=
  (hI.mirrors.packetPush ⟨rfl, h⟩ b).related.2

/-- It may come to hold as the type byte of a packet is written. -/
theorem writeTyped_of_push (hI : Invariant I) {f : φ} {p : Packet} (h : I (ByteSink.push ⟨#[p.type.byte]⟩ f).2) :
    I (p.writeTyped f).2 := by
  unfold Packet.writeTyped Packet.push Frame.push
  rcases hpush : ByteSink.push ⟨#[p.type.byte]⟩ f with ⟨e | u, g⟩
  · rw [hpush] at h
    exact h
  · rw [hpush] at h
    cases hencode : p.encode with
    | error e => exact h
    | ok b => exact hI.packetPush b h

/-- What holds of the feed of a session holds of it whatever is pulled from the session and written to it. -/
theorem session (hI : Invariant I) : Invariant fun s : Session φ => I s.packets.inner where
  next {s} h := by
    have halike : Session.Alike (fun f g => f = g ∧ I g) s s := ⟨s.packets.inner, rfl, rfl, h⟩
    obtain ⟨g, -, hg, hI⟩ := (halike.next hI.mirrors).related
    exact hg ▸ hI
  push b h := hI.push b h
  flush h := hI.flush h

theorem writeBehind (hI : Invariant I) {s : Session φ} (h : I s.packets.inner) : I s.writeBehind.2.packets.inner := by
  have halike : Session.Alike (fun f g => f = g ∧ I g) s s := ⟨s.packets.inner, rfl, rfl, h⟩
  obtain ⟨g, -, hg, hI⟩ := (halike.writeBehind hI.mirrors).related
  exact hg ▸ hI

/-- What the type byte of the header brings about holds of the feed once the session is written. -/
theorem write_of_push (hI : Invariant I) {s : Session φ}
    (h : I (ByteSink.push ⟨#[PacketType.blockHeader.byte]⟩ s.packets.inner).2) : I s.write.2.packets.inner := by
  have hhead : I (Session.writePacket (.header s.header) s).2.packets.inner := by
    have hwritten := hI.session.writeTyped_of_push (f := s) (p := .header s.header) h
    unfold Session.writePacket
    rcases htyped : (Packet.header s.header).writeTyped s with ⟨e | u, t⟩ <;> rwa [htyped] at hwritten
  rw [Session.write_eq]
  rcases hwrite : Session.writePacket (.header s.header) s with ⟨e | u, t⟩
  · rw [hwrite] at hhead
    show I (t.settle _).packets.inner
    unfold Session.settle
    split <;> exact hhead
  · rw [hwrite] at hhead
    exact hI.writeBehind hhead

end PacketFeed.Invariant

namespace FilePipe

variable {d : Disk} {input output : Place} {mode : Nat} {lead : Bytes} {r : ChunkReader FilePipe}

/-- A reader of one file that has changed nothing but the other one, to which `lead` went before anything else. -/
def Fills (d : Disk) (input output : Place) (mode : Nat) (lead : Bytes) (r : ChunkReader FilePipe) : Prop :=
  ∃ pos written buffer rest, r.source = ⟨d.set output (.file written mode), input, pos, output, buffer⟩ ∧
    written ++ buffer = lead ++ rest

/-- Reading moves on in the input and does nothing else. -/
theorem take_pos (n : Nat) (p : FilePipe) : ∃ pos, (take n p).2 = { p with pos } := by
  unfold take
  split
  · exact ⟨_, rfl⟩
  · exact ⟨p.pos, rfl⟩

theorem pull_source (r : ChunkReader FilePipe) : ∃ pos, r.pull.2.source = { r.source with pos } := by
  unfold ChunkReader.pull
  split
  · exact ⟨r.source.pos, rfl⟩
  · obtain ⟨pos, hpos⟩ := take_pos r.size.toNat r.source
    refine ⟨pos, ?_⟩
    rcases htake : ByteSource.take r.size.toNat r.source with ⟨e | b, s⟩
    · exact (congrArg Prod.snd htake).symm.trans hpos
    · obtain rfl : s = _ := (congrArg Prod.snd htake).symm.trans hpos
      simp only
      split
      · rfl
      · split <;> rfl

theorem invariant_fills : PacketFeed.Invariant (Fills d input output mode lead) where
  next {r} h := by
    obtain ⟨pos, written, buffer, rest, hsource, hbytes⟩ := h
    obtain ⟨pos', hpull⟩ := pull_source r
    have hnext : (PacketFeed.next r).2 = r.pull.2 := by
      simp only [PacketFeed.next]
      split <;> rename_i heq <;> rw [heq]
    exact ⟨pos', written, buffer, rest, by rw [hnext, hpull, hsource], hbytes⟩
  push {r} b h := by
    obtain ⟨pos, written, buffer, rest, hsource, hbytes⟩ := h
    obtain ⟨written', buffer', hpush, hkept⟩ := @push_cases d input output mode written buffer b pos
    refine ⟨pos, written', buffer', rest ++ b, ?_, ?_⟩
    · show push b r.source = _
      rw [hsource, hpush]
    · rw [hkept, hbytes, ByteArray.append_assoc]
  flush {r} h := by
    obtain ⟨pos, written, buffer, rest, hsource, hbytes⟩ := h
    refine ⟨pos, written ++ buffer, ByteArray.empty, rest, ?_, by rw [ByteArray.append_empty, hbytes]⟩
    show settle r.source = _
    rw [hsource, settle_eq]

/-- What is pushed first leads. -/
theorem fills_push (d : Disk) (input output : Place) (mode : Nat) (b : Bytes) {r : ChunkReader FilePipe}
    (h : r.source = ⟨d.set output (.file ByteArray.empty mode), input, 0, output, ByteArray.empty⟩) :
    Fills d input output mode b (ByteSink.push b r).2 := by
  obtain ⟨written, buffer, hpush, hkept⟩ :=
    @push_cases d input output mode ByteArray.empty ByteArray.empty b 0
  refine ⟨0, written, buffer, ByteArray.empty, ?_, by rw [hkept]; simp⟩
  show push b r.source = _
  rw [h, hpush]

theorem Fills.settle_eq (h : Fills d input output mode lead r) :
    ∃ rest, r.source.settle.disk = d.set output (.file (lead ++ rest) mode) := by
  obtain ⟨pos, written, buffer, rest, hsource, hbytes⟩ := h
  exact ⟨rest, by rw [hsource, FilePipe.settle_eq, hbytes]⟩

end FilePipe

namespace Packed

/-- Of all the files one is written, and a header comes first in it. -/
theorem transfer_disk (s : Session (ChunkReader Source)) (d : Disk) (input output : Place) (mode : Nat) :
    ∃ rest, (transfer s (d.set output (.file ByteArray.empty mode)) input output).2 =
      d.set output (.file (⟨#[PacketType.blockHeader.byte]⟩ ++ rest) mode) := by
  have hpushed := FilePipe.fills_push d input output mode ⟨#[PacketType.blockHeader.byte]⟩
    (r := s.packets.inner.withSource ⟨d.set output (.file ByteArray.empty mode), input, 0, output, ByteArray.empty⟩) rfl
  unfold transfer
  generalize s.packets.inner.withSource
    (⟨d.set output (.file ByteArray.empty mode), input, 0, output, ByteArray.empty⟩ : FilePipe) = feed at hpushed
  exact (FilePipe.invariant_fills.write_of_push (s := s.withFeed feed) hpushed).settle_eq

/-- Packing gets as far as its output: the header can be made, the file can be read once more, and the output can be
opened. -/
structure Opens (settings : Settings) (o : Options) (d : Disk) (file out : String) (s : Session (ChunkReader Source))
    (input : Disk.Target) (output : Place) (d₁ : Disk) : Prop where
  session : ∃ l h, d.chunkHashes file (chunkSize settings o) = .ok l ∧
    Header.build (draft o (chunkSize settings o) file l) = .ok h ∧
      Session.ofFile (.ofHeader h (.file file)) d file settings.threshold true = .ok s
  resolve_eq : d.resolve file = .ok input
  create_eq : d.create out = .ok (output, d₁)

end Packed

variable {settings : Settings} {o : Options} {d d₁ d' : Disk} {file out : String} {s : Session (ChunkReader Source)}
  {input : Disk.Target} {output : Place} {r : Except CommandError Packed}

theorem Packed.Opens.pack_eq (h : Opens settings o d file out s input output d₁) :
    (pack settings o d file out).2 = (transfer s d₁ input.place output).2 ∧
      ∀ e, (transfer s d₁ input.place output).1 = .error e → (pack settings o d file out).1 = .error (.transfer e) := by
  obtain ⟨l, head, hhashes, hbuild, hsession⟩ := h.session
  have hblock : o.blockSize.getD settings.blockSize = chunkSize settings o := rfl
  simp only [pack, hblock, hhashes, hbuild, hsession, h.resolve_eq, h.create_eq]
  rcases transfer s d₁ input.place output with ⟨e | n, d₂⟩
  · refine ⟨rfl, fun x hx => ?_⟩
    cases hx
    rfl
  · refine ⟨rfl, fun x hx => ?_⟩
    cases hx

/-- Where packing does not get that far, it is refused and nothing is done. -/
theorem pack_of_not_opens (h : ∀ s input output d₁, ¬ Packed.Opens settings o d file out s input output d₁) :
    ∃ e, pack settings o d file out = (.error e, d) := by
  have hblock : o.blockSize.getD settings.blockSize = Packed.chunkSize settings o := rfl
  cases hhashes : d.chunkHashes file (Packed.chunkSize settings o) with
  | error e => exact ⟨.file e, by simp only [pack, hblock, hhashes]⟩
  | ok l =>
    cases hbuild : Header.build (Packed.draft o (Packed.chunkSize settings o) file l) with
    | error e => exact ⟨.header e, by simp only [pack, hblock, hhashes, hbuild]⟩
    | ok head =>
      cases hsession : Session.ofFile (.ofHeader head (.file file)) d file settings.threshold true with
      | error e => exact ⟨.transfer e, by simp only [pack, hblock, hhashes, hbuild, hsession]⟩
      | ok s =>
        cases hresolve : d.resolve file with
        | error e => exact ⟨.transfer (.io e), by simp only [pack, hblock, hhashes, hbuild, hsession, hresolve]⟩
        | ok input =>
          cases hcreate : d.create out with
          | error e =>
            exact ⟨.create out e, by simp only [pack, hblock, hhashes, hbuild, hsession, hresolve, hcreate]⟩
          | ok made =>
            exact absurd ⟨⟨l, head, hhashes, hbuild, hsession⟩, hresolve, hcreate⟩ (h s input made.1 made.2)

/-- What packing may come to on a disk that may refuse any step: it goes as `pack` has it, it is given up before the
output is opened, or no more than some bytes come through. -/
inductive Packs (settings : Settings) (o : Options) (d : Disk) (file out : String) :
    Except CommandError Packed → Disk → Prop
  | granted {r : Except CommandError Packed} {d' : Disk} : pack settings o d file out = (r, d') →
      Packs settings o d file out r d'
  | unopened (e : CommandError) : Packs settings o d file out (.error e) d
  | cut {s : Session (ChunkReader Source)} {input : Disk.Target} {output : Place} {d₁ : Disk} (e : TransferError)
      (written : Bytes) : Packed.Opens settings o d file out s input output d₁ →
      Packs settings o d file out (.error (.transfer e)) (d₁.append output written)

/-- Either nothing was done, or the output was emptied and written. -/
theorem Packs.cases (h : Packs settings o d file out r d') :
    d' = d ∨ ∃ s input output d₁ mode b, Packed.Opens settings o d file out s input output d₁ ∧
      d' = d.set output (.file b mode) := by
  cases h with
  | granted hpack =>
    by_cases hopens : ∃ s input output d₁, Packed.Opens settings o d file out s input output d₁
    · obtain ⟨s, input, output, d₁, hopens⟩ := hopens
      obtain ⟨u, mode, -, -, -, -, -, rfl⟩ := Disk.of_create hopens.create_eq
      obtain ⟨rest, htransfer⟩ := Packed.transfer_disk s d input.place output mode
      exact .inr ⟨s, input, output, _, mode, _, hopens,
        (congrArg Prod.snd hpack).symm.trans (hopens.pack_eq.1.trans htransfer)⟩
    · simp only [not_exists] at hopens
      obtain ⟨e, heq⟩ := pack_of_not_opens hopens
      exact .inl (congrArg Prod.snd (hpack.symm.trans heq))
  | unopened e => exact .inl rfl
  | @cut s input output d₁ e written hopens =>
    obtain ⟨u, mode, -, -, -, -, -, rfl⟩ := Disk.of_create hopens.create_eq
    exact .inr ⟨s, input, output, _, mode, written, hopens, by rw [Disk.set_append, ByteArray.empty_append]⟩

/-- Packing gets as far as its output, and that is the file that is packed. -/
def Packed.Overlaps (settings : Settings) (o : Options) (d : Disk) (file out : String)
    (s : Session (ChunkReader Source)) : Prop :=
  ∃ input d₁, Opens settings o d file out s input input.place d₁

/-- A file that is packed into itself is there, and its path does not end in a slash. -/
theorem Packed.Opens.slash_eq (h : Opens settings o d file out s input input.place d₁) : input.slash = false := by
  obtain ⟨l, head, -, -, hsession⟩ := h.session
  obtain ⟨u, mode, -, -, -, -, hdir, -⟩ := Disk.of_create h.create_eq
  have hstat : ∃ e, d.stat file = .ok e := by
    cases hstat : d.stat file with
    | error e => simp [Session.ofFile, Disk.openSource, hstat] at hsession
    | ok e => exact ⟨e, rfl⟩
  obtain ⟨e, hstat⟩ := hstat
  simp only [Disk.stat, h.resolve_eq] at hstat
  rcases hentry : d.entry? input.place with - | ⟨c, m⟩ | -
  · simp [hentry] at hstat
  · cases hslash : input.slash with
    | true => simp [hentry, hslash] at hstat
    | false => rfl
  · exact absurd hentry hdir

/-- The input is as it was wherever it is not the output, and so is every other file. -/
theorem Packs.read_eq (h : Packs settings o d file out r d') (hapart : ∀ s, ¬ Packed.Overlaps settings o d file out s) :
    d'.read file = d.read file := by
  rcases h.cases with rfl | ⟨s, input, output, d₁, mode, b, hopens, rfl⟩
  · rfl
  · obtain ⟨u, -, -, -, -, hroot, hdir, -⟩ := Disk.of_create hopens.create_eq
    have hne : input.place ≠ output := by
      rintro rfl
      exact hapart s ⟨input, d₁, hopens⟩
    have hresolve := (Disk.SameDirectories.of_set hroot hdir b mode).resolve_eq hopens.resolve_eq
    exact Disk.read_congr hopens.resolve_eq hresolve ((Disk.entry?_set hroot _ _ _).trans (if_neg hne))

theorem Packs.entry?_eq (h : Packs settings o d file out r d') {p : Place}
    (hp : ∀ t, d.resolve out = .ok t → t.place ≠ p) : d'.entry? p = d.entry? p := by
  rcases h.cases with rfl | ⟨s, input, output, d₁, mode, b, hopens, rfl⟩
  · rfl
  · obtain ⟨u, -, hu, -, rfl, hroot, -, -⟩ := Disk.of_create hopens.create_eq
    rw [Disk.entry?_set hroot, if_neg (Ne.symm (hp u hu))]

/-- What is written to it then is what is read of it. -/
theorem Packed.Opens.read_set (h : Opens settings o d file out s input input.place d₁) (b : Bytes) (mode : Nat) :
    (d.set input.place (.file b mode)).read file = .ok b := by
  obtain ⟨u, m, -, -, -, hroot, hdir, -⟩ := Disk.of_create h.create_eq
  have hresolve := (Disk.SameDirectories.of_set hroot hdir b mode).resolve_eq h.resolve_eq
  exact Disk.read_of_resolve hresolve h.slash_eq ((Disk.entry?_set hroot _ _ _).trans (if_pos rfl))

/-- Where it is the output, a header is what it begins with. -/
theorem Packed.Overlaps.read_eq (h : Overlaps settings o d file out s) :
    ∃ rest, (pack settings o d file out).2.read file = .ok (⟨#[PacketType.blockHeader.byte]⟩ ++ rest) := by
  obtain ⟨input, d₁, hopens⟩ := h
  obtain ⟨u, mode, -, -, -, -, -, rfl⟩ := Disk.of_create hopens.create_eq
  obtain ⟨rest, htransfer⟩ := transfer_disk s d input.place input.place mode
  exact ⟨rest, by rw [hopens.pack_eq.1, htransfer, hopens.read_set]⟩

/-! A header that is shorter than the buffer. -/

/-- What fits the buffer stays in it. -/
theorem FilePipe.push_of_room {p : FilePipe} {b : Bytes} (hroom : p.buffer.size + b.size ≤ capacity)
    (hsmall : b.size < capacity) : push b p = { p with buffer := p.buffer ++ b } := by
  have hmade : p.makeRoom b.size = p := if_neg (Nat.not_lt.mpr hroom)
  simp only [push, hmade, if_pos hsmall]

/-- Nothing comes out of a file that has been emptied. -/
theorem FilePipe.next_of_empty {p : FilePipe} {m : Nat} (h : p.disk.entry? p.input = some (.file ByteArray.empty m))
    (size : UInt32) (next : Nat) :
    PacketFeed.next (⟨p, size, next, false⟩ : ChunkReader FilePipe) = (none, ⟨p, size, next, true⟩) := by
  have hslice : Bytes.slice ByteArray.empty p.pos size.toNat = ByteArray.empty := by
    rw [← ByteArray.size_eq_zero_iff, Bytes.size_slice_eq]
    exact Nat.min_eq_zero_iff.mpr (.inr (Nat.zero_sub _))
  have htake : ByteSource.take size.toNat p = (.ok ByteArray.empty, p) := by
    show take size.toNat p = _
    simp only [take, h, hslice]
    rfl
  simp only [PacketFeed.next, ChunkReader.pull, htake]
  rfl

/-- The header goes into the buffer if it fits. -/
theorem Session.write_of_short {h : Header} {b : Bytes} (hb : (Packet.header h).encode = .ok b)
    (hshort : (Packet.header h).wireSize ≤ FilePipe.capacity) (pipe : FilePipe) (hempty : pipe.buffer = ByteArray.empty)
    (size : UInt32) (next : Nat) (done last : Bool) :
    (withPackets h (⟨pipe, size, next, done⟩ : ChunkReader FilePipe) last).write =
      (withPackets h (⟨{ pipe with buffer := ⟨#[PacketType.blockHeader.byte]⟩ ++ b }, size, next, done⟩ :
        ChunkReader FilePipe) last).writeBehind := by
  have hsize := Packet.size_of_encode hb
  have htype : ByteArray.size ⟨#[PacketType.blockHeader.byte]⟩ = 1 := rfl
  -- the type byte and the frame are pushed one after the other, and neither empties the buffer
  have hfirst : FilePipe.push ⟨#[PacketType.blockHeader.byte]⟩ pipe =
      { pipe with buffer := ⟨#[PacketType.blockHeader.byte]⟩ } := by
    rw [FilePipe.push_of_room (by rw [hempty, htype]; decide) (by rw [htype]; decide), hempty, ByteArray.empty_append]
  have hsecond : FilePipe.push b { pipe with buffer := ⟨#[PacketType.blockHeader.byte]⟩ } =
      { pipe with buffer := ⟨#[PacketType.blockHeader.byte]⟩ ++ b } := by
    rw [FilePipe.push_of_room (by simp only [htype]; omega) (by omega)]
  have hhead : writePacket (.header h) (withPackets h (⟨pipe, size, next, done⟩ : ChunkReader FilePipe) last) =
      (.ok (), withPackets h ⟨{ pipe with buffer := ⟨#[PacketType.blockHeader.byte]⟩ ++ b }, size, next, done⟩
        last) := by
    simp only [writePacket, Packet.writeTyped, Packet.push, Frame.push, ByteSink.push, withPackets, Verified.new, hb,
      Packet.type, hfirst, hsecond]
  have hheader : (withPackets h (⟨pipe, size, next, done⟩ : ChunkReader FilePipe) last).header = h := rfl
  rw [write_eq, hheader, hhead]

/-- The first pull from an emptied file fails the session. -/
theorem Session.writeBehind_of_empty {h : Header} (hlist : h.hashes ≠ []) (pipe : FilePipe) {m : Nat}
    (hempty : pipe.disk.entry? pipe.input = some (.file ByteArray.empty m)) (size : UInt32) (next : Nat) (last : Bool) :
    ∃ s, (withPackets h (⟨pipe, size, next, false⟩ : ChunkReader FilePipe) last).writeBehind =
        (.error (.truncated 0 h.hashes.length), s) ∧ s.packets.inner.source = pipe := by
  have hnext := FilePipe.next_of_empty hempty size next
  have hsome : h.hashes.isEmpty = false := by simpa using hlist
  have hpull : PacketFeed.next (withPackets h (⟨pipe, size, next, false⟩ : ChunkReader FilePipe) last) =
      (some (.error (.truncated 0 h.hashes.length)),
        ⟨h, ⟨⟨pipe, size, next, true⟩, h.hashes, 0, true⟩, last,
          .failed (TransferError.truncated 0 h.hashes.length).message⟩) := by
    have hfeed : (withPackets h (⟨pipe, size, next, false⟩ : ChunkReader FilePipe) last).packets.next =
        (some (.error (.truncated 0 h.hashes.length)), ⟨⟨pipe, size, next, true⟩, h.hashes, 0, true⟩) := by
      simp [withPackets, Verified.new, Verified.next, hnext, hsome, Verified.expected]
    show Session.next _ = _
    rw [Session.next, hfeed]
    rfl
  refine ⟨⟨h, ⟨⟨pipe, size, next, true⟩, h.hashes, 0, true⟩, last,
    .failed (TransferError.truncated 0 h.hashes.length).message⟩, ?_, rfl⟩
  have hfuel : (withPackets h (⟨pipe, size, next, false⟩ : ChunkReader FilePipe) last).fuel = h.hashes.length + 1 := rfl
  simp only [writeBehind, hfuel, PacketFeed.forEach, hpull]

/-- It is all that is left of the file. -/
theorem Packed.transfer_of_short {h : Header} (hlist : h.hashes ≠ [])
    (hshort : (Packet.header h).wireSize ≤ FilePipe.capacity) (source : Source) (size : UInt32) (last : Bool) (d : Disk)
    {place : Place} (hroot : place ≠ .root) (mode : Nat) :
    ∃ b, (Packet.header h).encode = .ok b ∧
      transfer (.withPackets h ⟨source, size, 0, false⟩ last) (d.set place (.file ByteArray.empty mode)) place place =
        (.error (.truncated 0 h.hashes.length), d.set place (.file (⟨#[PacketType.blockHeader.byte]⟩ ++ b) mode)) := by
  have hpayload : (Packet.header h).payload.size ≤ Frame.maxLength := by
    simp only [Packet.wireSize, FilePipe.capacity] at hshort
    simp only [Frame.maxLength]
    omega
  obtain ⟨b, hb⟩ := Packet.encode_of_le hpayload
  refine ⟨b, hb, ?_⟩
  -- of the tree no more counts than that the file is empty in it and what it is once the buffer is written
  have hentry : Disk.entry? (d.set place (.file ByteArray.empty mode)) place = some (.file ByteArray.empty mode) :=
    (Disk.entry?_set hroot _ _ _).trans (if_pos rfl)
  have hsettle := @FilePipe.settle_eq d place place mode ByteArray.empty (⟨#[PacketType.blockHeader.byte]⟩ ++ b) 0
  rw [ByteArray.empty_append] at hsettle
  generalize d.set place (.file ByteArray.empty mode) = emptied at hentry hsettle ⊢
  have hwrite := Session.write_of_short hb hshort ⟨emptied, place, 0, place, ByteArray.empty⟩ rfl size 0 false last
  obtain ⟨s, hbehind, hsource⟩ := Session.writeBehind_of_empty hlist
    ⟨emptied, place, 0, place, ⟨#[PacketType.blockHeader.byte]⟩ ++ b⟩ hentry size 0 last
  have htransfer : transfer (.withPackets h ⟨source, size, 0, false⟩ last) emptied place place =
      (.error (.truncated 0 h.hashes.length), s.packets.inner.source.settle.disk) :=
    transfer_of_write (hwrite.trans hbehind)
  rw [htransfer, hsource, hsettle]

theorem Session.of_ofFile {m : Message} {path : String} {threshold : Nat} {last : Bool}
    (h : ofFile m d path threshold last = .ok s) :
    ∃ source size, s = withPackets s.header ⟨source, size, 0, false⟩ last := by
  unfold ofFile at h
  split at h
  · rename_i source entry _ _
    simp only [ofSource, ChunkReader.new] at h
    cases hsize : Chunk.checkSize m.blockSize with
    | error e => simp [hsize, Except.map] at h
    | ok u =>
      simp only [hsize, Except.map, outbound] at h
      split at h
      · cases h
      · cases h
        exact ⟨source, m.blockSize, rfl⟩
  · cases h
  · cases h

/-- With such a header it is all that is left of a file with content, and packing fails. -/
theorem Packed.Overlaps.pack_eq (h : Overlaps settings o d file out s) (hlist : s.header.hashes ≠ [])
    (hshort : (Packet.header s.header).wireSize ≤ FilePipe.capacity) :
    ∃ b, (Packet.header s.header).encode = .ok b ∧
      (pack settings o d file out).1 = .error (.transfer (.truncated 0 s.header.hashes.length)) ∧
        (pack settings o d file out).2.read file = .ok (⟨#[PacketType.blockHeader.byte]⟩ ++ b) := by
  obtain ⟨input, d₁, hopens⟩ := h
  obtain ⟨l, head, -, -, hsession⟩ := hopens.session
  obtain ⟨source, size, hs⟩ := Session.of_ofFile hsession
  obtain ⟨u, mode, -, -, -, hroot, -, rfl⟩ := Disk.of_create hopens.create_eq
  obtain ⟨b, hb, htransfer⟩ := transfer_of_short hlist hshort source size true d hroot mode
  rw [← hs] at htransfer
  refine ⟨b, hb, hopens.pack_eq.2 _ (congrArg Prod.fst htransfer), ?_⟩
  rw [hopens.pack_eq.1, htransfer, hopens.read_set]

/-- Packing leaves its input as it is, and all other files but the output, however far it gets, unless the output is the
input itself. Then a header is written over the content; one that is shorter than the buffer is all that is left of a
file with content, and packing fails, for the file has nothing any more that could be packed. -/
theorem read_of_packs (settings : Settings) (o : Options) (d : Disk) (file out : String) :
    (∀ r d', Packs settings o d file out r d' →
      ((∀ s, ¬ Packed.Overlaps settings o d file out s) → d'.read file = d.read file) ∧
      ∀ p, (∀ t, d.resolve out = .ok t → t.place ≠ p) → d'.entry? p = d.entry? p) ∧
    ∀ s, Packed.Overlaps settings o d file out s →
      (∃ rest, (pack settings o d file out).2.read file = .ok (⟨#[PacketType.blockHeader.byte]⟩ ++ rest)) ∧
      (s.header.hashes ≠ [] → (Packet.header s.header).wireSize ≤ FilePipe.capacity →
        ∃ b, (Packet.header s.header).encode = .ok b ∧
          (pack settings o d file out).1 = .error (.transfer (.truncated 0 s.header.hashes.length)) ∧
            (pack settings o d file out).2.read file = .ok (⟨#[PacketType.blockHeader.byte]⟩ ++ b)) :=
  ⟨fun _ _ h => ⟨h.read_eq, fun _ hp => h.entry?_eq hp⟩, fun _ h => ⟨h.read_eq, h.pack_eq⟩⟩

/-- A file that keeps the rules is packed as far as its output. -/
theorem Packed.Fits.opens {content : Bytes} (hf : Fits settings o file content) (hread : d.read file = .ok content)
    (hresolve : d.resolve file = .ok input) (hcreate : d.create out = .ok (output, d₁)) :
    Opens settings o d file out (.withPackets (header settings o file content)
      ⟨.ofBytes content, chunkSize settings o, 0, false⟩ true) input output d₁ := by
  obtain ⟨hhashes, hsession⟩ := hf.session_eq hread
  exact ⟨⟨_, _, hhashes, hf.build_eq, hsession⟩, hresolve, hcreate⟩

namespace Packed

/-- A working directory with a short note in it. -/
def deskWithNote : Disk :=
  (Disk.ofWorkDir ⟨#["node"]⟩).set ⟨#["node", "note"]⟩ (.file ⟨#[7, 8]⟩ Disk.defaultMode)

theorem freeName_note : (Disk.ofWorkDir ⟨#["node"]⟩).FreeName "note" := by decide +kernel

theorem takesFile_note : deskWithNote.TakesFile "note" ⟨⟨#["node", "note"]⟩, true, false⟩ :=
  ⟨(Disk.grows_set freeName_note.free _).keepsDirectories.resolve_eq freeName_note.resolve_eq, rfl, rfl, by decide⟩

end Packed

open Packed in
/-- The note is packed into another file and stays. -/
theorem read_of_packs_of_note :
    let settings : Settings := ⟨"", "", "", 4, 16⟩
    let packed := pack settings Options.empty deskWithNote "note" "out"
    Packs settings Options.empty deskWithNote "note" "out" packed.1 packed.2 ∧
      packed.2.read "note" = .ok ⟨#[7, 8]⟩ := by
  intro settings packed
  have hout : deskWithNote.FreeName "out" := by decide +kernel
  have hplaces : (⟨#["node", "note"]⟩ : Place) ≠ deskWithNote.workDir.child "out" := by decide
  have hapart : ∀ s, ¬ Overlaps settings Options.empty deskWithNote "note" "out" s := by
    rintro s ⟨input, d₁, hopens⟩
    obtain rfl : input = _ := Except.ok.inj (hopens.resolve_eq.symm.trans takesFile_note.resolve_eq)
    exact hplaces (congrArg Prod.fst (Except.ok.inj (hopens.create_eq.symm.trans hout.create_eq)))
  have hpacks : Packs settings Options.empty deskWithNote "note" "out" packed.1 packed.2 := .granted rfl
  refine ⟨hpacks, ?_⟩
  rw [((read_of_packs _ _ _ _ _).1 _ _ hpacks).1 hapart]
  exact freeName_note.read_set ⟨#[7, 8]⟩ Disk.defaultMode

open Packed in
/-- The note is packed into itself and is gone. -/
theorem gone_of_note_into_itself :
    let settings : Settings := ⟨"", "", "", 4, 16⟩
    let packed := pack settings Options.empty deskWithNote "note" "note"
    deskWithNote.read "note" = .ok ⟨#[7, 8]⟩ ∧ packed.1 = .error (.transfer (.truncated 0 1)) ∧
      packed.2.read "note" ≠ .ok ⟨#[7, 8]⟩ := by
  intro settings packed
  have hread : deskWithNote.read "note" = .ok ⟨#[7, 8]⟩ := freeName_note.read_set ⟨#[7, 8]⟩ Disk.defaultMode
  have hfits : Fits settings Options.empty "note" ⟨#[7, 8]⟩ := ⟨by decide, by decide, by decide, by decide +kernel⟩
  obtain ⟨m, hcreate⟩ := takesFile_note.create_eq
  have hoverlaps : Overlaps settings Options.empty deskWithNote "note" "note" _ :=
    ⟨_, _, hfits.opens hread takesFile_note.resolve_eq hcreate⟩
  obtain ⟨b, -, hpack, hleft⟩ := hoverlaps.pack_eq (by decide +kernel) (by decide +kernel)
  have hcount : (header settings Options.empty "note" ⟨#[7, 8]⟩).hashes.length = 1 := by decide +kernel
  refine ⟨hread, by rw [← hcount]; exact hpack, fun hsame => ?_⟩
  have hbytes := congrArg (fun b : Bytes => b.data.toList.head?) (Except.ok.inj (hleft.symm.trans hsame))
  simp [PacketType.byte] at hbytes

end ChunkRelay
