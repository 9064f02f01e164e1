import ChunkRelay.Settings
import ChunkRelay.Proofs.Cutting
import ChunkRelay.Proofs.Parsing
import ChunkRelay.Proofs.Transport

/-! The sizes that blocks may have. A chunk fits a frame exactly if it is no longer than the largest of them, and
whoever is given a size, to cut a body, to make or take in a header or to load settings, allows the same sizes. -/
namespace ChunkRelay

/-- A size that blocks may have. -/
def Framable (n : UInt32) : Prop := 1 ≤ n ∧ n ≤ maxBlockSize

instance (n : UInt32) : Decidable (Framable n) := inferInstanceAs (Decidable (_ ∧ _))

theorem framable_iff {n : UInt32} : Framable n ↔ n ≠ 0 ∧ ¬ maxBlockSize < n := by
  have hone : 1 ≤ n ↔ n ≠ 0 := by
    rw [UInt32.le_iff_toNat_le, Ne, ← UInt32.toNat_inj]
    exact Nat.one_le_iff_ne_zero
  rw [Framable, hone, UInt32.not_lt]

/-- Why blocks may not have a size. The checks have different words for none at all. -/
def PolicyError.ofSize (zero : PolicyError) (n : UInt32) : PolicyError := if n = 0 then zero else .blockSizeTooLarge n

/-- The answer to a size: a value if blocks may have the size, else this error. -/
structure SizeRule {ε α : Type} (n : UInt32) (fault : ε) (answer : Except ε α) : Prop where
  accepts_iff : (∃ a, answer = .ok a) ↔ Framable n
  refuses : ¬ Framable n → answer = .error fault

namespace SizeRule

variable {ε δ α β : Type} {n : UInt32} {fault : ε} {answer : Except ε α}

theorem of_ite {a : α} (h : answer = if Framable n then .ok a else .error fault) : SizeRule n fault answer := by
  by_cases hn : Framable n
  · rw [if_pos hn] at h
    exact ⟨⟨fun _ => hn, fun _ => ⟨a, h⟩⟩, fun hnot => absurd hn hnot⟩
  · rw [if_neg hn] at h
    refine ⟨⟨?_, fun hyes => absurd hyes hn⟩, fun _ => h⟩
    rintro ⟨a, ha⟩
    cases h.symm.trans ha

theorem map (h : SizeRule n fault answer) (f : α → β) : SizeRule n fault (answer.map f) := by
  refine ⟨?_, fun hn => by rw [h.refuses hn]; rfl⟩
  rw [← h.accepts_iff]
  cases answer with
  | error e => simp [Except.map]
  | ok a => simp [Except.map]

theorem mapError (h : SizeRule n fault answer) (f : ε → δ) : SizeRule n (f fault) (answer.mapError f) := by
  refine ⟨?_, fun hn => by rw [h.refuses hn, mapError_error]⟩
  rw [← h.accepts_iff]
  cases answer with
  | error e => simp
  | ok a => simp

end SizeRule

/-! Frames. -/

/-- A chunk is encoded exactly if it is no longer than the largest block, and takes its packet's 13 bytes and those of
a frame beside its own. -/
theorem Packet.size_encode_ofChunk (number : UInt32) (data : Bytes) :
    (Packet.sequence (.ofChunk number data)).encode.map ByteArray.size =
      if data.size ≤ maxBlockSize.toNat then .ok (data.size + 13 + Frame.overhead)
      else .error (.framing (.tooLarge (data.size + 13))) := by
  have hsize : (Packet.sequence (.ofChunk number data)).payload.size = data.size + 13 := by
    rw [Packet.payload, Sequence.size_encode, Nat.add_comm]
    rfl
  have hmax := maxBlockSize_add
  by_cases hle : data.size ≤ maxBlockSize.toNat
  · have hfits : ¬ (Packet.sequence (.ofChunk number data)).payload.size > Frame.maxLength := by omega
    simp only [Packet.encode, Frame.encode, if_neg hfits, if_pos hle, mapError_ok, Except.map, Frame.overhead,
      ByteArray.size_append, Bytes.size_ofUInt32LE, Except.ok.injEq]
    omega
  · have hlong : (Packet.sequence (.ofChunk number data)).payload.size > Frame.maxLength := by omega
    rw [Packet.encode, Frame.encode, if_pos hlong, hsize, if_neg hle]
    rfl

/-- A chunk that one frame holds, and that can be taken out of it. -/
def Chunk.InFrame (c : Chunk) : Prop :=
  ∃ b, (Packet.sequence c.packet).encode = .ok b ∧
    Packet.parse .blockSequence b = .ok (.sequence c.packet, b.size)

theorem Chunk.inFrame_of_le {c : Chunk} (h : c.data.size ≤ maxBlockSize.toNat) : c.InFrame := by
  have hmax := maxBlockSize_add
  have hfits : (Packet.sequence c.packet).payload.size ≤ Frame.maxLength := by
    rw [Packet.payload, Sequence.size_encode]
    change 13 + c.data.size ≤ _
    omega
  obtain ⟨b, hb⟩ := Packet.encode_of_le hfits
  have hparse := Packet.parse_append (Packet.faithful_sequence c.packet) hb ByteArray.empty
  rw [ByteArray.append_empty] at hparse
  exact ⟨b, hb, hparse⟩

/-! Cutting. -/

theorem Chunk.sizeRule_checkSize (n : UInt32) : SizeRule n (.ofSize .zeroChunkSize n) (checkSize n) := by
  refine .of_ite (a := ()) ?_
  by_cases hzero : n = 0
  · simp [checkSize, framable_iff, PolicyError.ofSize, hzero]
  · by_cases hlarge : maxBlockSize < n <;> simp [checkSize, framable_iff, PolicyError.ofSize, hzero, hlarge]

theorem Framable.checkSize {n : UInt32} (h : Framable n) : Chunk.checkSize n = .ok () := by
  obtain ⟨⟨⟩, hu⟩ := (Chunk.sizeRule_checkSize n).accepts_iff.mpr h
  exact hu

theorem ChunkReader.sizeRule_new {σ : Type} [ByteSource σ] (s : σ) (n : UInt32) :
    SizeRule n (.ofSize .zeroChunkSize n) (ChunkReader.new s n) :=
  (Chunk.sizeRule_checkSize n).map _

/-- A body in memory is refused for the size of its chunks, or for their number. -/
theorem Chunk.ofBody_eq_ite (b : Bytes) (n : UInt32) :
    ofBody b n =
      if Framable n then
        if count b.size n.toNat ≤ maxCount then .ok (split b n.toNat) else .error .tooManyChunks
      else .error (.ofSize .zeroChunkSize n) := by
  by_cases hn : Framable n
  · rw [if_pos hn, ofBody_eq hn.checkSize]
  · rw [if_neg hn, ofBody, BodyReader.new, (sizeRule_checkSize n).refuses hn]
    rfl

namespace Source

/-- Hashing fails as the source does, or for the number of the chunks. -/
theorem hashChunks_ne_policy {s : Source} {size fuel : Nat} {acc : Array Hash} {e : PolicyError}
    (he : e ≠ .tooManyChunks) : s.hashChunks size acc fuel ≠ .error (.policy e) := by
  induction fuel generalizing s acc with
  | zero => exact nofun
  | succ fuel ih =>
    unfold hashChunks
    split
    · exact nofun
    · split
      · exact nofun
      · split
        · exact ih
        · intro h
          cases h
          exact he rfl

/-- A source is refused for the size of its chunks exactly if blocks may not have it. -/
theorem chunkHashes_eq_error_iff (s : Source) (n : UInt32) :
    s.chunkHashes n = .error (.policy (.ofSize .zeroChunkSize n)) ↔ ¬ Framable n := by
  constructor
  · intro h hn
    have hne : PolicyError.ofSize .zeroChunkSize n ≠ .tooManyChunks := by
      rw [PolicyError.ofSize]
      split <;> exact nofun
    rw [chunkHashes, hn.checkSize] at h
    exact hashChunks_ne_policy hne h
  · intro hn
    rw [chunkHashes, (Chunk.sizeRule_checkSize n).refuses hn]

/-- A source that hands out its bytes is hashed at every size that blocks may have, unless it needs more chunks than
there are numbers. -/
theorem sizeRule_chunkHashes {s : Source} (hs : s.Steady) (hp : s.pos = 0) {n : UInt32}
    (hcount : Chunk.count s.bytes.size n.toNat ≤ Chunk.maxCount) :
    SizeRule n (.policy (.ofSize .zeroChunkSize n)) (s.chunkHashes n) := by
  refine .of_ite (a := (Chunk.split s.bytes n.toNat).map Chunk.hash) ?_
  by_cases hn : Framable n
  · rw [if_pos hn, chunkHashes_eq hs hp hn.checkSize, if_pos hcount]
  · rw [if_neg hn]
    exact (s.chunkHashes_eq_error_iff n).mpr hn

end Source

/-! The chunks that are cut. -/

/-- What holds of every value that a step brings holds of every value that is drawn, as long as the steps keep what
that takes. -/
theorem of_mem_draws {α σ : Type} {next : σ → Option α × σ} {I : σ → Prop} {P : α → Prop}
    (hstep : ∀ s, I s → I (next s).2 ∧ ∀ a, (next s).1 = some a → P a) {n : Nat} {s : σ} (hs : I s) {a : α}
    (ha : some a ∈ draws next n s) : P a := by
  induction n generalizing s with
  | zero => cases ha
  | succ n ih =>
    obtain ⟨hnext, hvalue⟩ := hstep s hs
    rcases List.mem_cons.mp ha with heq | hmem
    · exact hvalue a heq.symm
    · exact ih hnext hmem

/-- What is taken from a source is no more than was asked for. -/
theorem Source.size_of_take {s t : Source} {n : Nat} {b : Bytes} (h : s.take n = (.ok b, t)) : b.size ≤ n := by
  obtain ⟨k, hk, rfl, hsize, -⟩ := fill_eq_ok h
  rw [ByteArray.empty_append, hsize]
  exact hk

/-- A reader cuts chunks of its size at most. -/
theorem ChunkReader.size_of_pull {n : UInt32} (r : ChunkReader Source) (hr : r.size = n) :
    r.pull.2.size = n ∧ ∀ a, r.pull.1 = some a → ∀ c, a = .ok c → c.data.size ≤ n.toNat := by
  unfold pull
  split
  · exact ⟨hr, nofun⟩
  · split
    · exact ⟨hr, fun a ha c hc => by cases ha; cases hc⟩
    · rename_i b t htake
      split
      · exact ⟨hr, nofun⟩
      · split
        · refine ⟨hr, fun a ha c hc => ?_⟩
          cases ha
          cases hc
          rw [← hr]
          exact Source.size_of_take htake
        · exact ⟨hr, fun a ha c hc => by cases ha; cases hc⟩

theorem BodyReader.size_of_pull {n : Nat} (r : BodyReader) (hr : r.size = n) :
    r.pull.2.size = n ∧ ∀ c, r.pull.1 = some c → c.data.size ≤ n := by
  unfold pull
  split
  · exact ⟨hr, nofun⟩
  · refine ⟨hr, fun c hc => ?_⟩
    cases hc
    rw [ByteArray.size_extract]
    omega

theorem ChunkReader.inFrame_of_mem_draws {n : UInt32} (hn : Framable n) {s : Source} {r : ChunkReader Source}
    (hr : ChunkReader.new s n = .ok r) {m : Nat} {c : Chunk} (hc : some (.ok c) ∈ draws ChunkReader.pull m r) :
    c.InFrame := by
  simp only [ChunkReader.new, hn.checkSize, Except.map, Except.ok.injEq] at hr
  have hsize : r.size = n := by rw [← hr]
  have hle := of_mem_draws size_of_pull hsize hc c rfl
  exact Chunk.inFrame_of_le (Nat.le_trans hle (UInt32.le_iff_toNat_le.mp hn.2))

theorem BodyReader.inFrame_of_mem_draws {n : UInt32} (hn : Framable n) {body : Bytes} {r : BodyReader}
    (hr : BodyReader.new body n = .ok r) {m : Nat} {c : Chunk} (hc : some c ∈ draws BodyReader.pull m r) :
    c.InFrame := by
  have hsize : r.size = n.toNat := by
    rw [BodyReader.new, hn.checkSize] at hr
    simp only at hr
    split at hr
    · cases hr
    · rw [← Except.ok.inj hr]
  have hle := of_mem_draws size_of_pull hsize hc
  exact Chunk.inFrame_of_le (Nat.le_trans hle (UInt32.le_iff_toNat_le.mp hn.2))

/-! Headers and settings. -/
namespace Header

/-- Of a header that keeps every other rule, the block size decides. -/
theorem sizeRule_validate {h : Header} (he : h.endOfStream = false) {k : UInt32}
    (hk : ({ h with blockSize := k } : Header).validate = .ok ()) (n : UInt32) :
    SizeRule n (.ofSize .missingBlockSize n) ({ h with blockSize := n } : Header).validate := by
  obtain ⟨-, -, happlication, hsigned⟩ := (validate_eq_ok_iff (h := { h with blockSize := k }) he).mp hk
  refine .of_ite (a := ()) ?_
  simp only [validate, he, Bool.false_eq_true, if_false, if_neg happlication, if_neg hsigned, framable_iff,
    PolicyError.ofSize]
  by_cases hzero : n = 0
  · simp [hzero]
  · by_cases hlarge : maxBlockSize < n <;> simp [hzero, hlarge]

theorem build_of_checks {d : Draft} (hr : Fingerprint.check d.recipient = .ok ())
    (hs : Fingerprint.check d.sender = .ok ()) (hsigned : ¬ (d.signature.isSome ∧ d.sender = none)) :
    build d = d.header.validate.map fun _ => d.header := by
  simp only [build, bind, Except.bind, hr, hs, if_neg hsigned]
  rfl

/-- Of a draft that is otherwise right, the block size decides. -/
theorem sizeRule_build {d : Draft} (he : d.endOfStream = false) {k : UInt32} {h : Header}
    (hk : build { d with blockSize := some k } = .ok h) (n : UInt32) :
    SizeRule n (.ofSize .missingBlockSize n) (build { d with blockSize := some n }) := by
  obtain ⟨-, hr, hs, hv⟩ := of_build hk
  obtain ⟨-, -, -, hsigned⟩ := (validate_eq_ok_iff (h := Draft.header { d with blockSize := some k }) he).mp hv
  rw [build_of_checks (d := { d with blockSize := some n }) hr hs hsigned]
  exact (sizeRule_validate (h := Draft.header { d with blockSize := some k }) he hv n).map _

/-- The header that a record holds for these peers. -/
def Raw.header (r : Raw) (recipient sender : Option String) : Header where
  recipient := recipient
  sender := sender
  application := r.application
  signature := if r.signature.size = 0 then none else some r.signature
  sessionId := r.sessionId.toInt32
  blockSize := r.blockSize
  mime := if r.mime = "" then defaultMime else r.mime
  extension := cleanExtension r.extension
  userFilename := r.userFilename
  toDisk := r.toDisk
  endOfStream := r.endOfStream
  hashes := r.hashes

theorem ofRaw_of_peers {r : Raw} {recipient sender : Option String}
    (hr : Fingerprint.ofWire r.recipient = .ok recipient) (hs : Fingerprint.ofWire r.sender = .ok sender) :
    ofRaw r = (r.header recipient sender).validate.map fun _ => r.header recipient sender := by
  simp only [ofRaw, bind, Except.bind, hr, hs]
  rfl

/-- Of a record that is otherwise right, the block size decides. -/
theorem sizeRule_ofRaw {r : Raw} (he : r.endOfStream = false) {k : UInt32} {h : Header}
    (hk : ofRaw { r with blockSize := k } = .ok h) :
    SizeRule r.blockSize (.ofSize .missingBlockSize r.blockSize) (ofRaw r) := by
  simp only [ofRaw, bind, Except.bind] at hk
  split at hk
  · cases hk
  · rename_i recipient hr
    split at hk
    · cases hk
    · rename_i sender hs
      split at hk
      · cases hk
      · rename_i hv
        rw [ofRaw_of_peers hr hs]
        exact (sizeRule_validate (h := r.header recipient sender) he hv r.blockSize).map _

end Header

/-- Of a header in its frame that is otherwise right, the block size decides. -/
theorem Packet.sizeRule_parse {b payload : Bytes} {m : Nat} {r : Header.Raw}
    (hb : Frame.decode b = .ok (payload, m)) (hr : Header.Raw.decoder.run payload = .ok r)
    (he : r.endOfStream = false) {k : UInt32} {h : Header} (hk : Header.ofRaw { r with blockSize := k } = .ok h) :
    SizeRule r.blockSize (.policy (.ofSize .missingBlockSize r.blockSize)) (parse .blockHeader b) := by
  have hparse : parse .blockHeader b =
      ((Header.ofRaw r).mapError .policy).map fun h => (Packet.header h, m) := by
    simp only [parse, hb, ofPayload, hr, mapError_ok, bind, Except.bind]
    cases Header.ofRaw r <;> rfl
  rw [hparse]
  exact ((Header.sizeRule_ofRaw he hk).mapError _).map _

theorem Settings.sizeRule_validate (s : Settings) (n : UInt32) :
    SizeRule n (.invalid "transfer.block_size" (toString n)) ({ s with blockSize := n } : Settings).validate := by
  refine .of_ite (a := ()) ?_
  by_cases hzero : n = 0
  · simp [Settings.validate, framable_iff, hzero]
  · by_cases hlarge : maxBlockSize < n <;> simp [Settings.validate, framable_iff, hzero, hlarge]

/-- One bound rules block sizes, and it is exact. A chunk is encoded exactly if it is no longer than the largest block.
A reader of a source, the hashing of one, a body in memory, a builder of headers, a header that is taken in and
settings allow a size exactly if blocks may have it; where something else can be wrong as well, it is never the size
that is blamed. So one frame holds every chunk that is cut. -/
theorem block_sizes_agree (n : UInt32) :
    (∀ number data, (Packet.sequence (.ofChunk number data)).encode.map ByteArray.size =
      if data.size ≤ maxBlockSize.toNat then .ok (data.size + 13 + Frame.overhead)
      else .error (.framing (.tooLarge (data.size + 13)))) ∧
    (∀ (σ : Type) [ByteSource σ] (s : σ), SizeRule n (.ofSize .zeroChunkSize n) (ChunkReader.new s n)) ∧
    (∀ s : Source, (s.chunkHashes n = .error (.policy (.ofSize .zeroChunkSize n)) ↔ ¬ Framable n) ∧
      (s.Steady → s.pos = 0 → Chunk.count s.bytes.size n.toNat ≤ Chunk.maxCount →
        SizeRule n (.policy (.ofSize .zeroChunkSize n)) (s.chunkHashes n))) ∧
    (∀ body, Chunk.ofBody body n =
      if Framable n then
        if Chunk.count body.size n.toNat ≤ Chunk.maxCount then .ok (Chunk.split body n.toNat) else .error .tooManyChunks
      else .error (.ofSize .zeroChunkSize n)) ∧
    (∀ d : Header.Draft, d.endOfStream = false → (∃ k h, Header.build { d with blockSize := some k } = .ok h) →
      SizeRule n (.ofSize .missingBlockSize n) (Header.build { d with blockSize := some n })) ∧
    (∀ b payload m r, Frame.decode b = .ok (payload, m) → Header.Raw.decoder.run payload = .ok r →
      r.endOfStream = false → r.blockSize = n → (∃ k h, Header.ofRaw { r with blockSize := k } = .ok h) →
      SizeRule n (.policy (.ofSize .missingBlockSize n)) (Packet.parse .blockHeader b)) ∧
    (∀ s : Settings, SizeRule n (.invalid "transfer.block_size" (toString n))
      ({ s with blockSize := n } : Settings).validate) ∧
    (Framable n →
      (∀ (s : Source) (r : ChunkReader Source), ChunkReader.new s n = .ok r →
        ∀ m c, some (.ok c) ∈ draws ChunkReader.pull m r → c.InFrame) ∧
      ∀ (body : Bytes) (r : BodyReader), BodyReader.new body n = .ok r →
        ∀ m c, some c ∈ draws BodyReader.pull m r → c.InFrame) := by
  refine ⟨Packet.size_encode_ofChunk, fun σ _ s => ChunkReader.sizeRule_new s n, fun s => ⟨s.chunkHashes_eq_error_iff n,
    fun hs hp hcount => Source.sizeRule_chunkHashes hs hp hcount⟩, fun body => Chunk.ofBody_eq_ite body n, ?_, ?_,
    fun s => s.sizeRule_validate n, fun hn => ⟨fun s r hr m c hc => ChunkReader.inFrame_of_mem_draws hn hr hc,
      fun body r hr m c hc => BodyReader.inFrame_of_mem_draws hn hr hc⟩⟩
  · rintro d he ⟨k, h, hk⟩
    exact Header.sizeRule_build he hk n
  · rintro b payload m r hb hr he rfl ⟨k, h, hk⟩
    exact Packet.sizeRule_parse hb hr he hk

/-- At the largest size one byte is hashed and cut, and a header is built and comes out of its frame. -/
theorem block_sizes_agree_at_largest :
    let d : Header.Draft := { application := some "mail", blockSize := some 16777203 }
    Framable 16777203 ∧ (∃ hashes, (Source.ofBytes ⟨#[7]⟩).chunkHashes 16777203 = .ok hashes) ∧
      (∃ h, Header.build d = .ok h) ∧
      (∃ b p, (Packet.header d.header).encode = .ok b ∧ Packet.parse .blockHeader b = .ok p) ∧
      (⟨0, ⟨#[7]⟩⟩ : Chunk).InFrame := by
  intro d
  have hn : Framable 16777203 := by decide
  have hbuild : Header.build d = .ok d.header := rfl
  have hfits : d.header.encode.size ≤ Frame.maxLength := by decide
  obtain ⟨b, hb⟩ := Packet.encode_of_le (p := .header d.header) hfits
  have hdecode := Frame.decode_append (Packet.encode_eq_ok_iff.mp hb) ByteArray.empty
  rw [ByteArray.append_empty] at hdecode
  have hrun := (Header.reads_encode (Packet.lt_size_of_le_maxLength hfits)).run_eq
  obtain ⟨-, -, hhash, -, hdraft, hparsed, -, hchunks⟩ := block_sizes_agree 16777203
  have hsource := (hhash (.ofBytes ⟨#[7]⟩)).2 (Source.steady_ofBytes _) rfl (by decide)
  have hheader := hdraft d rfl ⟨16777203, d.header, hbuild⟩
  have hframe := hparsed b d.header.encode b.size d.header.raw hdecode hrun rfl rfl
    ⟨16777203, d.header.received, (Header.sound_of_build hbuild).ofRaw_raw⟩
  obtain ⟨p, hp⟩ := hframe.accepts_iff.mpr hn
  obtain ⟨hreader, -⟩ := hchunks hn
  exact ⟨hn, hsource.accepts_iff.mpr hn, hheader.accepts_iff.mpr hn, ⟨b, p, hb, hp⟩,
    hreader (.ofBytes ⟨#[7]⟩) ⟨.ofBytes ⟨#[7]⟩, 16777203, 0, false⟩ rfl 1 _ (List.mem_cons.mpr (.inl rfl))⟩

end ChunkRelay
