import ChunkRelay.Proofs.Parsing

/-! Building a header anew from what a parsed header says. Parsing keeps every rule of building but one: it
lets an end of stream carry a signature that nobody is named for. -/
namespace ChunkRelay
namespace Header

variable {h : Header}

/-- A draft of all that a header says. -/
def toDraft (h : Header) : Draft where
  recipient := h.recipient
  sender := h.sender
  application := some h.application
  signature := h.signature
  sessionId := h.sessionId
  blockSize := some h.blockSize
  mime := some h.mime
  extension := some h.extension
  userFilename := h.userFilename
  toDisk := h.toDisk
  endOfStream := h.endOfStream
  hashes := h.hashes

theorem header_toDraft (hc : cleanExtension h.extension = h.extension) : h.toDraft.header = h := by
  have hextension : ((some h.extension).map cleanExtension).getD "" = h.extension := hc
  simp only [Draft.header, toDraft, hextension, Option.getD_some]

/-- A signature for which no sender is named. -/
def Unattributed (h : Header) : Prop := h.signature.isSome ∧ h.sender = none

instance (h : Header) : Decidable h.Unattributed := inferInstanceAs (Decidable (_ ∧ _))

/-- Only the end of a stream can have a signature without a sender. -/
theorem Sound.endOfStream_of_unattributed (hs : h.Sound) (hu : h.Unattributed) : h.endOfStream = true := by
  cases he : h.endOfStream with
  | true => rfl
  | false => exact absurd hu ((validate_eq_ok_iff he).mp hs.valid).2.2.2

/-- Building refuses a signature without a sender before it looks at anything but the fingerprints. -/
theorem build_of_unattributed {d : Draft} (hr : Fingerprint.check d.recipient = .ok ())
    (hs : Fingerprint.check d.sender = .ok ()) (hu : d.signature.isSome ∧ d.sender = none) :
    build d = .error .signatureWithoutSender := by
  simp only [build, bind, Except.bind, hr, hs, if_pos hu]
  rfl

/-- What keeps the rules is built again from its own fields, unless it has a signature without a sender. -/
theorem Sound.build_of_fields (hs : h.Sound) :
    build h.toDraft = if h.Unattributed then .error .signatureWithoutSender else .ok h := by
  have hself := header_toDraft hs.extension_clean
  by_cases hu : h.Unattributed
  · rw [if_pos hu]
    exact build_of_unattributed hs.recipient_ok hs.sender_ok hu
  · rw [if_neg hu]
    have hvalid : h.toDraft.header.validate = .ok () := by rw [hself]; exact hs.valid
    have hbuilt := build_of_rules (d := h.toDraft) hs.recipient_ok hs.sender_ok hu hvalid
    rwa [hself] at hbuilt

/-- What is parsed can be built from its own fields, and is the same header then, but for an end of stream
with a signature and no sender. Nothing else that is parsed has a signature without a sender. -/
theorem Parsed.build_toDraft (hp : h.Parsed) :
    (build h.toDraft = .ok h ↔ ¬ h.Unattributed) ∧
      (h.Unattributed → h.endOfStream = true ∧ build h.toDraft = .error .signatureWithoutSender) := by
  have hs := hp.canonical.sound
  rw [hs.build_of_fields]
  constructor
  · by_cases hu : h.Unattributed
    · simp [hu]
    · simp [hu]
  · intro hu
    exact ⟨hs.endOfStream_of_unattributed hu, if_pos hu⟩

/-- The end of a stream with one byte for a signature. -/
def signedTerminator : Header := { terminator with signature := some ⟨#[1]⟩ }

theorem canonical_signedTerminator : signedTerminator.Canonical where
  recipient_ok := rfl
  sender_ok := rfl
  signature_ne := by decide
  mime_ne := by decide
  extension_clean := rfl
  valid := rfl

theorem parsed_signedTerminator : signedTerminator.Parsed := canonical_signedTerminator.parsed (by decide)

theorem rebuild_of_signedTerminator :
    signedTerminator.Parsed ∧
      (build signedTerminator.toDraft = .ok signedTerminator ↔ ¬ signedTerminator.Unattributed) ∧
      (signedTerminator.Unattributed → signedTerminator.endOfStream = true ∧
        build signedTerminator.toDraft = .error .signatureWithoutSender) :=
  ⟨parsed_signedTerminator, parsed_signedTerminator.build_toDraft⟩

/-- Bytes from which an end of stream is parsed that cannot be built. -/
theorem unbuildable_of_signedTerminator :
    ∃ b n h, Packet.parse .blockHeader b = .ok (.header h, n) ∧ h.signature.isSome = true ∧ h.sender = none ∧
      build h.toDraft = .error .signatureWithoutSender := by
  obtain ⟨b, n, hp⟩ := parsed_signedTerminator
  exact ⟨b, n, signedTerminator, hp, rfl, rfl, rfl⟩

end Header
end ChunkRelay
