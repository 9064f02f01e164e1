import ChunkRelay.Proofs.Outbound
import ChunkRelay.Proofs.Signing

/-! Forwarding. The record of a message keeps all that its header said, so the message is sent on under that header,
but for where its payload is to be kept. This is one byte of what a signature covers, and the signature stays good
exactly if the byte stays as it was. -/
namespace ChunkRelay
namespace Header

/-- A signature covers where the payload is to be kept. -/
theorem signedPayload_toDisk_eq_iff (h : Header) (d : Bool) :
    ({ h with toDisk := d } : Header).signedPayload = h.signedPayload ↔ d = h.toDisk := by
  constructor
  · intro he
    -- The parts have the same sizes on both sides, so equal bytes have equal parts.
    have hsizes : ({ h with toDisk := d } : Header).signed.parts.map ByteArray.size =
        h.signed.parts.map ByteArray.size := rfl
    have hparts := Bytes.eq_of_concat_eq hsizes he
    simp only [Signed.parts, List.cons.injEq, and_true] at hparts
    obtain ⟨-, -, -, -, -, -, hflag, -⟩ := hparts
    exact Record.flag_inj hflag
  · rintro rfl
    rfl

/-- From the record of a header that is no end of stream the header is built again. Sent on with a body from memory, a
message has this header, but for where the payload is to be kept, and what its signature covers is the same exactly if
the payload is to be kept where it was. -/
theorem Made.forward {h : Header} (hm : h.Made) (he : h.endOfStream = false) (body : Body) :
    build { (Message.ofHeader h body).draft with toDisk := h.toDisk } = .ok h ∧
      ∀ (threshold : Nat) (content : Bytes) (last : Bool) (s : Session (List Delivery)),
        Session.ofBytes (.ofHeader h body) content threshold last = .ok s →
          s.header = { h with toDisk := Session.storedOnDisk threshold content.size } ∧
            (s.header.signedPayload = h.signedPayload ↔ Session.storedOnDisk threshold content.size = h.toDisk) := by
  refine ⟨hm.sound.build_draft he body h.toDisk, fun threshold content last s hs => ?_⟩
  obtain ⟨-, rfl⟩ := (Session.ofBytes_eq_ok_iff hm.sound he).mp hs
  exact ⟨rfl, h.signedPayload_toDisk_eq_iff (Session.storedOnDisk threshold content.size)⟩

/-- Two bytes that are to be kept in memory, sent on with what their signature covers as long as the threshold is not
too low. -/
theorem forward_of_two_bytes :
    let d : Draft :=
      { sender := some "me", application := some "chat", blockSize := some 4, signature := some ⟨#[1]⟩
        extension := some ".txt", hashes := [Hash.chunk 0 ⟨#[7, 8]⟩] }
    let m := Message.ofHeader d.header (.file "kept")
    d.header.Parsed ∧ build { m.draft with toDisk := false } = .ok d.header ∧
      (∃ s, Session.ofBytes m ⟨#[7, 8]⟩ 16 true = .ok s ∧ s.header.signedPayload = d.header.signedPayload) ∧
      ∃ s, Session.ofBytes m ⟨#[7, 8]⟩ 1 true = .ok s ∧ s.header.signedPayload ≠ d.header.signedPayload := by
  intro d m
  have hbuild : build d = .ok d.header := rfl
  have hcanonical := canonical_of_build hbuild (by decide) (by decide)
  have hp : d.header.Parsed := hcanonical.parsed (by decide +kernel)
  obtain ⟨hsame, hsent⟩ := hp.made.forward rfl (.file "kept")
  have hsession (threshold : Nat) : ∃ s, Session.ofBytes m ⟨#[7, 8]⟩ threshold true = .ok s :=
    ⟨_, (Session.ofBytes_eq_ok_iff hp.made.sound rfl).mpr ⟨by decide, rfl⟩⟩
  obtain ⟨s, hs⟩ := hsession 16
  obtain ⟨t, ht⟩ := hsession 1
  exact ⟨hp, hsame, ⟨s, hs, (hsent _ _ _ _ hs).2.mpr (by decide)⟩,
    ⟨t, ht, fun he => absurd ((hsent _ _ _ _ ht).2.mp he) (by decide)⟩⟩

end Header
end ChunkRelay
