import ChunkRelay.Proofs.Framing

/-! Packets at the front of a byte string. What is parsed there is in canonical form, and everything in
canonical form that fits a frame is parsed from its own encoding, whatever follows it. A header that says
less than none by an empty text or signature is parsed as one that says none. -/
namespace ChunkRelay

theorem Utf8.toUTF8_of_fromUTF8? {b : Bytes} {s : String} (h : String.fromUTF8? b = some s) : s.toUTF8 = b := by
  unfold String.fromUTF8? at h
  split at h
  · rw [← Option.some.inj h]
    rfl
  · cases h

/-- A fingerprint off the wire is one that may be put on it. -/
theorem Fingerprint.check_of_ofWire {b : Bytes} {fp : Option String} (h : ofWire b = .ok fp) :
    check fp = .ok () := by
  unfold ofWire at h
  split at h
  · cases h
    rfl
  · rename_i hsentinel
    split at h
    · cases h
    · rename_i hsize
      split at h
      · rename_i s hs
        cases h
        have hb : s.toUTF8 = b := Utf8.toUTF8_of_fromUTF8? hs
        have hne : s ≠ "" := by
          rintro rfl
          exact hsize (by rw [← hb]; rfl)
        rw [check, if_neg hne, hb, if_neg hsentinel]
      · cases h

namespace Header

theorem canonical_of_ofRaw {r : Raw} {h : Header} (hr : ofRaw r = .ok h) : h.Canonical := by
  have hclean := clean_of_ofRaw hr
  simp only [ofRaw, bind, Except.bind] at hr
  split at hr
  · cases hr
  · rename_i recipient hrecipient
    split at hr
    · cases hr
    · rename_i sender hsender
      split at hr
      · cases hr
      · rename_i hvalid
        cases hr
        refine ⟨Fingerprint.check_of_ofWire hrecipient, Fingerprint.check_of_ofWire hsender, ?_, ?_, hclean, hvalid⟩
        · intro hs
          simp only at hs
          split at hs
          · cases hs
          · rename_i hsize
            exact hsize (by rw [Option.some.inj hs]; rfl)
        · simp only
          split
          · decide
          · assumption

theorem Made.sound {h : Header} (hm : h.Made) : h.Sound := by
  induction hm with
  | built hb => exact sound_of_build hb
  | decoded hr => exact (canonical_of_ofRaw hr).sound
  | terminator => exact canonical_terminator.sound
  | signed _ hs ih => exact ih.sign hs

end Header

namespace Packet

/-- A header that is decoded comes from a record. -/
theorem exists_raw_of_ofPayload {t : PacketType} {b : Bytes} {h : Header} (hp : ofPayload t b = .ok (.header h)) :
    ∃ r, Header.ofRaw r = .ok h := by
  cases t with
  | blockHeader =>
    simp only [ofPayload, bind, Except.bind] at hp
    split at hp
    · cases hp
    · split at hp
      · cases hp
      · rename_i raw _ _ h' hraw
        obtain rfl := Packet.header.inj (Except.ok.inj hp)
        cases hof : Header.ofRaw raw with
        | error e => simp [hof] at hraw
        | ok h'' =>
          rw [hof] at hraw
          cases hraw
          exact ⟨raw, hof⟩
  | blockSequence =>
    simp only [ofPayload, bind, Except.bind] at hp
    split at hp <;> cases hp
  | identity =>
    simp only [ofPayload, bind, Except.bind] at hp
    split at hp
    · cases hp
    · split at hp <;> cases hp
  | declareHashes =>
    simp only [ofPayload, bind, Except.bind] at hp
    split at hp <;> cases hp

/-- A header that is read is one that is decoded. -/
theorem exists_raw_of_readTyped {s t : Source} {h : Header} (hr : readTyped s = (.ok (.header h), t)) :
    ∃ r, Header.ofRaw r = .ok h := by
  unfold readTyped at hr
  split at hr
  · cases hr
  · split at hr
    · cases hr
    · unfold read at hr
      split at hr
      · cases hr
      · exact exists_raw_of_ofPayload (congrArg Prod.fst hr)

end Packet

namespace Header

/-- A header that can be parsed. -/
def Parsed (h : Header) : Prop := ∃ b n, Packet.parse .blockHeader b = .ok (.header h, n)

/-- What is parsed comes from a record. -/
theorem Parsed.exists_raw {h : Header} (hp : h.Parsed) : ∃ r, ofRaw r = .ok h := by
  obtain ⟨b, n, hp⟩ := hp
  simp only [Packet.parse, bind, Except.bind] at hp
  split at hp
  · cases hp
  · split at hp
    · cases hp
    · rename_i p hpayload
      obtain ⟨rfl, -⟩ := Prod.mk.inj (Except.ok.inj hp)
      exact Packet.exists_raw_of_ofPayload hpayload

theorem Parsed.made {h : Header} (hp : h.Parsed) : h.Made := by
  obtain ⟨r, hr⟩ := hp.exists_raw
  exact .decoded hr

theorem Parsed.canonical {h : Header} (hp : h.Parsed) : h.Canonical := by
  obtain ⟨r, hr⟩ := hp.exists_raw
  exact canonical_of_ofRaw hr

end Header

namespace Frame

/-- A frame is decoded to its payload and its own length, whatever stands behind it. -/
theorem decode_append {payload b : Bytes} (h : encode payload = .ok b) (r : Bytes) :
    decode (b ++ r) = .ok (payload, b.size) := by
  obtain ⟨hmax, rfl⟩ := encode_eq_ok_iff.mp h
  have hself := Bytes.holds_self (Bytes.ofUInt32LE (UInt32.ofNat payload.size) ++ payload ++
    Bytes.ofUInt32LE (Crc32.checksum payload) ++ r)
  have hlength := hself.left.left.left.uint32LE_eq
  have hpayload := hself.left.left.right.slice_eq
  have htrailer := hself.left.right.uint32LE_eq
  have hsize : (UInt32.ofNat payload.size).toNat = payload.size :=
    UInt32.toNat_ofNat_of_lt' (Nat.lt_of_le_of_lt hmax (by decide))
  simp only [ByteArray.size_append, Bytes.size_ofUInt32LE, Nat.zero_add] at hpayload htrailer
  simp only [decode, hlength, hsize, hpayload, htrailer, ByteArray.size_append, Bytes.size_ofUInt32LE, overhead]
  rw [if_neg (by omega), if_neg (by omega), if_neg (by omega)]
  simp only [checked, if_pos, Except.map, Except.ok.injEq, Prod.mk.injEq, true_and]
  omega

end Frame

namespace Packet

/-- Parsing the front of an encoding gives what its payload decodes to, with the length of the encoding. -/
theorem parse_of_payload {p q : Packet} (hp : ofPayload p.type p.payload = .ok q) {b : Bytes}
    (hb : p.encode = .ok b) (r : Bytes) : parse p.type (b ++ r) = .ok (q, b.size) := by
  simp only [parse, bind, Except.bind, Frame.decode_append (encode_eq_ok_iff.mp hb) r, mapError_ok, hp]
  rfl

/-- A packet is parsed from the front of its encoding. -/
theorem parse_append {p : Packet} (hp : p.Faithful) {b : Bytes} (hb : p.encode = .ok b) (r : Bytes) :
    parse p.type (b ++ r) = .ok (p, b.size) :=
  parse_of_payload (hp (Frame.encode_eq_ok_iff.mp (encode_eq_ok_iff.mp hb)).1) hb r

/-- A packet that fits a frame is parsed from its own encoding, whatever follows it. -/
theorem Faithful.parse_self {p : Packet} (hp : p.Faithful) (hfits : p.payload.size ≤ Frame.maxLength) :
    ∃ b, p.encode = .ok b ∧ ∀ r, parse p.type (b ++ r) = .ok (p, b.size) := by
  obtain ⟨b, hb⟩ := encode_of_le hfits
  exact ⟨b, hb, parse_append hp hb⟩

end Packet

theorem Header.Canonical.parsed {h : Header} (hc : h.Canonical) (hs : h.encode.size ≤ Frame.maxLength) :
    h.Parsed := by
  obtain ⟨b, hb⟩ := Packet.encode_of_le (p := .header h) hs
  have hp := Packet.parse_append (Packet.faithful_header hc) hb ByteArray.empty
  exact ⟨_, _, hp⟩

/-! Headers by their encoding. -/
namespace Header

/-- A signature covers the media type, so the two ends agree on what is signed only if they agree on it. -/
theorem received_signedPayload_eq_self_iff {h : Header} :
    h.received.signedPayload = h.signedPayload ↔ h.mime ≠ "" := by
  have hreceived : h.received.signedPayload = ({ h with mime := h.received.mime } : Header).signedPayload := rfl
  rw [hreceived]
  constructor
  · intro he hm
    have hsize := congrArg ByteArray.size he
    have hdefault : h.received.mime.toUTF8.size = 24 := by rw [received, if_pos hm]; rfl
    have hempty : h.mime.toUTF8.size = 0 := by rw [hm]; rfl
    simp only [signedPayload, Bytes.concat_cons, Bytes.concat_nil, ByteArray.size_append, hdefault, hempty] at hsize
    have hname : ({ h with mime := h.received.mime } : Header).filename = h.filename := rfl
    rw [hname] at hsize
    omega
  · intro hm
    rw [received_mime_eq_self_iff.mpr hm]

/-- A header is parsed from its encoding as it is received. That is the header itself exactly if it names a
media type and has no empty signature, and what a signature covers is the same exactly if it names a media
type. -/
theorem Made.parse_encode {h : Header} (hm : h.Made) (hs : h.encode.size ≤ Frame.maxLength) :
    ∃ b, (Packet.header h).encode = .ok b ∧
      (∀ r, Packet.parse .blockHeader (b ++ r) = .ok (.header h.received, b.size)) ∧
      (h.received = h ↔ h.mime ≠ "" ∧ h.signature ≠ some ByteArray.empty) ∧
      (h.received.signedPayload = h.signedPayload ↔ h.mime ≠ "") := by
  obtain ⟨b, hb⟩ := Packet.encode_of_le (p := .header h) hs
  have hpayload := Packet.ofPayload_header hm.sound.ofRaw_raw hs
  exact ⟨b, hb, Packet.parse_of_payload (p := .header h) hpayload hb, received_eq_self_iff,
    received_signedPayload_eq_self_iff⟩

/-- A header that was built with an empty signature comes back without one. -/
theorem parse_of_empty_signature :
    let h : Header := { sender := some "me", application := some "mail", blockSize := some 128
                        signature := some ByteArray.empty : Draft }.header
    h.Made ∧ h.encode.size ≤ Frame.maxLength ∧ ∃ b, (Packet.header h).encode = .ok b ∧
      (∀ r, Packet.parse .blockHeader (b ++ r) = .ok (.header h.received, b.size)) ∧
      (h.received = h ↔ h.mime ≠ "" ∧ h.signature ≠ some ByteArray.empty) ∧
      (h.received.signedPayload = h.signedPayload ↔ h.mime ≠ "") := by
  intro h
  have hm : h.Made := .built (d := { sender := some "me", application := some "mail", blockSize := some 128
                                     signature := some ByteArray.empty }) rfl
  have hs : h.encode.size ≤ Frame.maxLength := by decide
  exact ⟨hm, hs, hm.parse_encode hs⟩

/-- A header that is built with an empty media type comes back as another one, and what the sender may have
signed is not what the receiver checks. -/
theorem parse_of_no_mime :
    let d : Draft := { sender := some "me", application := some "mail", blockSize := some 128, mime := some "" }
    ∃ h b h', build d = .ok h ∧ (Packet.header h).encode = .ok b ∧
      Packet.parse .blockHeader b = .ok (.header h', b.size) ∧ h' ≠ h ∧ h'.signedPayload ≠ h.signedPayload := by
  intro d
  have hbuild : build d = .ok d.header := rfl
  have hs : d.header.encode.size ≤ Frame.maxLength := by decide
  obtain ⟨b, hb⟩ := Packet.encode_of_le (p := .header d.header) hs
  have hpayload := Packet.ofPayload_header (sound_of_build hbuild).ofRaw_raw hs
  have hparse := Packet.parse_of_payload (p := .header d.header) hpayload hb ByteArray.empty
  rw [ByteArray.append_empty] at hparse
  refine ⟨d.header, b, d.header.received, hbuild, hb, hparse, ?_, ?_⟩
  · exact fun he => (received_eq_self_iff.mp he).1 rfl
  · exact fun he => received_signedPayload_eq_self_iff.mp he rfl

end Header
end ChunkRelay
