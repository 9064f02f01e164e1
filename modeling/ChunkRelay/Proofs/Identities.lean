import ChunkRelay.Proofs.Framing
import ChunkRelay.Proofs.Sorted

/-! Identities as packets. Every identity has a name and one public key under the reserved name, whatever
was done to it, and decoding its encoding gives the same identity again. -/
namespace ChunkRelay

theorem size_of_signWith {secret m sig : Bytes} (h : signWith secret m = .ok sig) : sig.size = signatureLength := by
  unfold signWith at h
  cases hk : Keypair.ofSecret secret with
  | error e =>
    rw [hk] at h
    cases h
  | ok k =>
    rw [hk] at h
    have hsig : k.sign m = sig := Except.ok.inj h
    rw [← hsig, Keypair.size_sign]
    rfl

namespace Identity

/-- What every identity keeps. -/
structure Sound (i : Identity) : Prop where
  name_ne : i.name ≠ ""
  publicKey_size : ∃ k, i.get? reservedKey = some k ∧ k.size = publicKeyLength
  signature_ne : i.signature ≠ some ByteArray.empty

theorem sound_of_new {name : String} {key : Bytes} {i : Identity} (h : new name key = .ok i) : i.Sound := by
  unfold new at h
  split at h
  · cases h
  · rename_i hname
    split at h
    · cases h
    · rename_i hkey
      cases h
      refine ⟨hname, ⟨key, ?_, Decidable.not_not.mp hkey⟩, by simp⟩
      rw [get?, SortedMap.get?_insert, if_pos rfl]

theorem insert_eq_ok_iff {i : Identity} {k : String} {v : Bytes} {r : Option Bytes × Identity} :
    i.insert k v = .ok r ↔ k ≠ reservedKey ∧ r = (i.get? k, { i with keys := i.keys.insert k v }) := by
  unfold insert
  by_cases hk : k = reservedKey <;> simp [hk, eq_comm]

theorem remove_eq_ok_iff {i : Identity} {k : String} {r : Option Bytes × Identity} :
    i.remove k = .ok r ↔ k ≠ reservedKey ∧ r = (i.get? k, { i with keys := i.keys.erase k }) := by
  unfold remove
  by_cases hk : k = reservedKey <;> simp [hk, eq_comm]

theorem sign_eq_ok_iff {i j : Identity} {secret : Bytes} :
    i.sign secret = .ok j ↔ ∃ sig, signWith secret i.signedPayload = .ok sig ∧ j = { i with signature := some sig } := by
  unfold sign
  cases signWith secret i.signedPayload with
  | error e => simp [Except.map]
  | ok sig => simp [Except.map, eq_comm]

variable {i j : Identity}

/-- Changes of other keys leave the public key where it is. -/
theorem Sound.withKeys {keys : KeyMap} (hs : i.Sound) (h : keys.get? reservedKey = i.keys.get? reservedKey) :
    ({ i with keys } : Identity).Sound := by
  obtain ⟨k, hk, hsize⟩ := hs.publicKey_size
  exact ⟨hs.name_ne, ⟨k, h.trans hk, hsize⟩, hs.signature_ne⟩

theorem Sound.insert {k : String} {v : Bytes} {old : Option Bytes} (hs : i.Sound)
    (h : i.insert k v = .ok (old, j)) : j.Sound := by
  obtain ⟨hk, hr⟩ := insert_eq_ok_iff.mp h
  rw [(Prod.mk.inj hr).2]
  exact hs.withKeys (by rw [SortedMap.get?_insert, if_neg hk.symm])

theorem Sound.remove {k : String} {old : Option Bytes} (hs : i.Sound) (h : i.remove k = .ok (old, j)) :
    j.Sound := by
  obtain ⟨hk, hr⟩ := remove_eq_ok_iff.mp h
  rw [(Prod.mk.inj hr).2]
  exact hs.withKeys (by rw [SortedMap.get?_erase, if_neg hk.symm])

theorem Sound.sign {secret : Bytes} (hs : i.Sound) (h : i.sign secret = .ok j) : j.Sound := by
  obtain ⟨sig, hsig, rfl⟩ := sign_eq_ok_iff.mp h
  refine ⟨hs.name_ne, hs.publicKey_size, fun he => ?_⟩
  have hsize := size_of_signWith hsig
  rw [Option.some.inj he] at hsize
  cases hsize

theorem sound_of_ofRaw {r : IdentityPacket.Raw} (h : IdentityPacket.ofRaw r = .ok (.live i)) : i.Sound := by
  unfold IdentityPacket.ofRaw at h
  split at h
  · cases h
  · simp only at h
    split at h
    · cases h
    · rename_i hname
      split at h
      · cases h
      · rename_i k hkey
        split at h
        · cases h
        · rename_i hsize
          cases h
          refine ⟨hname, ⟨k, hkey, Decidable.not_not.mp hsize⟩, fun he => ?_⟩
          simp only at he
          split at he
          · cases he
          · rename_i hsignature
            exact hsignature (by rw [Option.some.inj he]; rfl)

/-- The identities that there can be: those that are created or decoded, with keys set and removed and
signed at any time. -/
inductive Made : Identity → Prop
  | created {name : String} {key : Bytes} {i : Identity} : new name key = .ok i → Made i
  | decoded {r : IdentityPacket.Raw} {i : Identity} : IdentityPacket.ofRaw r = .ok (.live i) → Made i
  | inserted {i j : Identity} {k : String} {v : Bytes} {old : Option Bytes} :
      Made i → i.insert k v = .ok (old, j) → Made j
  | removed {i j : Identity} {k : String} {old : Option Bytes} : Made i → i.remove k = .ok (old, j) → Made j
  | signed {i j : Identity} {secret : Bytes} : Made i → i.sign secret = .ok j → Made j

theorem Made.sound (hm : i.Made) : i.Sound := by
  induction hm with
  | created h => exact sound_of_new h
  | decoded h => exact sound_of_ofRaw h
  | inserted _ h ih => exact ih.insert h
  | removed _ h ih => exact ih.remove h
  | signed _ h ih => exact ih.sign h

end Identity

namespace IdentityPacket

/-- The record of an identity packet. -/
def raw : IdentityPacket → Raw
  | .live i => .live i.name i.keys.entries (i.signature.getD ByteArray.empty)
  | .ended => .ended

theorem ofRaw_raw {i : Identity} (hs : i.Sound) : ofRaw (raw (.live i)) = .ok (.live i) := by
  obtain ⟨k, hk, hsize⟩ := hs.publicKey_size
  have hkey : i.keys.get? Identity.reservedKey = some k := hk
  have hsignature : (if (i.signature.getD ByteArray.empty).size = 0 then none
      else some (i.signature.getD ByteArray.empty)) = i.signature := by
    cases hsig : i.signature with
    | none => rfl
    | some sig =>
      refine if_neg fun h => hs.signature_ne ?_
      rw [hsig]
      exact congrArg some (ByteArray.size_eq_zero_iff.mp h)
  simp only [raw, ofRaw, SortedMap.ofList_entries, if_neg hs.name_ne, hkey, hsize, ne_eq, not_true_eq_false,
    if_false, hsignature]

/-- The record of one named key. -/
def keyRecord (a : String × Bytes) : Bytes := Record.text a.1 ++ Record.blob a.2

theorem encode_live (i : Identity) :
    encode (.live i) = Record.word 0 ++ (Record.text i.name ++ (Record.length i.keys.entries.length ++
      Bytes.concat (i.keys.entries.map keyRecord) ++ Record.blob (i.signature.getD ByteArray.empty))) := by
  simp only [encode, Bytes.concat_append, Bytes.concat_cons, Bytes.concat_nil, Bytes.concat_flatMap,
    ByteArray.append_empty, ByteArray.append_assoc]
  rfl

theorem reads_keyRecord {a : String × Bytes} (h : (keyRecord a).size < UInt64.size) :
    (Record.Decoder.pair .text .blob).Reads (keyRecord a) a := by
  simp only [keyRecord, Record.text, Record.blob, ByteArray.size_append] at h
  exact Record.Decoder.reads_pair (Record.Decoder.reads_text (by omega)) (Record.Decoder.reads_blob (by omega))

theorem reads_encode {p : IdentityPacket} (hs : p.encode.size < UInt64.size) :
    Raw.decoder.Reads p.encode p.raw := by
  cases p with
  | ended => exact (Record.Decoder.reads_word 1).bind_pure rfl
  | live i =>
    rw [encode_live] at hs ⊢
    -- no key, and no number of them, outgrows the packet
    have hkey : ∀ a ∈ i.keys.entries, (keyRecord a).size ≤ (Bytes.concat (i.keys.entries.map keyRecord)).size :=
      fun a ha => Bytes.size_le_size_concat (List.mem_map_of_mem ha)
    have hcount : i.keys.entries.length ≤ (Bytes.concat (i.keys.entries.map keyRecord)).size := by
      have h := Bytes.length_le_size_concat (l := i.keys.entries.map keyRecord) fun b hb => by
        obtain ⟨a, -, rfl⟩ := List.mem_map.mp hb
        simp only [keyRecord, Record.text, Record.blob, Record.length, ByteArray.size_append, Bytes.size_ofUInt64LE]
        omega
      rwa [List.length_map] at h
    simp only [Record.text, Record.blob, ByteArray.size_append] at hs
    refine (Record.Decoder.reads_word 0).bind ?_
    refine (Record.Decoder.reads_text (by omega)).bind ?_
    refine (Record.Decoder.reads_list (by omega) fun a ha => reads_keyRecord ?_).bind ?_
    · have h := hkey a ha
      omega
    · exact (Record.Decoder.reads_blob (by omega)).bind_pure rfl

end IdentityPacket

namespace Packet

theorem faithful_identity {p : IdentityPacket} (hp : ∀ i, p = .live i → i.Sound) : (Packet.identity p).Faithful := by
  intro hsize
  have hrun := (IdentityPacket.reads_encode (lt_size_of_le_maxLength hsize)).run_eq
  have hraw : IdentityPacket.ofRaw p.raw = .ok p := by
    cases p with
    | live i => exact IdentityPacket.ofRaw_raw (hp i rfl)
    | ended => rfl
  simp only [ofPayload, type, payload, hrun, mapError_ok, bind, Except.bind, hraw]
  rfl

end Packet
end ChunkRelay
