import ChunkRelay.Proofs.Declarations
import ChunkRelay.Proofs.Identities
import ChunkRelay.Proofs.Transport

/-! One form for every packet. Much that is parsed was never encoded: keys and hashes that are out of order
or said twice, data of a native packet, bytes behind the record. What is made of it takes no more room than
what it was read from, so it fits a frame again, and its encoding parses to itself. Only a header may grow,
by the media type that it did not name. -/
namespace ChunkRelay

theorem Utf8.toUTF8_of_decode {b : Bytes} {s : String} (h : decode b = .ok s) : s.toUTF8 = b := by
  unfold decode at h
  split at h
  · rename_i hs
    cases h
    exact toUTF8_of_fromUTF8? hs
  · cases h

namespace SortedMap

variable {κ ν : Type} [LT κ] [DecidableLT κ] [Std.Trichotomous (α := κ) (· < ·)]

/-- An entry that is put in takes its own room at most. -/
theorem size_insertEntry_le (f : κ × ν → Bytes) (k : κ) (v : ν) (l : List (κ × ν)) :
    (Bytes.concat ((insertEntry k v l).map f)).size ≤ (f (k, v)).size + (Bytes.concat (l.map f)).size := by
  induction l with
  | nil => simp [insertEntry]
  | cons a r ih =>
    obtain ⟨k', v'⟩ := a
    simp only [insertEntry]
    split
    · simp only [List.map_cons, Bytes.concat_cons, ByteArray.size_append]
      omega
    · split
      · simp only [List.map_cons, Bytes.concat_cons, ByteArray.size_append]
        omega
      · rename_i hge hle
        obtain rfl : k' = k := Std.Trichotomous.trichotomous k' k hge hle
        simp only [List.map_cons, Bytes.concat_cons, ByteArray.size_append]
        omega

variable [Trans (α := κ) (· < ·) (· < ·) (· < ·)]

theorem size_foldl_insert_le (f : κ × ν → Bytes) (m : SortedMap κ ν) (l : List (κ × ν)) :
    (Bytes.concat ((l.foldl (fun m a => m.insert a.1 a.2) m).entries.map f)).size ≤
      (Bytes.concat (m.entries.map f)).size + (Bytes.concat (l.map f)).size := by
  induction l generalizing m with
  | nil => exact Nat.le_refl _
  | cons a l ih =>
    have hinsert : (Bytes.concat ((m.insert a.1 a.2).entries.map f)).size ≤
        (f a).size + (Bytes.concat (m.entries.map f)).size := size_insertEntry_le f a.1 a.2 m.entries
    have hrest := ih (m.insert a.1 a.2)
    simp only [List.foldl_cons, List.map_cons, Bytes.concat_cons, ByteArray.size_append]
    omega

/-- Entries that are sorted and told apart take no more room. -/
theorem size_ofList_le (f : κ × ν → Bytes) (l : List (κ × ν)) :
    (Bytes.concat ((ofList l).entries.map f)).size ≤ (Bytes.concat (l.map f)).size := by
  have h := size_foldl_insert_le f empty l
  rwa [show (Bytes.concat ((empty : SortedMap κ ν).entries.map f)).size = 0 from rfl, Nat.zero_add] at h

end SortedMap

namespace Record

@[simp] theorem size_length (n : Nat) : (length n).size = 8 := Bytes.size_ofUInt64LE _

@[simp] theorem size_blob (b : Bytes) : (blob b).size = 8 + b.size := by
  rw [blob, ByteArray.size_append, size_length]

namespace Decoder

variable {α β : Type}

/-- Whatever the decoder gives, written by `f`, takes no more room than the bytes that it was read from. -/
def Within (d : Decoder α) (f : α → Bytes) : Prop :=
  ∀ b i a j, d b i = .ok (a, j) → i + (f a).size ≤ j ∧ j ≤ b.size

theorem run_eq_ok {d : Decoder α} {b : Bytes} {a : α} (h : d.run b = .ok a) : ∃ j, d b 0 = .ok (a, j) := by
  unfold run at h
  cases hread : d b 0 with
  | error e => simp [hread, Except.map] at h
  | ok r =>
    rw [hread] at h
    cases h
    exact ⟨r.2, rfl⟩

theorem Within.run_le {d : Decoder α} {f : α → Bytes} (hd : d.Within f) {b : Bytes} {a : α} (h : d.run b = .ok a) :
    (f a).size ≤ b.size := by
  obtain ⟨j, hread⟩ := run_eq_ok h
  obtain ⟨hle, hend⟩ := hd b 0 a j hread
  omega

theorem bind_eq_ok {d : Decoder α} {f : α → Decoder β} {b : Bytes} {i k : Nat} {c : β}
    (h : (d >>= f) b i = .ok (c, k)) : ∃ a j, d b i = .ok (a, j) ∧ f a b j = .ok (c, k) := by
  simp only [bind] at h
  split at h
  · cases h
  · rename_i a j hd
    exact ⟨a, j, hd, h⟩

theorem pure_eq_ok {a c : α} {b : Bytes} {i k : Nat} (h : (pure a : Decoder α) b i = .ok (c, k)) : c = a ∧ k = i := by
  obtain ⟨rfl, rfl⟩ := Prod.mk.inj (Except.ok.inj h)
  exact ⟨rfl, rfl⟩

theorem fixed_eq_ok {n : Nat} {f : Bytes → Nat → α} {b : Bytes} {i j : Nat} {a : α}
    (h : fixed n f b i = .ok (a, j)) : a = f b i ∧ j = i + n ∧ j ≤ b.size := by
  unfold fixed at h
  split at h
  · rename_i hle
    obtain ⟨rfl, rfl⟩ := Prod.mk.inj (Except.ok.inj h)
    exact ⟨rfl, rfl, hle⟩
  · cases h

theorem within_word : word.Within Record.word := by
  intro b i w j h
  obtain ⟨-, rfl, hend⟩ := fixed_eq_ok h
  rw [Record.word, Bytes.size_ofUInt32LE]
  exact ⟨Nat.le_refl _, hend⟩

theorem within_flag : flag.Within Record.flag := by
  intro b i v j h
  obtain ⟨x, k, hx, h⟩ := bind_eq_ok h
  obtain ⟨-, rfl, hend⟩ := fixed_eq_ok hx
  by_cases hfalse : x = 0
  · subst hfalse
    obtain ⟨rfl, rfl⟩ := pure_eq_ok h
    exact ⟨Nat.le_refl _, hend⟩
  by_cases htrue : x = 1
  · subst htrue
    obtain ⟨rfl, rfl⟩ := pure_eq_ok h
    exact ⟨Nat.le_refl _, hend⟩
  simp [fail] at h

theorem within_blob : blob.Within Record.blob := by
  intro b i x j h
  obtain ⟨n, k, hn, h⟩ := bind_eq_ok h
  obtain ⟨-, rfl, -⟩ := fixed_eq_ok hn
  obtain ⟨rfl, rfl, hend⟩ := fixed_eq_ok h
  have hsize := Bytes.size_slice_le b (i + 8) n
  rw [size_blob]
  omega

theorem within_text : text.Within Record.text := by
  intro b i s j h
  obtain ⟨x, k, hx, h⟩ := bind_eq_ok h
  have hblob := within_blob b i x k hx
  cases hdecode : Utf8.decode x with
  | error e => simp [hdecode, fail] at h
  | ok t =>
    rw [hdecode] at h
    obtain ⟨rfl, rfl⟩ := pure_eq_ok h
    rwa [← Utf8.toUTF8_of_decode hdecode] at hblob

theorem within_hash : hash.Within Hash.bytes := by
  intro b i a j h
  unfold hash at h
  split at h
  · rename_i hle
    obtain ⟨-, rfl⟩ := Prod.mk.inj (Except.ok.inj h)
    rw [a.size_eq]
    exact ⟨Nat.le_refl _, hle⟩
  · cases h

theorem Within.pair {d : Decoder α} {e : Decoder β} {f : α → Bytes} {g : β → Bytes} (hd : d.Within f)
    (he : e.Within g) : (pair d e).Within fun a => f a.1 ++ g a.2 := by
  intro b i a j h
  obtain ⟨x, k, hx, h⟩ := bind_eq_ok h
  obtain ⟨y, l, hy, h⟩ := bind_eq_ok h
  obtain ⟨rfl, rfl⟩ := pure_eq_ok h
  obtain ⟨hfirst, -⟩ := hd b i x k hx
  obtain ⟨hsecond, hend⟩ := he b k y j hy
  simp only [ByteArray.size_append]
  omega

theorem Within.times {d : Decoder α} {f : α → Bytes} (hd : d.Within f) {b : Bytes} {n i j : Nat}
    {acc l : List α} (h : times d n acc b i = .ok (l, j)) (hi : i ≤ b.size) :
    ∃ m, l = acc.reverse ++ m ∧ i + (Bytes.concat (m.map f)).size ≤ j ∧ j ≤ b.size := by
  induction n generalizing i acc with
  | zero =>
    obtain ⟨rfl, rfl⟩ := pure_eq_ok h
    exact ⟨[], (List.append_nil _).symm, Nat.le_refl _, hi⟩
  | succ n ih =>
    simp only [Decoder.times] at h
    split at h
    · cases h
    · rename_i a k ha
      obtain ⟨hfirst, hend⟩ := hd b i a k ha
      obtain ⟨m, rfl, hrest, hj⟩ := ih h hend
      refine ⟨a :: m, by rw [List.reverse_cons, List.append_assoc, List.singleton_append], ?_, hj⟩
      rw [List.map_cons, Bytes.concat_cons, ByteArray.size_append]
      omega

theorem Within.list {d : Decoder α} {f : α → Bytes} (hd : d.Within f) :
    (list d).Within fun l => Record.length l.length ++ Bytes.concat (l.map f) := by
  intro b i l j h
  obtain ⟨n, k, hn, h⟩ := bind_eq_ok h
  obtain ⟨-, rfl, hk⟩ := fixed_eq_ok hn
  obtain ⟨m, rfl, hrest, hj⟩ := hd.times h hk
  rw [ByteArray.size_append, size_length]
  exact ⟨by omega, hj⟩

end Decoder
end Record

open Record

namespace Sequence

/-- The data of a native packet are dropped. -/
theorem within_decoder : decoder.Within encode := by
  intro b i p j h
  obtain ⟨number, k, hnumber, h⟩ := Decoder.bind_eq_ok h
  obtain ⟨isNative, l, hnative, h⟩ := Decoder.bind_eq_ok h
  obtain ⟨data, m, hdata, h⟩ := Decoder.bind_eq_ok h
  obtain ⟨rfl, rfl⟩ := Decoder.pure_eq_ok h
  obtain ⟨h₁, -⟩ := Decoder.within_word b i number k hnumber
  obtain ⟨h₂, -⟩ := Decoder.within_flag b k isNative l hnative
  obtain ⟨h₃, hend⟩ := Decoder.within_blob b l data j hdata
  have hflag : (flag isNative).size = 1 := rfl
  refine ⟨?_, hend⟩
  rw [word, Bytes.size_ofUInt32LE] at h₁
  rw [size_blob] at h₃
  rw [size_encode]
  cases isNative with
  | false => simp only [bytes, Bool.false_eq_true, if_false]; omega
  | true => simp only [bytes, if_true, ByteArray.size_empty]; omega

end Sequence

namespace Declaration

theorem size_encode (d : Declaration) : d.encode.size = 9 + (Hash.concat d.hashes.keys).size := by
  have hflag : (flag d.optOut).size = 1 := rfl
  simp only [encode, Record.hashes, ByteArray.size_append, size_length, hflag]
  omega

/-- Hashes that are said again are dropped, and all of them behind an opt-out. -/
theorem within_decoder : decoder.Within encode := by
  intro b i d j h
  obtain ⟨optOut, k, hflag, h⟩ := Decoder.bind_eq_ok h
  obtain ⟨hashes, l, hhashes, h⟩ := Decoder.bind_eq_ok h
  obtain ⟨rfl, rfl⟩ := Decoder.pure_eq_ok h
  obtain ⟨h₁, -⟩ := Decoder.within_flag b i optOut k hflag
  obtain ⟨h₂, hend⟩ := Decoder.within_hash.list b k hashes j hhashes
  have hsize : (flag optOut).size = 1 := rfl
  refine ⟨?_, hend⟩
  rw [ByteArray.size_append, size_length] at h₂
  rw [size_encode]
  cases optOut with
  | true =>
    have hnone : (Hash.concat (ofRaw true hashes).hashes.keys).size = 0 := rfl
    omega
  | false =>
    have hset : (Hash.concat (setOf hashes).keys).size ≤ (Bytes.concat (hashes.map Hash.bytes)).size := by
      have h := SortedMap.size_ofList_le (fun a : Hash × Unit => a.1.bytes) (hashes.map (·, ()))
      rw [List.map_map] at h
      rw [Hash.concat, SortedMap.keys, List.map_map]
      exact h
    have hkeys : (ofRaw false hashes).hashes = setOf hashes := rfl
    rw [hkeys]
    omega

theorem sound_of_run {b : Bytes} {d : Declaration} (h : decoder.run b = .ok d) : d.Sound := by
  obtain ⟨j, h⟩ := Decoder.run_eq_ok h
  obtain ⟨optOut, k, -, h⟩ := Decoder.bind_eq_ok h
  obtain ⟨hashes, l, -, h⟩ := Decoder.bind_eq_ok h
  obtain ⟨rfl, -⟩ := Decoder.pure_eq_ok h
  exact sound_ofRaw optOut hashes

end Declaration

namespace IdentityPacket

/-- What the record of an identity packet holds, written as it stands. -/
def Raw.encode : Raw → Bytes
  | .live name keys signature => word 0 ++ (text name ++ (length keys.length ++
      Bytes.concat (keys.map keyRecord) ++ blob signature))
  | .ended => word 1

theorem Raw.within_decoder : Raw.decoder.Within Raw.encode := by
  intro b i r j h
  obtain ⟨tag, k, htag, h⟩ := Decoder.bind_eq_ok h
  obtain ⟨h₁, hk⟩ := Decoder.within_word b i tag k htag
  by_cases hlive : tag = 0
  · subst hlive
    obtain ⟨name, l, hname, h⟩ := Decoder.bind_eq_ok h
    obtain ⟨keys, m, hkeys, h⟩ := Decoder.bind_eq_ok h
    obtain ⟨signature, n, hsignature, h⟩ := Decoder.bind_eq_ok h
    obtain ⟨rfl, rfl⟩ := Decoder.pure_eq_ok h
    obtain ⟨h₂, -⟩ := Decoder.within_text b k name l hname
    obtain ⟨h₃, -⟩ := (Decoder.within_text.pair Decoder.within_blob).list b l keys m hkeys
    obtain ⟨h₄, hend⟩ := Decoder.within_blob b m signature j hsignature
    refine ⟨?_, hend⟩
    rw [ByteArray.size_append] at h₃
    have hkeys : (Bytes.concat (keys.map keyRecord)).size =
        (Bytes.concat (keys.map fun a => text a.1 ++ blob a.2)).size := rfl
    simp only [Raw.encode, ByteArray.size_append, hkeys]
    omega
  by_cases hended : tag = 1
  · subst hended
    obtain ⟨rfl, rfl⟩ := Decoder.pure_eq_ok h
    exact ⟨h₁, hk⟩
  simp [Decoder.fail] at h

/-- Keys that are named again are dropped. -/
theorem size_encode_le_of_ofRaw {r : Raw} {p : IdentityPacket} (h : ofRaw r = .ok p) :
    p.encode.size ≤ r.encode.size := by
  cases r with
  | ended =>
    cases h
    exact Nat.le_refl _
  | live name keys signature =>
    simp only [ofRaw] at h
    split at h
    · cases h
    · split at h
      · cases h
      · split at h
        · cases h
        · cases h
          have hkeys := SortedMap.size_ofList_le keyRecord keys
          have hsignature : ((if signature.size = 0 then none else some signature).getD ByteArray.empty).size ≤
              signature.size := by
            split
            · exact Nat.zero_le _
            · exact Nat.le_refl _
          rw [encode_live]
          simp only [Raw.encode, ByteArray.size_append, size_length, size_blob]
          omega

end IdentityPacket

namespace Packet

variable {t : PacketType} {b : Bytes} {p : Packet}

theorem decoded_eq_ok {α : Type} {d : Decoder α} {a : α}
    (h : ((d.run b).mapError fun e => PacketError.framing (.malformed e)) = .ok a) : d.run b = .ok a := by
  cases hrun : d.run b with
  | error e => simp [hrun] at h
  | ok c =>
    rw [hrun, mapError_ok] at h
    rw [Except.ok.inj h]

theorem ofPayload_sequence (h : ofPayload .blockSequence b = .ok p) :
    ∃ s, p = .sequence s ∧ Sequence.decoder.run b = .ok s := by
  simp only [ofPayload, bind, Except.bind] at h
  split at h
  · cases h
  · rename_i s hs
    cases h
    exact ⟨s, rfl, decoded_eq_ok hs⟩

theorem ofPayload_declare (h : ofPayload .declareHashes b = .ok p) :
    ∃ d, p = .declare d ∧ Declaration.decoder.run b = .ok d := by
  simp only [ofPayload, bind, Except.bind] at h
  split at h
  · cases h
  · rename_i d hd
    cases h
    exact ⟨d, rfl, decoded_eq_ok hd⟩

theorem ofPayload_identity (h : ofPayload .identity b = .ok p) :
    ∃ i r, p = .identity i ∧ IdentityPacket.Raw.decoder.run b = .ok r ∧ IdentityPacket.ofRaw r = .ok i := by
  simp only [ofPayload, bind, Except.bind] at h
  split at h
  · cases h
  · rename_i r hr
    split at h
    · cases h
    · rename_i i hi
      cases h
      exact ⟨i, r, rfl, decoded_eq_ok hr, hi⟩

/-- What is decoded takes no more room than it was decoded from, unless it is a header. -/
theorem size_payload_le (h : ofPayload t b = .ok p) (ht : t ≠ .blockHeader) : p.payload.size ≤ b.size := by
  cases t with
  | blockHeader => exact absurd rfl ht
  | blockSequence =>
    obtain ⟨s, rfl, hs⟩ := ofPayload_sequence h
    exact Sequence.within_decoder.run_le hs
  | identity =>
    obtain ⟨i, r, rfl, hr, hi⟩ := ofPayload_identity h
    exact Nat.le_trans (IdentityPacket.size_encode_le_of_ofRaw hi) (IdentityPacket.Raw.within_decoder.run_le hr)
  | declareHashes =>
    obtain ⟨d, rfl, hd⟩ := ofPayload_declare h
    exact Declaration.within_decoder.run_le hd

/-- What is decoded comes out of its own payload. -/
theorem faithful_of_ofPayload (h : ofPayload t b = .ok p) : p.Faithful := by
  cases t with
  | blockHeader =>
    cases p with
    | header header =>
      obtain ⟨r, hr⟩ := exists_raw_of_ofPayload h
      exact faithful_header (Header.canonical_of_ofRaw hr)
    | sequence _ | identity _ | declare _ => cases type_of_ofPayload h
  | blockSequence =>
    obtain ⟨s, rfl, -⟩ := ofPayload_sequence h
    exact faithful_sequence s
  | identity =>
    obtain ⟨i, r, rfl, -, hi⟩ := ofPayload_identity h
    exact faithful_identity fun j hj => Identity.sound_of_ofRaw (hj ▸ hi)
  | declareHashes =>
    obtain ⟨d, rfl, hd⟩ := ofPayload_declare h
    exact Packet.faithful_declare (Declaration.sound_of_run hd)

/-- What is parsed comes out of a payload. -/
theorem exists_payload_of_parse {n : Nat} (h : parse t b = .ok (p, n)) : ∃ payload, ofPayload t payload = .ok p := by
  cases hd : Frame.decode b with
  | error e =>
    rw [parse_of_decode_error hd] at h
    cases h
  | ok r =>
    obtain ⟨payload, k⟩ := r
    rw [parse_of_decode hd] at h
    cases hp : ofPayload t payload with
    | error e => simp [hp, Except.map] at h
    | ok q =>
      rw [hp] at h
      obtain ⟨rfl, -⟩ := Prod.mk.inj (Except.ok.inj h)
      exact ⟨payload, hp⟩

/-- What is parsed fits a frame again, unless it is a header that grew. Its encoding parses to the same packet
in full, and whatever the encoding parses to is encoded as it. -/
theorem parse_normalises {n : Nat} (h : parse t b = .ok (p, n)) :
    n ≤ b.size ∧ ((t = .blockHeader → p.payload.size ≤ Frame.maxLength) →
      ∃ c, p.encode = .ok c ∧ parse t c = .ok (p, c.size) ∧ ∀ q m, parse t c = .ok (q, m) → q.encode = .ok c) := by
  cases hdecode : Frame.decode b with
  | error e =>
    rw [parse_of_decode_error hdecode] at h
    cases h
  | ok r =>
    obtain ⟨payload, k⟩ := r
    rw [parse_of_decode hdecode] at h
    cases hpayload : ofPayload t payload with
    | error e => simp [hpayload, Except.map] at h
    | ok q =>
      simp only [hpayload, Except.map, Except.ok.injEq, Prod.mk.injEq] at h
      obtain ⟨rfl, rfl⟩ := h
      obtain ⟨hn, hmax⟩ := Frame.decode_eq_ok hdecode
      refine ⟨hn, fun hheader => ?_⟩
      have hsize : q.payload.size ≤ Frame.maxLength := by
        by_cases ht : t = .blockHeader
        · exact hheader ht
        · exact Nat.le_trans (size_payload_le hpayload ht) hmax
      obtain ⟨c, hc⟩ := encode_of_le hsize
      have hparse := parse_append (faithful_of_ofPayload hpayload) hc ByteArray.empty
      rw [ByteArray.append_empty, type_of_ofPayload hpayload] at hparse
      refine ⟨c, hc, hparse, fun q' m hq' => ?_⟩
      rw [hparse] at hq'
      obtain ⟨rfl, -⟩ := Prod.mk.inj (Except.ok.inj hq')
      exact hc

/-- The record of a native packet that carries data, and a byte behind it. -/
def spareNative : Bytes := word 7 ++ flag true ++ blob ⟨#[9]⟩ ++ ⟨#[0]⟩

theorem parse_normalises_spareNative : ∃ b c, Frame.encode spareNative = .ok b ∧
    parse .blockSequence b = .ok (.sequence (.native 7), b.size) ∧ (Packet.sequence (.native 7)).encode = .ok c ∧
      c.size < b.size ∧ parse .blockSequence c = .ok (.sequence (.native 7), c.size) := by
  have hframe := Frame.encode_eq_ok_iff.mpr ⟨(by decide : spareNative.size ≤ Frame.maxLength), rfl⟩
  have hdecode := Frame.decode_append hframe ByteArray.empty
  rw [ByteArray.append_empty] at hdecode
  have hpayload : ofPayload .blockSequence spareNative = .ok (.sequence (.native 7)) := rfl
  have hparse : parse .blockSequence _ = (ofPayload .blockSequence spareNative).map _ := parse_of_decode hdecode
  rw [hpayload] at hparse
  obtain ⟨-, hnormal⟩ := parse_normalises hparse
  obtain ⟨c, hc, hc', -⟩ := hnormal nofun
  refine ⟨_, c, hframe, hparse, hc, ?_, hc'⟩
  have hspare : spareNative.size = 15 := rfl
  have hwire : (Packet.sequence (.native 7)).wireSize = 22 := rfl
  have hsize := size_of_encode hc
  simp only [ByteArray.size_append, Bytes.size_ofUInt32LE]
  omega

end Packet
end ChunkRelay
