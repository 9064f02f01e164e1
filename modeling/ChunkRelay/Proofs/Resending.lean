import ChunkRelay.Proofs.Consistency
import ChunkRelay.Proofs.Datastores
import ChunkRelay.Proofs.Outbound

/-! Sending on what was taken in. A payload may arrive in chunks of any sizes, as long as they are the ones
that the header lists; whether it can be sent on depends on how it is cut at the block size. -/
namespace ChunkRelay

namespace Assembler

open PacketFeed

variable {σ δ : Type} [PacketFeed σ] [Datastore δ] {a b : Assembler δ} {h : Header}

/-- A payload that is reported as kept in memory was taken by the datastore. -/
theorem persisted_of_inline {l : List Sequence} {e : Option TransferError} {content : Bytes} {s : SessionState}
    (ht : Takes a h l e (.ok (.inline content)) b s) :
    h.endOfStream = false ∧ ∃ d, Datastore.persist (.ofHeader h (.inline content)) d = (.ok true, b.store) := by
  generalize hr : Except.ok (Outcome.inline content) = r at ht
  cases ht with
  | ending he => cases e <;> cases hr
  | known he hk => cases e <;> cases hr
  | @inline c _ _ he hk hx hd hsize hp =>
    subst hr
    refine ⟨he, c.store, ?_⟩
    unfold persistInline at hp
    split at hp
    · cases hp
    · rename_i d hpersist
      cases hp
      exact hpersist
    · cases hp
  | file he hk hx hbig hpart hcommit hp =>
    subst hr
    unfold persistFile at hp
    split at hp <;> cases hp
  | _ => cases hr

/-- A payload that is kept in memory can be sent on exactly if its header fits a frame and if it is cut, at
the block size of the header, into the chunks that the header lists. -/
theorem sends_iff_of_accepted {held : δ → Hash → Option Message} (hd : Datastore.Lawful held) (hm : h.Made)
    {packets : σ} {content : Bytes} {s : Session σ}
    (hass : a.assemble (Session.inbound h packets) = (.ok (.inline content), b, s)) :
    ∃ m, held b.store h.contentKey = some m ∧ ∀ (threshold : Nat) (last : Bool) (w : Sink), w.Unfailing →
      (m.Sends content threshold last w ↔
        h.encode.size ≤ Frame.maxLength ∧ (Source.ofBytes content).chunkHashes h.blockSize = .ok h.hashes) := by
  obtain ⟨l, e, v, hr⟩ := Verified.exists_runs (Verified.new h packets) rfl
  obtain ⟨he, d, hpersist⟩ := persisted_of_inline (takes_assemble a hr h.endOfStream _ _ _ hass)
  refine ⟨_, hd.held_of_persisted hpersist, fun threshold last w hw => ?_⟩
  exact hm.sound.sends_iff he hw

/-- Packets that are listed go into an empty datastore, if they are short enough. -/
theorem assemble_of_listed {a : Assembler MemoryStore} (ha : a.store = .empty) {q : List Sequence}
    (hq : Listed 0 h.hashes q) (he : h.endOfStream = false) (hdisk : h.toDisk = false)
    (hsize : (Sequence.content q).size ≤ a.threshold) :
    ∃ s, a.assemble (Session.inbound h (q.map .ok : List Delivery)) =
      (.ok (.inline (Sequence.content q)),
        { a with store := a.store.add (.ofHeader h (.inline (Sequence.content q))) }, s) := by
  have hr := Verified.drains_of_listed (drains_list q) hq
  have hnew : a.store.messages.get? h.contentKey = none := by
    rw [ha]
    rfl
  have hk : a.isKnown h.contentKey (a.files.pathFor h) = (.ok false, a) := by
    refine isKnown_false_iff.mpr ⟨rfl, hnew, ?_⟩
    rw [ha]
    exact List.not_mem_nil
  have hp : a.persistInline h (Sequence.content q) =
      (.ok (.inline (Sequence.content q)),
        { a with store := a.store.add (.ofHeader h (.inline (Sequence.content q))) }) := by
    rw [persistInline, MemoryStore.persist_of_new (m := .ofHeader h (.inline (Sequence.content q))) hnew]
  exact assemble_inline hr he hk hdisk hsize hp h.endOfStream

/-- A body of one chunk. -/
theorem sends_of_even :
    let a : Assembler MemoryStore := ⟨.empty, ⟨.ofWorkDir ⟨#["node"]⟩, ".", "user", 0, 0⟩, 16⟩
    let d : Header.Draft :=
      { application := some "chat", blockSize := some 4, hashes := [Hash.chunk 0 ⟨#[7, 8]⟩] }
    let q := [Sequence.ofChunk 0 ⟨#[7, 8]⟩]
    let taken := a.assemble (Session.inbound d.header (q.map .ok : List Delivery))
    taken.1 = .ok (.inline ⟨#[7, 8]⟩) ∧
      ∃ m, taken.2.1.store.messages.get? d.header.contentKey = some m ∧ m.Sends ⟨#[7, 8]⟩ 0 true Sink.empty := by
  intro a d q taken
  have hm : d.header.Made := .built (d := d) rfl
  have hlisted : Listed 0 d.header.hashes q := .cons rfl rfl .nil
  have hcontent : Sequence.content q = ⟨#[7, 8]⟩ := by decide
  obtain ⟨s, hass⟩ := assemble_of_listed (a := a) rfl hlisted rfl rfl (by rw [hcontent]; decide)
  rw [hcontent] at hass
  have hchunks : (Source.ofBytes ⟨#[7, 8]⟩).chunkHashes d.header.blockSize = .ok d.header.hashes :=
    Source.chunkHashes_of_le rfl (by decide) (by decide)
  obtain ⟨m, hheld, hsends⟩ := sends_iff_of_accepted MemoryStore.lawful hm hass
  have htaken : taken = _ := hass
  rw [htaken]
  exact ⟨rfl, m, hheld, (hsends 0 true Sink.empty ⟨rfl, rfl⟩).mpr ⟨by decide +kernel, hchunks⟩⟩

/-- Two chunks of one byte each, where a chunk has four. -/
theorem unsent_of_uneven :
    let a : Assembler MemoryStore := ⟨.empty, ⟨.ofWorkDir ⟨#["node"]⟩, ".", "user", 0, 0⟩, 16⟩
    let d : Header.Draft :=
      { application := some "chat", blockSize := some 4
        hashes := [Hash.chunk 0 ⟨#[7]⟩, Hash.chunk 1 ⟨#[8]⟩] }
    let q := [Sequence.ofChunk 0 ⟨#[7]⟩, Sequence.ofChunk 1 ⟨#[8]⟩]
    let taken := a.assemble (Session.inbound d.header (q.map .ok : List Delivery))
    taken.1 = .ok (.inline ⟨#[7, 8]⟩) ∧
      ∃ m, taken.2.1.store.messages.get? d.header.contentKey = some m ∧
        ¬ m.Sends ⟨#[7, 8]⟩ 16 true Sink.empty := by
  intro a d q taken
  have hm : d.header.Made := .built (d := d) rfl
  have hlisted : Listed 0 d.header.hashes q := .cons rfl rfl (.cons rfl rfl .nil)
  have hcontent : Sequence.content q = ⟨#[7, 8]⟩ := by decide
  obtain ⟨s, hass⟩ := assemble_of_listed (a := a) rfl hlisted rfl rfl (by rw [hcontent]; decide)
  rw [hcontent] at hass
  have hheld : (a.store.add (.ofHeader d.header (.inline ⟨#[7, 8]⟩))).messages.get? d.header.contentKey =
      some (.ofHeader d.header (.inline ⟨#[7, 8]⟩)) := by
    rw [MemoryStore.get?_add]
    exact if_pos rfl
  have htaken : taken = _ := hass
  rw [htaken]
  refine ⟨rfl, _, hheld, fun hsends => ?_⟩
  obtain ⟨-, hchunks⟩ := (hm.sound.sends_iff rfl ⟨rfl, rfl⟩).mp hsends
  -- the payload is one chunk at the block size, and the header lists two
  rw [Source.chunkHashes_of_le rfl (by decide) (by decide)] at hchunks
  exact absurd (congrArg List.length (Except.ok.inj hchunks)) (by decide)

end Assembler
end ChunkRelay
