import ChunkRelay.Proofs.Calls
import ChunkRelay.Proofs.Consistency
import ChunkRelay.Proofs.Receiving

/-! Sessions that come in whole. A content that is new is kept, in memory or in a file, unless a step on files
fails, and the stream is left at what stands behind the session. -/
namespace ChunkRelay

open PacketFeed

/-- Whether a step on files failed, and neither the data nor a rule is to blame. -/
def TransferError.isFileFailure : TransferError → Bool
  | .storage (.unusableName _) => false
  | .storage _ | .io _ => true
  | _ => false

namespace FileStore

variable {files f : FileStore} {path : String} {part : PartFile} {x : StorageError}

theorem isFileFailure_of_createPart (h : files.createPart path = (.error x, f)) :
    (TransferError.storage x).isFileFailure = true := by
  unfold createPart at h
  simp only at h
  split at h
  · cases h
    rfl
  · cases h

theorem isFileFailure_of_commit (h : files.commit part = (.error x, f)) :
    (TransferError.storage x).isFileFailure = true := by
  unfold commit at h
  split at h
  · cases h
  · cases h
  · cases h
    rfl

end FileStore

namespace Assembler

section Packets

variable {σ δ : Type} [PacketFeed σ] [Datastore δ] {a c : Assembler δ} {o : Outcome} {h : Header} {packets : σ}
  {q : List Sequence} {v : Verified σ}

theorem packets_of_storeFile {path : String} {start : Bytes} {s s' u : Session σ} (hr : Drains s q s')
    (hstore : a.storeFile path start s = (.ok o, c, u)) : u.packets = s'.packets := by
  unfold storeFile at hstore
  rw [writeFile_of_runs hr] at hstore
  rcases hpart : a.files.createPart path with ⟨x | part, files⟩
  · simp [hpart] at hstore
  · rcases hcommit : (files.writePart part (start ++ Sequence.content q)).2.commit
        (files.writePart part (start ++ Sequence.content q)).1 with ⟨x | w, files'⟩
    · simp [hpart, hcommit] at hstore
    · simp only [hpart, hcommit, Prod.mk.injEq] at hstore
      rw [← hstore.2.2]

theorem packets_of_storeSession (hr : Drains (Verified.new h packets) q v) {last : Bool} {u : Session σ}
    (hstore : a.storeSession (Session.withPackets h packets last) = (.ok o, c, u)) : u.packets = v := by
  have hs : Drains (Session.withPackets h packets last) q ⟨h, v, last, .completed⟩ :=
    Session.runs_of_verified hr h last
  have hf := Session.length_lt_fuel hs
  have hheader : (Session.withPackets h packets last).header = h := rfl
  simp only [storeSession, hheader] at hstore
  rcases hk : a.isKnown h.contentKey (a.files.pathFor h) with ⟨x | known, b⟩
  · simp [hk] at hstore
  · cases known with
    | true =>
      simp only [hk, drain_of_runs hs hf, Option.elim, Prod.mk.injEq] at hstore
      rw [← hstore.2.2]
    | false =>
      simp only [hk] at hstore
      split at hstore
      · exact packets_of_storeFile hs hstore
      · have hzero : ByteArray.empty.size ≤ b.threshold := Nat.zero_le _
        rcases gather_of_runs hs hzero hf with ⟨-, hg⟩ | ⟨-, l₁, l₂, t, -, -, hr', hg⟩
        · simp only [hg, Option.elim, Prod.mk.injEq] at hstore
          rw [← hstore.2.2]
        · simp only [hg] at hstore
          exact packets_of_storeFile hr' hstore

/-- A session that is taken in has been pulled to its end. -/
theorem packets_of_assemble (hr : Drains (Verified.new h packets) q v) {last : Bool} {u : Session σ}
    (hass : a.assemble (Session.withPackets h packets last) = (.ok o, c, u)) : u.packets = v := by
  have hs : Drains (Session.withPackets h packets last) q ⟨h, v, last, .completed⟩ :=
    Session.runs_of_verified hr h last
  unfold assemble at hass
  split at hass
  · simp only [drain_of_runs hs (Session.length_lt_fuel hs), Option.elim, Prod.mk.injEq] at hass
    rw [← hass.2.2]
  · rcases hstore : a.storeSession (Session.withPackets h packets last) with ⟨x | y, b, s⟩
    · simp [hstore] at hass
    · simp only [hstore, Prod.mk.injEq] at hass
      rw [← hass.2.2, ← packets_of_storeSession hr hstore]
      exact Session.packets_settle ..

end Packets

variable {a c : Assembler MemoryStore} {h : Header} {content : Bytes} {r : Except TransferError Outcome}

/-- What a new content comes to: it is recorded with its bytes, it is recorded with its file, or a step on files
fails. -/
inductive Keeping (a : Assembler MemoryStore) (h : Header) (content : Bytes) :
    Except TransferError Outcome → Assembler MemoryStore → Prop
  | inline : h.toDisk = false → content.size ≤ a.threshold →
      Keeping a h content (.ok (.inline content))
        { a with store := a.store.add (.ofHeader h (.inline content)) }
  | file {part : PartFile} {f f' : FileStore} {w : Commit} : h.toDisk = true ∨ a.threshold < content.size →
      a.files.createPart (a.files.pathFor h) = (.ok part, f) →
      (f.writePart part content).2.commit (f.writePart part content).1 = (.ok w, f') →
      Keeping a h content (.ok (.file (a.files.pathFor h)))
        { a with store := a.store.add (.ofHeader h (.file (a.files.pathFor h))), files := f' }
  | failed {e : TransferError} {files : FileStore} : h.toDisk = true ∨ a.threshold < content.size →
      e.isFileFailure = true → Keeping a h content (.error e) { a with files }

/-- A content that stays in memory calls for no step on files. -/
theorem Keeping.of_short (hk : Keeping a h content r c) (hdisk : h.toDisk = false) (hsize : content.size ≤ a.threshold) :
    r = .ok (.inline content) ∧ c.files = a.files := by
  have hshort : ¬ (h.toDisk = true ∨ a.threshold < content.size) := by
    simp [hdisk, Nat.not_lt.mpr hsize]
  cases hk with
  | inline => exact ⟨rfl, rfl⟩
  | file hbig => exact absurd hbig hshort
  | failed hbig => exact absurd hbig hshort

theorem keeping_of_assemble {σ : Type} [PacketFeed σ] {packets : σ} {q : List Sequence} {v : Verified σ}
    (hr : Drains (Verified.new h packets) q v) (he : h.endOfStream = false)
    (hkey : a.store.messages.get? h.contentKey = none) (hpath : Path.names (a.files.pathFor h) ∉ a.store.paths)
    {last : Bool} {u : Session σ} (hass : a.assemble (Session.withPackets h packets last) = (r, c, u)) :
    Keeping a h (Sequence.content q) r c := by
  have hnew : a.isKnown h.contentKey (a.files.pathFor h) = (.ok false, a) :=
    isKnown_false_iff.mpr ⟨rfl, hkey, hpath⟩
  have ht := takes_assemble a hr last r c u hass
  generalize u.state = state at ht
  cases ht with
  | ending heos => exact absurd heos (by simp [he])
  | unanswered _ hk => cases hk.symm.trans hnew
  | known _ hk => cases hk.symm.trans hnew
  | incomplete _ _ hx => cases hx
  | inline _ hk _ hdisk hsize hp =>
    cases hk.symm.trans hnew
    rw [persistInline, MemoryStore.persist_of_new hkey] at hp
    cases hp
    exact .inline hdisk hsize
  | refused _ hk hbig hpart =>
    cases hk.symm.trans hnew
    exact .failed hbig (FileStore.isFileFailure_of_createPart hpart)
  | cut _ _ hx => cases hx
  | uncommitted _ hk _ hbig _ hcommit =>
    cases hk.symm.trans hnew
    exact .failed hbig (FileStore.isFileFailure_of_commit hcommit)
  | file _ hk _ hbig hpart hcommit hp =>
    cases hk.symm.trans hnew
    rw [persistFile, MemoryStore.persist_of_new hkey] at hp
    cases hp
    exact .file hbig hpart hcommit

/-- A session with a new content that stands next on a stream: it is kept unless a step on files fails, and what
stands behind it is next then. -/
theorem keeping_of_awaits {g : Header} (hr : Header.ofRaw g.raw = .ok h) (he : h.endOfStream = false)
    {q : List Sequence} (hq : Listed 0 h.hashes q) {i : Inbox} {l : List Packet} {rest : Bytes}
    (hi : i.Awaits 0 (.header g :: (q.map .sequence ++ l)) rest)
    (hkey : a.store.messages.get? h.contentKey = none) (hpath : Path.names (a.files.pathFor h) ∉ a.store.paths) :
    ∃ j r c u, i.nextHeader = (.ok (some h), j) ∧ a.assemble (Session.inbound h j) = (r, c, u) ∧
      Keeping a h (Sequence.content q) r c ∧ ∀ o, r = .ok o → u.packets.inner.Awaits 0 l rest := by
  obtain ⟨j, s, hnext, hdrain, -, hs'⟩ := Outgoing.receive_of_record hr he hq hi
  have hv : Drains (Verified.new h j) q s.packets := Session.drains_packets hdrain rfl
  rcases hass : a.assemble (Session.inbound h j) with ⟨r, c, u⟩
  refine ⟨j, r, c, u, hnext, hass, keeping_of_assemble hv he hkey hpath hass, ?_⟩
  rintro o rfl
  rwa [packets_of_assemble hv hass]

end Assembler
end ChunkRelay
