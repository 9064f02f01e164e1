import ChunkRelay.Proofs.Assembly
import ChunkRelay.Proofs.Datastores

/-! Transfers that fail. Whatever stops a session, and wherever it is stopped, the datastore holds what it
held and every file and every directory is as it was. -/
namespace ChunkRelay

namespace FileStore

variable {files f : FileStore} {path : String} {part : PartFile} {t : Disk.Target}

/-- A file that a commit put at its target goes again when it is deleted, and nothing of it is left. -/
theorem Begins.delete_committed (h : files.Begins path part t) {b : Bytes} {n : Nat}
    (hc : (files.spent.holding part.place b).commit { part with written := n } = (.ok .written, f)) :
    (f.delete path).2 = files.spent := by
  obtain ⟨u, hu, hfree, hnamed, hslash, rfl⟩ : ∃ u, files.disk.resolve path = .ok u ∧
      files.disk.entry? u.place = none ∧ u.named = true ∧ u.slash = false ∧ f = files.spent.holding u.place b := by
    rcases h.commit_cases hc with ⟨-, hw⟩ | ⟨hr, -⟩ | ⟨⟨x, hr⟩, -⟩
    · exact hw
    · cases hr
    · cases hr
  have hroot := Disk.ne_root_of_free hfree
  have hu' := (Disk.sameDirectories_set hroot hfree b Disk.defaultMode).resolve_eq hu
  have he : Disk.entry? (files.disk.set u.place (.file b Disk.defaultMode)) u.place =
      some (.file b Disk.defaultMode) := by
    rw [Disk.entry?_set hroot, if_pos rfl]
  have hremove := Disk.remove_set hroot hfree (.file b Disk.defaultMode)
  have hunlink := Disk.unlink_set hu' hnamed hslash he
  rw [hremove] at hunlink
  have hdisk : (files.spent.holding u.place b).disk = files.disk.set u.place (.file b Disk.defaultMode) := rfl
  simp only [delete, hdisk, hunlink]
  rfl

/-- What a commit put there is taken back, and what it found there stays. -/
theorem withdraw_committed (hpart : files.createPart path = (.ok part, f)) {f' : FileStore} {d : Bytes} {w : Commit}
    (hcommit : (f.writePart part d).2.commit (f.writePart part d).1 = (.ok w, f')) :
    (if w = .written then (f'.delete path).2 else f') = files.spent := by
  obtain ⟨rfl, t, hbegins⟩ := begins_of_createPart hpart
  rw [writePart_holding] at hcommit
  cases w with
  | written => rw [if_pos rfl, hbegins.delete_committed hcommit]
  | alreadyPresent =>
    rcases hbegins.commit_cases hcommit with ⟨hr, -⟩ | ⟨-, rfl, -⟩ | ⟨⟨y, hr⟩, -⟩
    · cases hr
    · rfl
    · cases hr

end FileStore

namespace Assembler

open PacketFeed

variable {σ δ ν : Type} [PacketFeed σ] {held : δ → ν}

/-- The datastore holds the same, and every file and every directory is as it was. -/
structure Unmoved (held : δ → ν) (a b : Assembler δ) : Prop where
  held_eq : held b.store = held a.store
  disk_eq : b.files.disk = a.files.disk
  cacheDir_eq : b.files.cacheDir = a.files.cacheDir

variable {a b c : Assembler δ} {h : Header}

theorem Unmoved.refl (a : Assembler δ) : Unmoved held a a := ⟨rfl, rfl, rfl⟩

theorem Unmoved.trans (hab : Unmoved held a b) (hbc : Unmoved held b c) : Unmoved held a c :=
  ⟨hbc.held_eq.trans hab.held_eq, hbc.disk_eq.trans hab.disk_eq, hbc.cacheDir_eq.trans hab.cacheDir_eq⟩

/-- A part file that left nothing has moved nothing. -/
theorem unmoved_spent (a : Assembler δ) : Unmoved held a { a with files := a.files.spent } := ⟨rfl, rfl, rfl⟩

/-- A part file that is given up at any point leaves nothing. -/
theorem unmoved_dropPart {part : PartFile} {files : FileStore} {path : String}
    (hpart : a.files.createPart path = (.ok part, files)) (d : Bytes) :
    Unmoved held a { a with files := (files.writePart part d).2.dropPart (files.writePart part d).1 } := by
  obtain ⟨rfl, t, hbegins⟩ := FileStore.begins_of_createPart hpart
  rw [FileStore.writePart_holding, hbegins.dropPart_eq]
  exact unmoved_spent a

/-- A commit that fails leaves nothing of the part file. -/
theorem unmoved_uncommitted {part : PartFile} {files files' : FileStore} {path : String} {x : StorageError}
    (hpart : a.files.createPart path = (.ok part, files)) {d : Bytes}
    (hcommit : (files.writePart part d).2.commit (files.writePart part d).1 = (.error x, files')) :
    Unmoved held a { a with files := files' } := by
  obtain ⟨rfl, t, hbegins⟩ := FileStore.begins_of_createPart hpart
  rw [FileStore.writePart_holding] at hcommit
  rcases hbegins.commit_cases hcommit with ⟨hr, -⟩ | ⟨hr, -⟩ | ⟨-, rfl, -⟩
  · cases hr
  · cases hr
  · exact unmoved_spent a

variable [Datastore δ]

/-- Looking for a message touches neither what is held nor the files. -/
theorem unmoved_isKnown (hd : Datastore.Guarded held) {k : Hash} {p : String} {r : Except TransferError Bool}
    (hk : a.isKnown k p = (r, b)) : Unmoved held a b := by
  have hhas := hd.held_hasKey k a.store
  have hcount := hd.held_countPath p (Datastore.hasKey k a.store).2
  unfold isKnown at hk
  split at hk
  · rename_i e d hd
    rw [hd] at hhas
    cases hk
    exact ⟨hhas, rfl, rfl⟩
  · rename_i d hd
    rw [hd] at hhas
    cases hk
    exact ⟨hhas, rfl, rfl⟩
  · rename_i d hd
    rw [hd] at hhas hcount
    split at hk <;> rename_i n d' hd' <;> rw [hd'] at hcount <;> cases hk <;>
      exact ⟨hcount.trans hhas, rfl, rfl⟩

theorem unmoved_persistInline (hd : Datastore.Guarded held) {content : Bytes} {x : TransferError}
    (hp : a.persistInline h content = (.error x, b)) : Unmoved held a b := by
  unfold persistInline at hp
  split at hp
  · rename_i e d hrejected
    cases hp
    exact ⟨hd.held_of_rejected hrejected, rfl, rfl⟩
  · cases hp
  · cases hp

/-- A committed file that cannot be recorded goes again, unless it was there before. -/
theorem unmoved_persistFile (hd : Datastore.Guarded held) {part : PartFile} {files files' : FileStore}
    {path : String} (hpart : a.files.createPart path = (.ok part, files)) {d : Bytes} {w : Commit}
    (hcommit : (files.writePart part d).2.commit (files.writePart part d).1 = (.ok w, files')) {x : TransferError}
    (hp : { a with files := files' }.persistFile h path w = (.error x, b)) : Unmoved held a b := by
  unfold persistFile at hp
  split at hp
  · cases hp
  · cases hp
  · rename_i e d' hrejected
    have hheld := hd.held_of_rejected hrejected
    simp only [FileStore.withdraw_committed hpart hcommit] at hp
    cases hp
    exact ⟨hheld, rfl, rfl⟩

/-- Whatever way a session is taken in, a failure moves nothing. -/
theorem unmoved_of_takes (hd : Datastore.Guarded held) {l : List Sequence} {e : Option TransferError}
    {x : TransferError} {s : SessionState} (ht : Takes a h l e (.error x) b s) : Unmoved held a b := by
  generalize hr : Except.error x = r at ht
  cases ht with
  | ending he => exact .refl a
  | unanswered he hk => exact unmoved_isKnown hd hk
  | known he hk => exact unmoved_isKnown hd hk
  | incomplete he hk hx hdisk hsize => exact unmoved_isKnown hd hk
  | inline he hk hx hdisk hsize hp =>
    subst hr
    exact (unmoved_isKnown hd hk).trans (unmoved_persistInline hd hp)
  | refused he hk hbig hpart =>
    rw [FileStore.createPart_error hpart]
    exact (unmoved_isKnown hd hk).trans (unmoved_spent _)
  | cut he hk hx hbig hpart => exact (unmoved_isKnown hd hk).trans (unmoved_dropPart hpart _)
  | uncommitted he hk hx hbig hpart hcommit =>
    exact (unmoved_isKnown hd hk).trans (unmoved_uncommitted hpart hcommit)
  | file he hk hx hbig hpart hcommit hp =>
    subst hr
    refine (unmoved_isKnown hd hk).trans (unmoved_persistFile hd ?_ hcommit hp)
    exact hpart

/-- What taking in a session may come to on a disk that may refuse any step: it goes as `assemble` has it,
no part file can be made, or one is made and given up with as much in it as was written by then. -/
inductive Attempts (a : Assembler δ) (s : Session σ) : Except TransferError Outcome → Assembler δ → Prop
  | granted {r : Except TransferError Outcome} {b : Assembler δ} {t : Session σ} :
      a.assemble s = (r, b, t) → Attempts a s r b
  | unmade {b : Assembler δ} (x : TransferError) :
      a.isKnown s.header.contentKey (a.files.pathFor s.header) = (.ok false, b) →
      Attempts a s (.error x) { b with files := b.files.spent }
  | givenUp {b : Assembler δ} {part : PartFile} {files : FileStore} (written : Bytes) (x : TransferError) :
      a.isKnown s.header.contentKey (a.files.pathFor s.header) = (.ok false, b) →
      b.files.createPart (a.files.pathFor s.header) = (.ok part, files) →
      Attempts a s (.error x)
        { b with files := (files.writePart part written).2.dropPart (files.writePart part written).1 }

/-- A transfer that fails changes nothing: not what the datastore holds, and no file and no directory. -/
theorem unmoved_of_attempts (hd : Datastore.Guarded held) {packets : σ} {x : TransferError}
    (ht : Attempts a (Session.inbound h packets) (.error x) b) : Unmoved held a b := by
  cases ht with
  | granted hass =>
    obtain ⟨l, e, v, hr⟩ := Verified.exists_runs (Verified.new h packets) rfl
    exact unmoved_of_takes hd (takes_assemble a hr h.endOfStream _ _ _ hass)
  | unmade x hk => exact (unmoved_isKnown hd hk).trans (unmoved_spent _)
  | givenUp written x hk hpart => exact (unmoved_isKnown hd hk).trans (unmoved_dropPart hpart written)

/-- A store that has no room for the record of a file. -/
theorem unmoved_of_full_store :
    let a : Assembler ConstantStore :=
      ⟨⟨.ok 0, .ok false, .error "disk full"⟩, ⟨.ofWorkDir ⟨#["node"]⟩, ".", "user", 0, 0⟩, 16⟩
    let h : Header :=
      { Header.terminator with
        application := "chat", blockSize := 4, toDisk := true, endOfStream := false
        hashes := [Hash.chunk 0 ⟨#[7, 8]⟩] }
    let taken := a.assemble (Session.inbound h ([.ok (Sequence.ofChunk 0 ⟨#[7, 8]⟩)] : List Delivery))
    (∃ x, taken.1 = .error x) ∧ Unmoved id a taken.2.1 := by
  intro a h taken
  have hfails : ∃ x, taken.1 = .error x := by
    obtain ⟨l, e, v, hr⟩ :=
      Verified.exists_runs (Verified.new h ([.ok (Sequence.ofChunk 0 ⟨#[7, 8]⟩)] : List Delivery)) rfl
    have ht := takes_assemble a hr h.endOfStream _ _ _ (show _ = (taken.1, taken.2.1, taken.2.2) from rfl)
    generalize taken.1 = r, taken.2.1 = b, taken.2.2.state = s at ht ⊢
    cases ht with
    | ending he => cases he
    | known he hk => cases hk
    | inline he hk hx hd hsize hp => cases hd
    | file he hk hx hbig hpart hcommit hp =>
      cases hk
      exact ⟨_, (congrArg Prod.fst hp).symm⟩
    | _ => exact ⟨_, rfl⟩
  obtain ⟨x, hx⟩ := hfails
  exact ⟨⟨x, hx⟩, unmoved_of_attempts (ConstantStore.guarded id) (.granted (Prod.ext hx rfl))⟩

end Assembler
end ChunkRelay
