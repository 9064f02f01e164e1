import ChunkRelay.Proofs.PartFiles
import ChunkRelay.Storage.Part

/-! What a writer does to the tree with its part file. Writing changes that one file, and with the buffer behind it the
file holds all that was accepted; a commit or a drop takes it away, and a commit may leave its content at the target. -/
namespace ChunkRelay

namespace Disk

variable {d d' : Disk} {q : Place} {x : Option Entry}

/-- One tree is the other but for what is at one place. -/
structure Changed (d : Disk) (q : Place) (x : Option Entry) (d' : Disk) : Prop where
  workDir_eq : d'.workDir = d.workDir
  entry?_eq : ∀ p, d'.entry? p = if p = q then x else d.entry? p

theorem changed_append {c : Bytes} {m : Nat} (h : d.entry? q = some (.file c m)) (b : Bytes) :
    Changed d q (some (.file (c ++ b) m)) (d.append q b) := by
  refine ⟨rfl, fun p => ?_⟩
  have hq : q ≠ .root := by
    rintro rfl
    cases h
  have hget : d.entries.get? q = some (.file c m) := by simpa [Disk.entry?, hq] using h
  by_cases hp : p = .root
  · simp [Disk.entry?, hp, Ne.symm hq]
  · by_cases hpq : p = q
    · simp [Disk.entry?, append, SortedMap.get?_modify, hpq, hq, hget, Entry.append]
    · simp [Disk.entry?, append, SortedMap.get?_modify, hp, hpq]

theorem changed_set (hq : q ≠ .root) (e : Entry) : Changed d q (some e) (d.set q e) :=
  ⟨rfl, entry?_set hq d e⟩

theorem changed_remove (hq : q ≠ .root) : Changed d q none (d.remove q) := by
  refine ⟨rfl, fun p => ?_⟩
  by_cases hp : p = .root
  · simp [Disk.entry?, hp, Ne.symm hq]
  · simp [Disk.entry?, remove, SortedMap.get?_erase, hp]

/-- Where no directory comes or goes, every path leads where it led. -/
theorem Changed.sameDirectories (h : Changed d q x d') (hold : d.entry? q ≠ some .directory)
    (hnew : x ≠ some .directory) : SameDirectories d d' := by
  refine ⟨h.workDir_eq, fun p => ?_⟩
  rw [h.entry?_eq]
  split
  · rename_i hp
    rw [hp]
    exact iff_of_false hold hnew
  · rfl

theorem Changed.entry?_self (h : Changed d q x d') : d'.entry? q = x := by rw [h.entry?_eq, if_pos rfl]

theorem Changed.entry?_of_ne (h : Changed d q x d') {p : Place} (hp : p ≠ q) : d'.entry? p = d.entry? p := by
  rw [h.entry?_eq, if_neg hp]

/-- Of two changes at one place the second counts. -/
theorem Changed.trans {d'' : Disk} {y : Option Entry} (h : Changed d q x d') (h' : Changed d' q y d'') :
    Changed d q y d'' := by
  refine ⟨h'.workDir_eq.trans h.workDir_eq, fun p => ?_⟩
  rw [h'.entry?_eq, h.entry?_eq]
  split <;> rfl

end Disk

namespace PartWriter

variable {w : PartWriter} {s : FileStore} {a b : Bytes}

/-! The buffer. -/

/-- Some of what is held and given is written, in order, and the rest is held. -/
theorem write_eq (w : PartWriter) (b : Bytes) (s : FileStore) :
    ∃ out kept, out ++ kept = w.buffer ++ b ∧
      w.write b s = (⟨(s.writePart w.part out).1, kept⟩, (s.writePart w.part out).2) := by
  by_cases hroom : w.buffer.size + b.size > FilePipe.capacity
  · by_cases hsmall : b.size < FilePipe.capacity
    · exact ⟨w.buffer, ByteArray.empty ++ b, by rw [ByteArray.empty_append],
        by simp [write, makeRoom, hroom, hsmall, flush, ofPart]⟩
    · exact ⟨w.buffer ++ b, ByteArray.empty, ByteArray.append_empty,
        by simp [write, makeRoom, hroom, hsmall, flush, ofPart, FileStore.writePart_writePart]⟩
  · by_cases hsmall : b.size < FilePipe.capacity
    · exact ⟨ByteArray.empty, w.buffer ++ b, ByteArray.empty_append,
        by simp [write, makeRoom, hroom, hsmall, FileStore.writePart_empty]⟩
    · -- bytes that fill the buffer fit with what it holds only if it holds nothing
      have hempty : w.buffer = ByteArray.empty := ByteArray.size_eq_zero_iff.mp (by omega)
      exact ⟨b, w.buffer, by rw [hempty, ByteArray.append_empty, ByteArray.empty_append],
        by simp [write, makeRoom, hroom, hsmall]⟩

/-- All that is accepted is counted. -/
theorem written_write (w : PartWriter) (b : Bytes) (s : FileStore) :
    (w.write b s).1.written = w.written + b.size := by
  obtain ⟨out, kept, hbytes, hwrite⟩ := w.write_eq b s
  have hsize := congrArg ByteArray.size hbytes
  rw [ByteArray.size_append, ByteArray.size_append] at hsize
  rw [hwrite]
  simp only [written, FileStore.writePart]
  omega

/-- A write that is flushed is a write without a buffer. -/
theorem flush_write (part : PartFile) (b : Bytes) (s : FileStore) :
    ((ofPart part).write b s).1.flush ((ofPart part).write b s).2 =
      (ofPart (s.writePart part b).1, (s.writePart part b).2) := by
  obtain ⟨out, kept, hbytes, hwrite⟩ := (ofPart part).write_eq b s
  rw [hwrite, flush]
  simp only [FileStore.writePart_writePart, hbytes, ofPart, ByteArray.empty_append]

/-! The file. -/

/-- The part file is in the tree, and with the buffer behind it holds these bytes. -/
structure Fits (d : Disk) (w : PartWriter) (b : Bytes) : Prop where
  resolve_eq : d.resolve w.part.path = .ok ⟨w.part.place, true, false⟩
  holds : ∃ c, d.entry? w.part.place = some (.file c Disk.defaultMode) ∧ c ++ w.buffer = b

theorem Fits.place_ne (h : Fits s.disk w b) : w.part.place ≠ .root := by
  obtain ⟨c, hc, -⟩ := h.holds
  intro hroot
  rw [hroot] at hc
  cases hc

theorem Fits.not_directory (h : Fits s.disk w b) : s.disk.entry? w.part.place ≠ some .directory := by
  obtain ⟨c, hc, -⟩ := h.holds
  simp [hc]

/-- What happens elsewhere in the tree is nothing to a writer. -/
theorem Fits.of_same {d d' : Disk} (h : Fits d w b) (hsame : Disk.SameDirectories d d')
    (he : d'.entry? w.part.place = d.entry? w.part.place) : Fits d' w b :=
  ⟨hsame.resolve_eq h.resolve_eq, he ▸ h.holds⟩

/-- The writer has its file still, and has done nothing but write to it. -/
structure Puts (w : PartWriter) (s : FileStore) (b : Bytes) (w' : PartWriter) (s' : FileStore) : Prop where
  path_eq : w'.part.path = w.part.path
  target_eq : w'.part.target = w.part.target
  place_eq : w'.part.place = w.part.place
  owner_eq : s'.owner = s.owner
  begun_eq : s'.begun = s.begun
  changed : ∃ e, e ≠ .directory ∧ Disk.Changed s.disk w.part.place (some e) s'.disk
  fits : Fits s'.disk w' b

theorem Fits.puts (h : Fits s.disk w a) {out kept : Bytes} (hbytes : out ++ kept = w.buffer ++ b) :
    Puts w s (a ++ b) ⟨(s.writePart w.part out).1, kept⟩ (s.writePart w.part out).2 := by
  obtain ⟨c, hc, rfl⟩ := h.holds
  have hchanged := Disk.changed_append hc out
  have hsame := hchanged.sameDirectories h.not_directory (by simp)
  have hfits : Fits (s.writePart w.part out).2.disk ⟨(s.writePart w.part out).1, kept⟩ (c ++ w.buffer ++ b) := by
    refine ⟨hsame.resolve_eq h.resolve_eq, _, hchanged.entry?_self, ?_⟩
    rw [ByteArray.append_assoc, hbytes, ByteArray.append_assoc]
  exact ⟨rfl, rfl, rfl, rfl, rfl, ⟨_, by simp, hchanged⟩, hfits⟩

theorem Fits.write (h : Fits s.disk w a) (b : Bytes) : Puts w s (a ++ b) (w.write b s).1 (w.write b s).2 := by
  obtain ⟨out, kept, hbytes, hwrite⟩ := w.write_eq b s
  rw [hwrite]
  exact h.puts hbytes

theorem Fits.flush (h : Fits s.disk w a) : Puts w s a (w.flush s).1 (w.flush s).2 := by
  have hputs : Puts w s (a ++ ByteArray.empty) (w.flush s).1 (w.flush s).2 := h.puts rfl
  rwa [ByteArray.append_empty] at hputs

/-- All that was accepted is in the file once the buffer is empty. -/
theorem Fits.entry?_flush (h : Fits s.disk w a) :
    (w.flush s).2.disk.entry? w.part.place = some (.file a Disk.defaultMode) := by
  obtain ⟨c, hc, rfl⟩ := h.holds
  exact (Disk.changed_append hc w.buffer).entry?_self

/-- The store after a part file is gone from it. -/
structure Spends (w : PartWriter) (s s' : FileStore) : Prop where
  owner_eq : s'.owner = s.owner
  begun_eq : s'.begun = s.begun
  changed : Disk.Changed s.disk w.part.place none s'.disk

theorem Fits.dropPart (h : Fits s.disk w a) : Spends w s (s.dropPart w.part) := by
  obtain ⟨c, hc, -⟩ := h.holds
  have hdrop : s.dropPart w.part = { s with disk := s.disk.remove w.part.place } := by
    rw [FileStore.dropPart, Disk.unlink_set h.resolve_eq rfl rfl hc]
  rw [hdrop]
  exact ⟨rfl, rfl, Disk.changed_remove h.place_ne⟩

theorem Fits.drop (h : Fits s.disk w a) : Spends w s (w.drop s) := by
  have hflush := h.flush
  obtain ⟨e, -, hwrite⟩ := hflush.changed
  obtain ⟨howner, hbegun, hremove⟩ := hflush.fits.dropPart
  exact ⟨howner.trans hflush.owner_eq, hbegun.trans hflush.begun_eq, hwrite.trans (hflush.place_eq ▸ hremove)⟩

/-- What a commit comes to. The part file goes, and leaves its content at an absent target. -/
inductive Commits (w : PartWriter) (s : FileStore) (b : Bytes) : Except StorageError Commit → FileStore → Prop
  | written {t : Disk.Target} {s' : FileStore} : s.disk.resolve w.part.target = .ok t → s.disk.Absent t →
      Spends w (s.holding t.place b) s' → Commits w s b (.ok .written) s'
  | taken {t : Disk.Target} {s' : FileStore} : s.disk.resolve w.part.target = .ok t → s.disk.Taken t →
      Spends w s s' → Commits w s b (.ok .alreadyPresent) s'
  | failed {e : StorageError} {s' : FileStore} :
      (∀ t, s.disk.resolve w.part.target = .ok t → ¬ s.disk.Absent t ∧ ¬ s.disk.Taken t) →
      Spends w s s' → Commits w s b (.error e) s'

/-- The place of a part file is taken before a flush and after it. -/
theorem Fits.isSome_flush (h : Fits s.disk w a) (p : Place) :
    ((w.flush s).2.disk.entry? p).isSome = (s.disk.entry? p).isSome := by
  obtain ⟨c, hc, -⟩ := h.holds
  obtain ⟨e, -, hchanged⟩ := h.flush.changed
  rw [hchanged.entry?_eq]
  split
  · rename_i hp
    simp [hp, hc]
  · rfl

/-- The part file is removed from a tree that holds its content elsewhere as well. -/
theorem Fits.linked (h : Fits s.disk w b) {t : Disk.Target} (ht : s.disk.entry? t.place = none) :
    Spends w (s.holding t.place b) (((w.flush s).2.holding t.place b).dropPart (w.flush s).1.part) := by
  have hflush := h.flush
  obtain ⟨e, -, hwrite⟩ := hflush.changed
  have hroot := Disk.ne_root_of_free ht
  have hfree : (w.flush s).2.disk.entry? t.place = none := by
    rw [← Option.isNone_iff_eq_none, ← Option.not_isSome, h.isSome_flush, ht]
    rfl
  have hset : Disk.Changed (w.flush s).2.disk t.place _ ((w.flush s).2.holding t.place b).disk :=
    Disk.changed_set hroot (.file b Disk.defaultMode)
  have hplace : (w.flush s).1.part.place ≠ t.place := by
    intro he
    obtain ⟨c, hc, -⟩ := hflush.fits.holds
    rw [he, hfree] at hc
    cases hc
  have hfits : Fits ((w.flush s).2.holding t.place b).disk (w.flush s).1 b :=
    hflush.fits.of_same (Disk.sameDirectories_set hroot hfree b Disk.defaultMode) (hset.entry?_of_ne hplace)
  obtain ⟨howner, hbegun, hremove⟩ := hfits.dropPart
  refine ⟨howner.trans hflush.owner_eq, hbegun.trans hflush.begun_eq, ?_, fun p => ?_⟩
  · exact hremove.workDir_eq.trans hwrite.workDir_eq
  · have hheld : (s.holding t.place b).disk.entry? p = _ := Disk.entry?_set hroot s.disk (.file b Disk.defaultMode) p
    rw [hremove.entry?_eq, hset.entry?_eq, hwrite.entry?_eq, hheld, hflush.place_eq]
    split
    · rfl
    · rfl

/-- A link that fails for any other reason than that the target is there is an error. -/
theorem commit_of_error {x : IoError} (hx : x ≠ .exists)
    (h : (w.flush s).2.disk.link (w.flush s).1.part.path (w.flush s).1.part.target = .error x) :
    ∃ e, w.commit s = (.error e, (w.flush s).2.dropPart (w.flush s).1.part) := by
  refine ⟨.link (w.flush s).1.part.path (w.flush s).1.part.target x, ?_⟩
  cases x <;> first | exact absurd rfl hx | simp [PartWriter.commit, FileStore.commit, h]

theorem Fits.commit (h : Fits s.disk w b) : Commits w s b (w.commit s).1 (w.commit s).2 := by
  have hflush := h.flush
  have hdrop : Spends w s ((w.flush s).2.dropPart (w.flush s).1.part) := h.drop
  have hsame : Disk.SameDirectories s.disk (w.flush s).2.disk := by
    obtain ⟨e, he, hchanged⟩ := hflush.changed
    exact hchanged.sameDirectories h.not_directory (by simpa using he)
  have hstat : (w.flush s).2.disk.stat (w.flush s).1.part.path = .ok (.file b Disk.defaultMode) := by
    have he := h.entry?_flush
    rw [← hflush.place_eq] at he
    simp [Disk.stat, hflush.fits.resolve_eq, he]
  have hlink := Disk.link_eq hstat (w.flush s).1.part.target
  have hfailed {x : IoError} (hx : x ≠ .exists)
      (hl : (w.flush s).2.disk.link (w.flush s).1.part.path (w.flush s).1.part.target = .error x)
      (hneither : ∀ t, s.disk.resolve w.part.target = .ok t → ¬ s.disk.Absent t ∧ ¬ s.disk.Taken t) :
      Commits w s b (w.commit s).1 (w.commit s).2 := by
    obtain ⟨e, he⟩ := commit_of_error hx hl
    rw [he]
    exact .failed hneither hdrop
  cases hr : (w.flush s).2.disk.resolve (w.flush s).1.part.target with
  | error x =>
    rw [hr] at hlink
    refine hfailed (fun hx => Disk.resolve_ne_exists (hx ▸ hr)) hlink fun t ht => ?_
    rw [hflush.target_eq, hsame.resolve_eq ht] at hr
    cases hr
  | ok t =>
    have ht : s.disk.resolve w.part.target = .ok t := hsame.symm.resolve_eq (hflush.target_eq ▸ hr)
    -- the link is tried in the flushed tree, where the places that are taken are those taken before
    simp only [hr, h.isSome_flush] at hlink
    by_cases htaken : t.named = false ∨ (s.disk.entry? t.place).isSome = true
    · rw [if_pos htaken] at hlink
      simp only [PartWriter.commit, FileStore.commit, hlink]
      exact .taken ht htaken hdrop
    rw [if_neg htaken] at hlink
    cases hslash : t.slash with
    | true =>
      rw [if_pos hslash] at hlink
      refine hfailed (by simp) hlink fun u hu => ?_
      obtain rfl : t = u := Except.ok.inj (ht.symm.trans hu)
      exact ⟨fun habsent => by simp [habsent.2.1] at hslash, htaken⟩
    | false =>
      rw [hslash, if_neg Bool.false_ne_true] at hlink
      obtain ⟨hnamed, hfree⟩ := not_or.mp htaken
      have hnone : s.disk.entry? t.place = none := by simpa using hfree
      simp only [PartWriter.commit, FileStore.commit, hlink]
      exact .written ht ⟨by simpa using hnamed, hslash, hnone⟩ (h.linked hnone)

end PartWriter
end ChunkRelay
