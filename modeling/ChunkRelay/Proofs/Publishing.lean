import ChunkRelay.Proofs.Drafting
import ChunkRelay.Proofs.Reading

/-! Publishing by commits. Whatever is done with part files in whatever order, what was there before is left alone, and
for each target the first commit that finds it absent puts a file there for good. Part files are hidden as long as they
are open, and then gone. -/
namespace ChunkRelay
namespace PartTable

variable {files f : FileStore} {x y : Shelf} {s : PartTable} {k : Nat} {w v : PartWriter} {b : Bytes}

/-! What every event keeps. -/

/-- The part file that an act is for. -/
def Act.number? : Act → Option Nat
  | .create _ => none
  | .write k _ | .flush k | .commit k | .drop k => some k

/-- What a commit is answered: that it has put the bytes that the part file accepted at an absent target, that
something is at the target already, or that there is no getting to it. -/
inductive Settles (d : Disk) (x y : Shelf) (target : String) (b : Bytes) (e : Event) : Prop
  | written {t : Disk.Target} : d.resolve target = .ok t → e.found.Absent t →
      e.answer = .committed (.ok .written) → y.published = (x.publish t.place b).published →
      Settles d x y target b e
  | taken {t : Disk.Target} : d.resolve target = .ok t → e.found.Taken t →
      e.answer = .committed (.ok .alreadyPresent) → y.published = x.published → Settles d x y target b e
  | failed {cause : StorageError} : (∀ t, d.resolve target = .ok t → ¬ e.found.Absent t ∧ ¬ e.found.Taken t) →
      e.answer = .committed (.error cause) → y.published = x.published → Settles d x y target b e

/-- A part file is begun wherever its path can be made a new file, and refused with nothing done elsewhere. -/
def Begins (e : Event) (path : String) (k : Nat) : Prop :=
  match e.found.createNew path with
  | .ok _ => e.answer = .begun k
  | .error cause => e.answer = .refused (.createPart path cause) ∧ e.left = e.found

/-- What an event keeps, with the shelf before it and after it. -/
structure Careful (files : FileStore) (x y : Shelf) (e : Event) : Prop where
  workDir_eq : e.left.workDir = files.disk.workDir
  /-- What was there at the start is neither changed nor removed. -/
  untouched {p : Place} {a : Entry} : files.disk.entry? p = some a → e.left.entry? p = some a
  /-- What a commit has put at its target came to a free place and holds what the part file accepted. -/
  published {p : Place} {b : Bytes} : y.published p = some b →
    files.disk.entry? p = none ∧ e.left.entry? p = some (.file b Disk.defaultMode)
  kept {p : Place} {b : Bytes} : x.published p = some b → y.published p = some b
  /-- Anything else is an open part file under its hidden name, which may well be the target of another one. -/
  hidden {p : Place} {a : Entry} : e.left.entry? p = some a → y.entry? files.disk p = none →
    ∃ k target b c rest, y.drafts k = some (target, b) ∧ p.name? = some (files.hiddenName k target) ∧
      a = .file c Disk.defaultMode ∧ c ++ rest = b
  /-- What comes to a free place is the target of a commit, with what the part file accepted, or a new part file. -/
  appears {p : Place} {a : Entry} : e.found.entry? p = none → e.left.entry? p = some a →
    (∃ k target b t, e.act = .commit k ∧ e.answer = .committed (.ok .written) ∧ x.drafts k = some (target, b) ∧
      files.disk.resolve target = .ok t ∧ t.place = p ∧ a = .file b Disk.defaultMode) ∨
    ∃ k target, e.act = .create target ∧ e.answer = .begun k ∧ p.name? = some (files.hiddenName k target) ∧
      a = .file ByteArray.empty Disk.defaultMode
  /-- No part file is left when none is open. -/
  tidy : (∀ k, y.drafts k = none) → ∀ p, e.left.entry? p = y.entry? files.disk p
  commits {k : Nat} {target : String} {b : Bytes} : e.act = .commit k → x.drafts k = some (target, b) →
    Settles files.disk x y target b e
  /-- A target that a commit has got is there for every later one. -/
  later {k : Nat} {target : String} {b c : Bytes} {t : Disk.Target} : e.act = .commit k →
    x.drafts k = some (target, b) → files.disk.resolve target = .ok t → x.published t.place = some c →
    e.answer = .committed (.ok .alreadyPresent) ∧ e.left.entry? t.place = some (.file c Disk.defaultMode)
  flushes {k : Nat} {target : String} {b : Bytes} : e.act = .flush k → x.drafts k = some (target, b) →
    ∃ p, p.name? = some (files.hiddenName k target) ∧ e.left.entry? p = some (.file b Disk.defaultMode)
  creates {target : String} : e.act = .create target → ∃ k, x.drafts k = none ∧
    Begins e (Path.withFileName target (files.hiddenName k target)) k
  serves {k : Nat} : e.act.number? = some k → (x.drafts k).isSome → e.act = .commit k ∨ e.answer = .done
  gone {k : Nat} : e.act.number? = some k → x.drafts k = none → e.answer = .gone ∧ e.left = e.found

/-- A commit of an open part file is answered by what is at its target. -/
theorem Shows.settles (h : Shows files x s) {target : String} (hk : x.drafts k = some (target, b)) :
    Settles files.disk x (x.after files.disk (s.event (.commit k))) target b (s.event (.commit k)) := by
  obtain ⟨w, hw⟩ := h.isSome_iff.mp (by rw [hk]; rfl)
  obtain ⟨b', hb, hfits⟩ := (h.opened hw).draft
  obtain ⟨rfl, rfl⟩ := Prod.mk.inj (Option.some.inj (hk.symm.trans hb))
  have hcommit := hfits.commit
  have hevent : s.event (.commit k) =
      ⟨.commit k, .committed (w.commit s.files).1, s.files.disk, (w.commit s.files).2.disk⟩ := by
    simp only [event, PartTable.act, hw]
  rw [hevent]
  generalize w.commit s.files = r at hcommit
  obtain ⟨r, f⟩ := r
  cases hcommit with
  | written ht habsent hspends =>
    have ht := h.same.symm.resolve_eq ht
    exact .written ht habsent rfl (by simp only [Shelf.after, hb, ht, Shelf.close])
  | taken ht htaken hspends => exact .taken (h.same.symm.resolve_eq ht) htaken rfl rfl
  | failed hneither hspends => exact .failed (fun t ht => hneither t (h.same.resolve_eq ht)) rfl rfl

/-- Only a commit publishes. -/
theorem Shelf.published_after {d : Disk} {e : Event} (h : ∀ k, e.act ≠ .commit k) :
    (x.after d e).published = x.published := by
  obtain ⟨a, answer, found, left⟩ := e
  cases a with
  | commit k => exact absurd rfl (h k)
  | create target => cases answer <;> rfl
  | write k b =>
    cases answer with
    | done => simp only [Shelf.after]; split <;> rfl
    | _ => rfl
  | flush k => cases answer <;> rfl
  | drop k => cases answer <;> rfl

theorem act_of_gone {a : Act} (ha : a.number? = some k) (hk : s.parts.get? k = none) : s.act a = (.gone, s) := by
  cases a with
  | create target => cases ha
  | write j b | flush j | commit j | drop j =>
    cases ha
    simp only [PartTable.act, hk]

theorem begins_of_create (s : PartTable) (target : String) :
    Begins (s.event (.create target)) (Path.withFileName target (s.files.hiddenName s.files.begun target))
      s.files.begun := by
  have hname : s.files.hiddenName s.files.begun target =
      s.files.partName ((Path.fileName? target).getD "message") := rfl
  simp only [Begins, event, PartTable.act, FileStore.createPart, hname]
  generalize Path.withFileName target (s.files.partName ((Path.fileName? target).getD "message")) = path
  cases s.files.disk.createNew path with
  | error cause => exact ⟨rfl, rfl⟩
  | ok r => rfl

theorem act_of_open {a : Act} (ha : a.number? = some k) (hk : s.parts.get? k = some w) :
    a = .commit k ∨ (s.act a).1 = .done := by
  cases a with
  | create target => cases ha
  | write j b | flush j | drop j =>
    cases ha
    refine .inr ?_
    simp only [PartTable.act, hk]
  | commit j =>
    cases ha
    exact .inl rfl

/-- What a commit has published is never published again. -/
theorem Shows.published_after (h : Shows files x s) (a : Act) {p : Place} (hp : x.published p = some b) :
    (x.after files.disk (s.event a)).published p = some b := by
  by_cases hcommit : ∃ k, a = .commit k
  · obtain ⟨k, rfl⟩ := hcommit
    cases hk : x.drafts k with
    | none =>
      simpa only [event, act_of_gone (a := .commit k) rfl (h.get?_of_closed hk), Shelf.after] using hp
    | some draft =>
      obtain ⟨target, c⟩ := draft
      cases h.settles hk with
      | @written t ht habsent _ hpublished =>
        have hne : p ≠ t.place := by
          rintro rfl
          have hkept := h.kept (Shelf.entry?_of_published hp files.disk)
          exact absurd (hkept.symm.trans habsent.2.2) (by simp)
        rw [hpublished]
        simpa [Shelf.publish, hne] using hp
      | taken _ _ _ hpublished => rw [hpublished, hp]
      | failed _ _ hpublished => rw [hpublished, hp]
  · rw [Shelf.published_after fun k hk => hcommit ⟨k, hk⟩, hp]

/-- Writing to a part file and dropping it change the tree at its place alone. -/
theorem Shows.changed_of_open (h : Shows files x s) {a : Act} (ha : a.number? = some k)
    (hw : s.parts.get? k = some w) (hcommit : a ≠ .commit k) :
    ∃ y, s.files.disk.Changed w.part.place y (s.act a).2.files.disk := by
  obtain ⟨c, -, hfits⟩ := (h.opened hw).draft
  cases a with
  | create target => cases ha
  | write j b =>
    cases ha
    obtain ⟨y, -, hchanged⟩ := (hfits.write b).changed
    simp only [PartTable.act, hw]
    exact ⟨_, hchanged⟩
  | flush j =>
    cases ha
    obtain ⟨y, -, hchanged⟩ := hfits.flush.changed
    simp only [PartTable.act, hw]
    exact ⟨_, hchanged⟩
  | commit j =>
    cases ha
    exact absurd rfl hcommit
  | drop j =>
    cases ha
    simp only [PartTable.act, hw]
    exact ⟨_, hfits.drop.changed⟩

theorem Shows.appears_of_create (h : Shows files x s) {target : String} {p : Place} {e : Entry}
    (hp : s.files.disk.entry? p = none) (he : (s.act (.create target)).2.files.disk.entry? p = some e) :
    (∃ k, (s.act (.create target)).1 = .begun k ∧ p.name? = some (files.hiddenName k target)) ∧
      e = .file ByteArray.empty Disk.defaultMode := by
  rcases hc : s.files.createPart target with ⟨cause | part, f⟩
  · obtain rfl := FileStore.createPart_error hc
    simp only [PartTable.act, hc] at he
    exact absurd (hp.symm.trans he) (by simp)
  · have hname := FileStore.name?_of_createPart hc
    obtain ⟨rfl, t, hbegins⟩ := FileStore.begins_of_createPart hc
    rw [hbegins.place_eq] at hname
    simp only [PartTable.act, hc, hbegins.entry?_holding] at he ⊢
    split at he
    · rename_i hplace
      refine ⟨⟨_, rfl, ?_⟩, (Option.some.inj he).symm⟩
      rw [hplace, ← h.hiddenName_eq]
      exact hname
    · exact absurd (hp.symm.trans he) (by simp)

theorem Shows.appears_of_commit (h : Shows files x s) (hw : s.parts.get? k = some w) {p : Place} {e : Entry}
    (hp : s.files.disk.entry? p = none) (he : (s.act (.commit k)).2.files.disk.entry? p = some e) :
    ∃ target b t, (s.act (.commit k)).1 = .committed (.ok .written) ∧ x.drafts k = some (target, b) ∧
      files.disk.resolve target = .ok t ∧ t.place = p ∧ e = .file b Disk.defaultMode := by
  obtain ⟨b, hb, hfits⟩ := (h.opened hw).draft
  have hne := (h.ne_of_free hw hp).symm
  have hcommit := hfits.commit
  simp only [PartTable.act, hw] at he ⊢
  generalize w.commit s.files = r at hcommit he
  obtain ⟨r, f⟩ := r
  cases hcommit with
  | taken _ _ hspends | failed _ hspends =>
    exact absurd ((hspends.changed.entry?_of_ne hne).trans hp) (by simp [he])
  | @written t _ ht habsent hspends =>
    have hset : s.files.disk.Changed t.place _ (s.files.holding t.place b).disk :=
      Disk.changed_set (Disk.ne_root_of_free habsent.2.2) (.file b Disk.defaultMode)
    simp only [hspends.changed.entry?_of_ne hne, hset.entry?_eq] at he
    split at he
    · rename_i hplace
      exact ⟨_, b, t, rfl, hb, h.same.symm.resolve_eq ht, hplace.symm, (Option.some.inj he).symm⟩
    · exact absurd (hp.symm.trans he) (by simp)

/-- What comes to a free place comes by a commit or is a new part file. -/
theorem Shows.appears (h : Shows files x s) (a : Act) {p : Place} {e : Entry} (hp : s.files.disk.entry? p = none)
    (he : (s.act a).2.files.disk.entry? p = some e) :
    (∃ k target b t, a = .commit k ∧ (s.act a).1 = .committed (.ok .written) ∧ x.drafts k = some (target, b) ∧
      files.disk.resolve target = .ok t ∧ t.place = p ∧ e = .file b Disk.defaultMode) ∨
    ∃ k target, a = .create target ∧ (s.act a).1 = .begun k ∧ p.name? = some (files.hiddenName k target) ∧
      e = .file ByteArray.empty Disk.defaultMode := by
  cases hk : a.number? with
  | none =>
    cases a with
    | create target =>
      obtain ⟨⟨k, hbegun, hname⟩, hempty⟩ := h.appears_of_create hp he
      exact .inr ⟨k, target, rfl, hbegun, hname, hempty⟩
    | write | flush | commit | drop => cases hk
  | some k =>
    cases hw : s.parts.get? k with
    | none =>
      rw [act_of_gone hk hw] at he
      exact absurd (hp.symm.trans he) (by simp)
    | some w =>
      by_cases hcommit : a = .commit k
      · subst hcommit
        obtain ⟨target, b, t, hwritten⟩ := h.appears_of_commit hw hp he
        exact .inl ⟨k, target, b, t, rfl, hwritten⟩
      · obtain ⟨y, hchanged⟩ := h.changed_of_open hk hw hcommit
        rw [hchanged.entry?_of_ne (h.ne_of_free hw hp).symm, hp] at he
        cases he

theorem Shows.careful (h : Shows files x s) (a : Act) :
    Careful files x (x.after files.disk (s.event a)) (s.event a) := by
  have hafter := h.act a
  constructor
  case workDir_eq => exact hafter.same.workDir_eq
  case appears => exact fun hp ha => h.appears a hp ha
  case untouched => exact fun ha => hafter.kept (hafter.entry?_of_start ha)
  case published => exact fun hp => ⟨hafter.new hp, hafter.kept (Shelf.entry?_of_published hp _)⟩
  case kept => exact fun hp => h.published_after a hp
  case hidden => exact fun ha hp => hafter.exists_draft ha hp
  case tidy =>
    refine fun hnone p => hafter.elsewhere fun k w hw => ?_
    have hsome := hafter.isSome_iff.mpr ⟨w, hw⟩
    rw [hnone k] at hsome
    cases hsome
  case commits =>
    rintro k target b rfl hk
    exact h.settles hk
  case later =>
    rintro k target b c t rfl hk ht hc
    have hentry := h.kept (Shelf.entry?_of_published hc files.disk)
    refine ⟨?_, hafter.kept (Shelf.entry?_of_published (h.published_after _ hc) _)⟩
    cases h.settles hk with
    | @written u hu habsent =>
      obtain rfl : t = u := Except.ok.inj (ht.symm.trans hu)
      exact absurd (hentry.symm.trans habsent.2.2) (by simp)
    | taken _ _ hanswer => exact hanswer
    | failed hneither =>
      refine absurd (.inr ?_) (hneither t ht).2
      simp [event, hentry]
  case flushes =>
    rintro k target b rfl hk
    obtain ⟨w, hw⟩ := h.isSome_iff.mp (by rw [hk]; rfl)
    obtain ⟨b', hb, hfits⟩ := (h.opened hw).draft
    obtain ⟨rfl, rfl⟩ := Prod.mk.inj (Option.some.inj (hk.symm.trans hb))
    refine ⟨w.part.place, (h.opened hw).name_eq, ?_⟩
    simpa only [event, PartTable.act, hw] using hfits.entry?_flush
  case creates =>
    rintro target rfl
    refine ⟨s.files.begun, ?_, h.hiddenName_eq s.files.begun target ▸ s.begins_of_create target⟩
    cases hk : x.drafts s.files.begun with
    | none => rfl
    | some draft =>
      obtain ⟨w, hw⟩ := h.isSome_iff.mp (by rw [hk]; rfl)
      exact absurd (h.opened hw).begun (Nat.lt_irrefl _)
  case serves =>
    intro k hk hsome
    obtain ⟨w, hw⟩ := h.isSome_iff.mp hsome
    exact act_of_open hk hw
  case gone =>
    intro k hk hnone
    simp only [event] at hk ⊢
    rw [act_of_gone hk (h.get?_of_closed hnone)]
    exact ⟨rfl, rfl⟩

/-- Whatever is done with part files in whatever order, nothing that was there before is touched, the first commit to
an absent target puts the bytes of its part file there for good, and once no part file is open the tree is what it was
with those targets. -/
theorem careful_of_run (files : FileStore) (acts : List Act) :
    Throughout (fun past e _ => Careful files (.of files.disk past) (.of files.disk (past ++ [e])) e)
      (run acts (new files)) := by
  have hstart : Shows files (.of files.disk []) (new files) := Shows.new_start files
  refine ⟨Throughout.at_each_of_steps run event (fun s a => (s.act a).2) (fun _ => rfl) (fun _ _ _ => rfl)
    (fun past s => Shows files (.of files.disk past) s)
    (fun past e _ => Careful files (.of files.disk past) (.of files.disk (past ++ [e])) e)
    (fun h a => ?_) (fun h a _ => ?_) hstart acts⟩
  · rw [Shelf.of_append]
    exact h.act a
  · rw [Shelf.of_append]
    exact h.careful a

end PartTable
end ChunkRelay
