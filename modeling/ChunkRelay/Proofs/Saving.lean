import ChunkRelay.KeyRing
import ChunkRelay.Proofs.Growth
import ChunkRelay.Proofs.PartWriters
import ChunkRelay.Proofs.Spelling

/-! Files that are written beside their place and moved there. The move succeeds wherever the place takes a file, and then
the old content is gone and nothing is left beside it; before the move nothing is done to the file itself. -/
namespace ChunkRelay

namespace Disk

variable {d d' : Disk} {path old new : String} {s t : Target}

/-- A path at which a file may be made or replaced. -/
structure TakesFile (d : Disk) (path : String) (t : Target) : Prop where
  resolve_eq : d.resolve path = .ok t
  named : t.named = true
  no_slash : t.slash = false
  not_directory : d.entry? t.place ≠ some .directory

theorem TakesFile.place_ne (h : d.TakesFile path t) : t.place ≠ .root := by
  intro hroot
  have hdir := h.not_directory
  rw [hroot] at hdir
  exact hdir rfl

theorem SameDirectories.takesFile (h : SameDirectories d d') (ht : d.TakesFile path t) : d'.TakesFile path t :=
  ⟨h.resolve_eq ht.resolve_eq, ht.named, ht.no_slash, fun hdir => ht.not_directory ((h.directory_iff _).mpr hdir)⟩

/-- A file can be opened for writing exactly where one may be. -/
theorem TakesFile.create_eq (h : d.TakesFile path t) :
    ∃ m, d.create path = .ok (t.place, d.set t.place (.file ByteArray.empty m)) := by
  obtain ⟨htarget, hlong⟩ := resolve_eq_ok_iff.mp h.resolve_eq
  rcases he : d.entry? t.place with - | ⟨c, m⟩ | -
  · exact ⟨defaultMode, by simp [create, htarget, h.named, h.no_slash, hlong, he]⟩
  · exact ⟨m, by simp [create, htarget, h.named, h.no_slash, hlong, he]⟩
  · exact absurd he h.not_directory

theorem takesFile_of_create {p : Place} (h : d.create path = .ok (p, d')) :
    ∃ t m, d.TakesFile path t ∧ t.place = p ∧ d' = d.set p (.file ByteArray.empty m) := by
  obtain ⟨t, m, ht, hslash, rfl, -, hdir, rfl⟩ := of_create h
  cases hnamed : t.named with
  | true => exact ⟨t, m, ⟨ht, hnamed, hslash, hdir⟩, rfl, rfl⟩
  | false => simp [create, (resolve_eq_ok_iff.mp ht).1, hnamed] at h

theorem setMode_set (d : Disk) (q : Place) (b : Bytes) (m n : Nat) :
    (d.set q (.file b m)).setMode q n = d.set q (.file b n) := by
  have hentries : (d.entries.insert q (.file b m)).modify q (·.setMode n) = d.entries.insert q (.file b n) := by
    refine SortedMap.ext_get? fun p => ?_
    rw [SortedMap.get?_modify, SortedMap.get?_insert, SortedMap.get?_insert, SortedMap.get?_insert]
    by_cases hp : p = q
    · simp [hp, Entry.setMode]
    · simp [hp]
  simp only [setMode, set, hentries]

/-- A tree after a move: what was at one place is at another, in place of what was there. -/
structure Moved (d : Disk) (p q : Place) (e : Entry) (d' : Disk) : Prop where
  workDir_eq : d'.workDir = d.workDir
  entry?_eq : ∀ r, d'.entry? r = if r = q then some e else if r = p then none else d.entry? r

theorem Moved.sameDirectories {p q : Place} {b : Bytes} {m : Nat} (h : Moved d p q (.file b m) d')
    (hp : d.entry? p ≠ some .directory) (hq : d.entry? q ≠ some .directory) : SameDirectories d d' := by
  refine ⟨h.workDir_eq, fun r => ?_⟩
  rw [h.entry?_eq]
  by_cases hrq : r = q
  · simp [hrq, hq]
  · rw [if_neg hrq]
    by_cases hrp : r = p
    · simp [hrp, hp]
    · rw [if_neg hrp]

theorem moved_remove_set {b : Bytes} {m : Nat} (hs : d.TakesFile old s) (ht : d.TakesFile new t)
    (he : d.entry? s.place = some (.file b m)) :
    Moved d s.place t.place (.file b m)
      (if s.place = t.place then d else (d.remove s.place).set t.place (.file b m)) := by
  by_cases hsame : s.place = t.place
  · rw [if_pos hsame]
    refine ⟨rfl, fun r => ?_⟩
    by_cases hr : r = t.place
    · rw [if_pos hr, hr, ← hsame, he]
    · rw [if_neg hr, if_neg (hsame ▸ hr)]
  · rw [if_neg hsame]
    refine ⟨rfl, fun r => ?_⟩
    rw [entry?_set ht.place_ne, (changed_remove hs.place_ne).entry?_eq]

/-- What decides a move once it is a file that is moved. -/
theorem rename_eq (hs : d.TakesFile old s) {b : Bytes} {m : Nat} (he : d.entry? s.place = some (.file b m))
    (ht : d.target new = .ok t) : d.rename old new =
      if t.named = false then .error (.other "Device or resource busy (os error 16)")
      else if t.isTooLong then .error .nameTooLong
      else if t.slash then .error .notDirectory
      else if d.entry? t.place = some .directory then .error .isDirectory
      else .ok (if s.place = t.place then d else (d.remove s.place).set t.place (.file b m)) := by
  obtain ⟨hstarget, hslong⟩ := resolve_eq_ok_iff.mp hs.resolve_eq
  simp only [rename, hstarget, ht, hs.named, hs.no_slash, hslong, he]
  rcases d.entry? t.place with - | - | - <;> simp

/-- What was at the place that is moved from does not count. -/
theorem Moved.of_changed {d₁ : Disk} {p q : Place} {x : Option Entry} {e : Entry} (hm : Moved d₁ p q e d')
    (h : Changed d p x d₁) : Moved d p q e d' := by
  refine ⟨hm.workDir_eq.trans h.workDir_eq, fun r => ?_⟩
  rw [hm.entry?_eq, h.entry?_eq]
  by_cases hrp : r = p
  · rw [if_pos hrp, if_pos hrp]
  · rw [if_neg hrp, if_neg hrp, if_neg hrp]

/-- A file is moved wherever one may be. -/
theorem rename_cases (hs : d.TakesFile old s) {b : Bytes} {m : Nat} (he : d.entry? s.place = some (.file b m))
    (new : String) :
    (∃ t d', d.TakesFile new t ∧ d.rename old new = .ok d' ∧ Moved d s.place t.place (.file b m) d') ∨
    ((∀ t, ¬ d.TakesFile new t) ∧ ∃ x, d.rename old new = .error x) := by
  cases htarget : d.target new with
  | error x =>
    obtain ⟨hstarget, -⟩ := resolve_eq_ok_iff.mp hs.resolve_eq
    refine .inr ⟨fun t ht => ?_, x, by simp [rename, hstarget, htarget]⟩
    cases htarget.symm.trans (resolve_eq_ok_iff.mp ht.resolve_eq).1
  | ok t =>
    rw [rename_eq hs he htarget]
    by_cases htakes : d.TakesFile new t
    · obtain ⟨-, hlong⟩ := resolve_eq_ok_iff.mp htakes.resolve_eq
      exact .inl ⟨t, _, htakes, by simp [htakes.named, hlong, htakes.no_slash, htakes.not_directory],
        moved_remove_set hs htakes he⟩
    · refine .inr ⟨fun u hu => ?_, ?_⟩
      · obtain rfl : t = u := Except.ok.inj (htarget.symm.trans (resolve_eq_ok_iff.mp hu.resolve_eq).1)
        exact htakes hu
      · split
        · exact ⟨_, rfl⟩
        split
        · exact ⟨_, rfl⟩
        split
        · exact ⟨_, rfl⟩
        split
        · exact ⟨_, rfl⟩
        rename_i hnamed hlong hslash hdir
        exact absurd ⟨resolve_eq_ok_iff.mpr ⟨htarget, by simpa using hlong⟩, by simpa using hnamed,
          by simpa using hslash, hdir⟩ htakes

theorem SameDirectories.of_set {q : Place} (hq : q ≠ .root) (h : d.entry? q ≠ some .directory) (b : Bytes) (m : Nat) :
    SameDirectories d (d.set q (.file b m)) :=
  (changed_set hq (.file b m)).sameDirectories h (by simp)

/-- A directory that is there need not be made. -/
theorem Leads.makeDirectories_eq {p : Place} (h : d.Leads path p) (hpath : path ≠ "") :
    d.makeDirectories path = (.ok (), d) := by
  obtain ⟨t, ht, rfl⟩ := h.resolves
  have hmake : d.makeDirectory path = .error .exists := by
    simp [makeDirectory, ht, h.directory]
  have hdir : d.isDirectory path = true := by simp [isDirectory, stat, ht, h.directory]
  rw [makeDirectories, if_neg hpath, hmake]
  simp [hdir]

theorem KeepsDirectories.leads {p : Place} (h : KeepsDirectories d d') (hl : d.Leads path p) : d'.Leads path p := by
  obtain ⟨t, ht, hp⟩ := hl.resolves
  exact ⟨⟨t, h.resolve_eq ht, hp⟩, h.directory p hl.directory⟩

end Disk

namespace FileKeyRing

variable {r r₁ r₂ : FileKeyRing} {m : SecretMap} {result : Except KeyError Unit}

/-- Where the file is written before it is moved. -/
def beside (r : FileKeyRing) : String := Path.withExtension r.path "tmp"

def content (m : SecretMap) : Bytes := (JsonObject.write m.entries).toUTF8

/-! The directory of the file. -/

theorem branches_makeParent (r : FileKeyRing) :
    r.makeParent.2.path = r.path ∧ Disk.Branches r.disk r.makeParent.2.disk := by
  unfold makeParent
  split
  · exact ⟨rfl, .refl _⟩
  · split
    · exact ⟨rfl, .refl _⟩
    · exact ⟨rfl, Disk.branches_makeDirectories ..⟩

/-- Once it is made, it is there, and stays there as long as directories do. -/
theorem makeParent_again (h : r.makeParent = (.ok (), r₁)) (hpath : r₂.path = r.path)
    (hkeeps : Disk.KeepsDirectories r₁.disk r₂.disk) : r₂.makeParent = (.ok (), r₂) := by
  obtain ⟨d₂, q⟩ := r₂
  obtain rfl : q = r.path := hpath
  unfold makeParent at h ⊢
  split
  · rfl
  · rename_i parent hparent
    simp only [hparent] at h
    split
    · rfl
    · rename_i hne
      rw [if_neg hne] at h
      rcases hmake : r.disk.makeDirectories parent with ⟨e | u, d⟩
      · rw [hmake] at h
        cases h
      · rw [hmake] at h
        cases h
        obtain ⟨p, hleads⟩ := Disk.leads_of_makeDirectories hne hmake
        simp only [(hkeeps.leads hleads).makeDirectories_eq hne]
        rfl

/-! Saving. -/

/-- What saving may come to: the directory cannot be made, or no file can be made beside the place, or it cannot be moved
there, or the place has the new content and nothing is left beside it. -/
inductive Saves (r : FileKeyRing) (m : SecretMap) : Except KeyError Unit → FileKeyRing → Prop
  | noParent {e : KeyError} {r₁ : FileKeyRing} : r.makeParent = (.error e, r₁) → Saves r m (.error e) r₁
  | noFile {e : KeyError} {r₁ : FileKeyRing} : r.makeParent = (.ok (), r₁) →
      (∀ s, ¬ r₁.disk.TakesFile r.beside s) → Saves r m (.error e) r₁
  | unmoved {e : KeyError} {r₁ : FileKeyRing} {s : Disk.Target} : r.makeParent = (.ok (), r₁) →
      r₁.disk.TakesFile r.beside s → (∀ t, ¬ r₁.disk.TakesFile r.path t) →
      Saves r m (.error e) ⟨r₁.disk.set s.place (.file (content m) mode), r.path⟩
  | moved {r₁ : FileKeyRing} {s t : Disk.Target} {d : Disk} : r.makeParent = (.ok (), r₁) →
      r₁.disk.TakesFile r.beside s → r₁.disk.TakesFile r.path t →
      Disk.Moved r₁.disk s.place t.place (.file (content m) mode) d → Saves r m (.ok ()) ⟨d, r.path⟩

theorem saves (r : FileKeyRing) (m : SecretMap) : Saves r m (r.save m).1 (r.save m).2 := by
  unfold save
  rcases hmake : r.makeParent with ⟨e | ⟨⟩, r₁⟩
  · exact .noParent hmake
  have hpath : r₁.path = r.path := (congrArg (·.2.path) hmake).symm.trans (branches_makeParent r).1
  simp only [hpath]
  rcases hcreate : r₁.disk.create (Path.withExtension r.path "tmp") with x | ⟨p, d⟩
  · refine .noFile hmake fun s hs => ?_
    obtain ⟨n, heq⟩ := hs.create_eq
    cases hcreate.symm.trans heq
  · obtain ⟨s, n, hs, rfl, rfl⟩ := Disk.takesFile_of_create hcreate
    have hsame := Disk.SameDirectories.of_set hs.place_ne hs.not_directory (content m) mode
    have hchanged := Disk.changed_set (d := r₁.disk) hs.place_ne (.file (content m) mode)
    simp only [Disk.setMode_set, Disk.set_append, ByteArray.empty_append]
    rcases Disk.rename_cases (hsame.takesFile hs) hchanged.entry?_self r.path with
      ⟨t, d', ht, hrename, hmoved⟩ | ⟨hnone, x, hrename⟩
    · simp only [content] at hrename
      simp only [hrename]
      exact .moved hmake hs (hsame.symm.takesFile ht) (hmoved.of_changed hchanged)
    · simp only [content] at hrename
      simp only [hrename]
      exact .unmoved hmake hs fun t ht => hnone t (hsame.takesFile ht)

/-- The directory of the file is there or can be made, and then a file may be at its place and another beside it. -/
structure Writable (r : FileKeyRing) : Prop where
  parent : r.makeParent.1 = .ok ()
  beside : ∃ s, r.makeParent.2.disk.TakesFile r.beside s
  place : ∃ t, r.makeParent.2.disk.TakesFile r.path t

/-- A key ring that can be saved and read, and holds these secrets. -/
structure Keeps (r : FileKeyRing) (m : SecretMap) : Prop where
  secrets_eq : r.secrets = .ok m
  writable : r.Writable

theorem secrets_of_missing (h : r.disk.readText r.path = .error .notFound) : r.secrets = .ok .empty := by
  rw [secrets, h]

/-- What was saved is read again. -/
theorem secrets_of_content (h : r.disk.read r.path = .ok (content m)) : r.secrets = .ok m := by
  rw [secrets, Disk.readText_of_read h]
  simp only [JsonObject.read?_write, SortedMap.ofList_entries]

/-- Saving where that is possible succeeds, and is possible again. -/
theorem Writable.save (h : r.Writable) (m : SecretMap) :
    ∃ r', r.save m = (.ok (), r') ∧ r'.path = r.path ∧ r'.Keeps m := by
  obtain ⟨s₀, hs₀⟩ := h.beside
  obtain ⟨t₀, ht₀⟩ := h.place
  have hparent := h.parent
  have hsaves := saves r m
  generalize hresult : (r.save m).1 = result, hring : (r.save m).2 = r' at hsaves
  cases hsaves with
  | noParent hmake =>
    rw [hmake] at hparent
    cases hparent
  | noFile hmake hnone =>
    rw [hmake] at hs₀
    exact absurd hs₀ (hnone s₀)
  | unmoved hmake hs hnone =>
    rw [hmake] at ht₀
    exact absurd ht₀ (hnone t₀)
  | @moved r₁ s t d hmake hs ht hmoved =>
    have hsame := hmoved.sameDirectories hs.not_directory ht.not_directory
    have hagain : makeParent ⟨d, r.path⟩ = (.ok (), ⟨d, r.path⟩) := makeParent_again hmake rfl hsame.keeps
    have ht' := hsame.takesFile ht
    have hread := Disk.read_of_resolve ht'.resolve_eq ht'.no_slash ((hmoved.entry?_eq _).trans (if_pos rfl))
    refine ⟨⟨d, r.path⟩, Prod.ext hresult hring, rfl, secrets_of_content hread, ?_⟩
    exact ⟨by rw [hagain], ⟨s, by rw [hagain]; exact hsame.takesFile hs⟩, t, by rw [hagain]; exact ht'⟩

theorem put_of_secrets (h : r.secrets = .ok m) (fp text : String) :
    KeyRing.put fp text r = r.save (m.insert fp text) := by
  simp only [KeyRing.put, h]

theorem put_of_unreadable {e : KeyError} (h : r.secrets = .error e) (fp text : String) :
    KeyRing.put fp text r = (.error e, r) := by
  simp only [KeyRing.put, h]

/-! What a put that fails leaves. -/

/-- Where a file can be read and another one made beside it, the place takes a file. -/
theorem takesFile_of_read {d : Disk} {s : Disk.Target} {b : Bytes} (hs : d.TakesFile r.beside s)
    (hread : d.read r.path = .ok b) : ∃ t, d.TakesFile r.path t := by
  obtain ⟨t, n, ht, hslash, he⟩ := Disk.of_read hread
  have hdir : d.entry? t.place ≠ some .directory := by simp [he]
  cases hname : Path.fileName? r.path with
  | none =>
    rw [beside, Path.withExtension_of_no_name hname] at hs
    exact ⟨s, hs⟩
  | some w => exact ⟨t, ht, Disk.named_of_fileName? hname ht hdir, hslash, hdir⟩

/-- The file is as it was: what could be read can be read still, and what can be read was there. -/
structure Spares (r r' : FileKeyRing) : Prop where
  path_eq : r'.path = r.path
  read_eq {b : Bytes} : r.disk.read r.path = .ok b → r'.disk.read r.path = .ok b
  entry_eq {b : Bytes} {t : Disk.Target} : r'.disk.read r.path = .ok b → r'.disk.resolve r.path = .ok t →
    r.disk.entry? t.place = r'.disk.entry? t.place

theorem Spares.refl (r : FileKeyRing) : r.Spares r := ⟨rfl, fun h => h, fun _ _ => rfl⟩

theorem spares_makeParent (h : r.makeParent = (result, r₁)) : r.Spares r₁ := by
  obtain ⟨hpath, hbranches⟩ := branches_makeParent r
  rw [h] at hpath hbranches
  refine ⟨hpath, hbranches.toGrows.read_eq, fun {b t} hread ht => ?_⟩
  obtain ⟨u, n, hu, -, he⟩ := Disk.of_read hread
  obtain rfl : u = t := Except.ok.inj (hu.symm.trans ht)
  rcases hbranches.added _ _ he with hold | hdir
  · exact hold.trans he.symm
  · cases hdir

/-- Saving fails before the file is touched. -/
theorem Saves.spares {e : KeyError} {r' : FileKeyRing} (h : r.Saves m (.error e) r') : r.Spares r' := by
  cases h with
  | noParent hmake => exact spares_makeParent hmake
  | noFile hmake => exact spares_makeParent hmake
  | @unmoved _ r₁ s hmake hs hnone =>
    -- nothing can be moved to the place, so there is nothing to read there, now or before
    have hsame := Disk.SameDirectories.of_set hs.place_ne hs.not_directory (content m) mode
    refine ⟨rfl, fun {b} hread => ?_, fun {b t} hread _ => ?_⟩
    · obtain ⟨t, ht⟩ := takesFile_of_read hs ((spares_makeParent hmake).read_eq hread)
      exact absurd ht (hnone t)
    · obtain ⟨t, ht⟩ := takesFile_of_read (hsame.takesFile hs) hread
      exact absurd (hsame.symm.takesFile ht) (hnone t)

theorem spares_of_put {fp text : String} {e : KeyError} {r' : FileKeyRing}
    (h : KeyRing.put fp text r = (.error e, r')) : r.Spares r' := by
  rcases hsecrets : r.secrets with x | m
  · rw [put_of_unreadable hsecrets] at h
    cases h
    exact .refl r
  · rw [put_of_secrets hsecrets] at h
    have hsaves := saves r (m.insert fp text)
    rw [h] at hsaves
    exact hsaves.spares

end FileKeyRing
end ChunkRelay
