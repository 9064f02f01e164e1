import ChunkRelay.Proofs.Saving

/-! What lies beside a key file. A put touches the key file and the file that it is written to first, whose name is the
key file's with another extension, and no third one. Whoever keeps a file of that name loses it: it is emptied before
the keys are written to it, and once they are moved to their place it is gone. -/
namespace ChunkRelay

open Disk

namespace FileKeyRing

variable {r r' r₁ : FileKeyRing} {fp text path : String} {result : Except KeyError Unit} {p : Place} {t : Target}

/-- Where a path leads once the directory of the key file is made. -/
def Reaches (r : FileKeyRing) (path : String) (p : Place) : Prop :=
  ∃ t, r.makeParent.2.disk.resolve path = .ok t ∧ t.place = p

/-- What a put may come to on a disk that may refuse any step: it goes as `put` has it, the file cannot be read, or its
directory is not made or not to the end, or no file can be made beside it, or no more than some of the keys are written
there, with whatever permissions, or they are not moved. -/
inductive Puts (r : FileKeyRing) (fp text : String) : Except KeyError Unit → FileKeyRing → Prop
  | granted {result : Except KeyError Unit} {r' : FileKeyRing} : KeyRing.put fp text r = (result, r') →
      Puts r fp text result r'
  | unread (e : KeyError) : Puts r fp text (.error e) r
  | halfMade {parent : String} (e : KeyError) (n : Nat) : Path.parent? r.path = some parent →
      Puts r fp text (.error e) ⟨r.disk.halfMade parent n, r.path⟩
  | uncreated {r₁ : FileKeyRing} (e : KeyError) : r.makeParent = (.ok (), r₁) → Puts r fp text (.error e) r₁
  | cut {r₁ : FileKeyRing} {p : Place} {d : Disk} {m : SecretMap} {written rest : Bytes} (e : KeyError)
      (permissions : Nat) : r.secrets = .ok m → r.makeParent = (.ok (), r₁) → r₁.disk.create r.beside = .ok (p, d) →
      content (m.insert fp text) = written ++ rest →
      Puts r fp text (.error e) ⟨(d.setMode p permissions).append p written, r.path⟩

/-- What a put leaves: directories that were made, and maybe one file beside the key file, or the key file in its place
and nothing beside it. -/
inductive Leaves (r : FileKeyRing) : Disk → Prop
  | branched {d : Disk} : Branches r.disk d → Leaves r d
  | beside {s : Target} {written : Bytes} {permissions : Nat} : r.makeParent.2.disk.TakesFile r.beside s →
      Leaves r (r.makeParent.2.disk.set s.place (.file written permissions))
  | moved {s t : Target} {keys : Bytes} {d : Disk} : r.makeParent.2.disk.TakesFile r.beside s →
      r.makeParent.2.disk.TakesFile r.path t →
      Moved r.makeParent.2.disk s.place t.place (.file keys mode) d → Leaves r d

theorem leaves_makeParent (h : r.makeParent = (result, r₁)) : r.Leaves r₁.disk :=
  .branched (congrArg (·.2.disk) h ▸ (branches_makeParent r).2)

theorem Saves.leaves {m : SecretMap} (h : r.Saves m result r') : r.Leaves r'.disk := by
  cases h with
  | noParent hmake => exact leaves_makeParent hmake
  | noFile hmake => exact leaves_makeParent hmake
  | unmoved hmake hs =>
    obtain rfl := congrArg Prod.snd hmake
    exact .beside hs
  | moved hmake hs ht hmoved =>
    obtain rfl := congrArg Prod.snd hmake
    exact .moved hs ht hmoved

theorem Puts.leaves (h : r.Puts fp text result r') : r.Leaves r'.disk := by
  cases h with
  | granted hput =>
    rcases hsecrets : r.secrets with e | m
    · rw [put_of_unreadable hsecrets] at hput
      cases hput
      exact .branched (.refl _)
    · rw [put_of_secrets hsecrets] at hput
      have hsaves := saves r (m.insert fp text)
      rw [hput] at hsaves
      exact hsaves.leaves
  | unread e => exact .branched (.refl _)
  | halfMade e n hparent => exact .branched (branches_makeAlong ..)
  | uncreated e hmake => exact leaves_makeParent hmake
  | cut e permissions hsecrets hmake hcreate hkeys =>
    obtain rfl := congrArg Prod.snd hmake
    obtain ⟨s, n, hs, rfl, rfl⟩ := takesFile_of_create hcreate
    simp only [setMode_set, set_append]
    exact .beside hs

theorem Leaves.keepsDirectories {d : Disk} (h : r.Leaves d) : KeepsDirectories r.disk d := by
  have hmade := (branches_makeParent r).2.keepsDirectories
  cases h with
  | branched hbranches => exact hbranches.keepsDirectories
  | beside hs => exact hmade.trans (SameDirectories.of_set hs.place_ne hs.not_directory _ _).keeps
  | moved hs ht hmoved => exact hmade.trans (hmoved.sameDirectories hs.not_directory ht.not_directory).keeps

/-- A third file is not touched. -/
theorem Leaves.entry?_eq {d : Disk} (h : r.Leaves d) {e : Entry} (he : r.disk.entry? p = some e)
    (hpath : ¬ r.Reaches r.path p) (hbeside : ¬ r.Reaches r.beside p) : d.entry? p = some e := by
  have hmade := (branches_makeParent r).2.kept p e he
  cases h with
  | branched hbranches => exact hbranches.kept p e he
  | @beside s _ _ hs =>
    have hne : p ≠ s.place := fun hp => hbeside ⟨s, hs.resolve_eq, hp.symm⟩
    rw [entry?_set hs.place_ne, if_neg hne, hmade]
  | @moved s t _ _ hs ht hmoved =>
    have hne : p ≠ s.place := fun hp => hbeside ⟨s, hs.resolve_eq, hp.symm⟩
    have hne' : p ≠ t.place := fun hp => hpath ⟨t, ht.resolve_eq, hp.symm⟩
    rw [hmoved.entry?_eq, if_neg hne', if_neg hne, hmade]

theorem secrets_congr {d d' : Disk} (h : d'.read path = d.read path) : secrets ⟨d', path⟩ = secrets ⟨d, path⟩ := by
  simp only [secrets, readText, h]

theorem Leaves.secrets_eq {d : Disk} (h : r.Leaves d) (ht : r.disk.resolve path = .ok t) {e : Entry}
    (he : r.disk.entry? t.place = some e) (hpath : ¬ r.Reaches r.path t.place)
    (hbeside : ¬ r.Reaches r.beside t.place) : secrets ⟨d, path⟩ = secrets ⟨r.disk, path⟩ :=
  secrets_congr (read_congr ht (h.keepsDirectories.resolve_eq ht) ((h.entry?_eq he hpath hbeside).trans he.symm))

/-- A key ring whose file is gone is empty. -/
theorem secrets_of_free {d : Disk} (ht : d.resolve path = .ok t) (hfree : d.entry? t.place = none) :
    secrets ⟨d, path⟩ = .ok .empty := by
  refine secrets_of_missing ?_
  simp only [readText, Disk.read, stat, ht, hfree]

/-- Once a put has succeeded, nothing lies beside the key file. -/
theorem free_of_put (h : KeyRing.put fp text r = (.ok (), r')) (hbeside : r.Reaches r.beside p)
    (hpath : ¬ r.Reaches r.path p) : r'.disk.entry? p = none := by
  obtain ⟨u, hu, rfl⟩ := hbeside
  rcases hsecrets : r.secrets with e | m
  · rw [put_of_unreadable hsecrets] at h
    cases h
  · rw [put_of_secrets hsecrets] at h
    have hsaves := saves r (m.insert fp text)
    rw [h] at hsaves
    cases hsaves with
    | @moved r₁ s t d hmake hs ht hmoved =>
      obtain rfl := congrArg Prod.snd hmake
      obtain rfl : u = s := Except.ok.inj (hu.symm.trans hs.resolve_eq)
      have hne : u.place ≠ t.place := fun hp => hpath ⟨t, ht.resolve_eq, hp.symm⟩
      rw [hmoved.entry?_eq, if_neg hne, if_pos rfl]

/-- A key ring that had its file there has no secrets any more. -/
theorem secrets_of_put (h : KeyRing.put fp text r = (.ok (), r')) (ht : r.disk.resolve path = .ok t)
    (hbeside : r.Reaches r.beside t.place) (hpath : ¬ r.Reaches r.path t.place) :
    secrets ⟨r'.disk, path⟩ = .ok .empty := by
  have hputs : r.Puts fp text (.ok ()) r' := .granted h
  exact secrets_of_free (hputs.leaves.keepsDirectories.resolve_eq ht) (free_of_put h hbeside hpath)

/-- A put keeps every file but the one at the path and the one beside it, and so every key ring with another file. Once
it has succeeded nothing lies beside the key file, and a key ring that had its file there has lost its secrets. -/
theorem kept_of_puts (r : FileKeyRing) (fp text : String) :
    (∀ result r', r.Puts fp text result r' →
      (∀ p e, r.disk.entry? p = some e → ¬ r.Reaches r.path p → ¬ r.Reaches r.beside p →
        r'.disk.entry? p = some e) ∧
      ∀ path t e, r.disk.resolve path = .ok t → r.disk.entry? t.place = some e → ¬ r.Reaches r.path t.place →
        ¬ r.Reaches r.beside t.place → secrets ⟨r'.disk, path⟩ = secrets ⟨r.disk, path⟩) ∧
    ∀ r', KeyRing.put fp text r = (.ok (), r') → ∀ p, r.Reaches r.beside p → ¬ r.Reaches r.path p →
      r'.disk.entry? p = none ∧
      ∀ path t, r.disk.resolve path = .ok t → t.place = p → secrets ⟨r'.disk, path⟩ = .ok .empty := by
  refine ⟨fun result r' h => ⟨fun p e he => h.leaves.entry?_eq he, fun path t e ht he => h.leaves.secrets_eq ht he⟩,
    fun r' h p hbeside hpath => ⟨free_of_put h hbeside hpath, ?_⟩⟩
  rintro path t ht rfl
  exact secrets_of_put h ht hbeside hpath

/-! Two key rings in one directory. -/

def lent : SecretMap := SortedMap.empty.insert "a" "eA=="

def directory : Disk := .ofWorkDir ⟨#["node"]⟩

/-- A working directory in which a key ring has a file of this name. -/
def shared (w : String) : Disk := directory.set (directory.workDir.child w) (.file (content lent) mode)

variable {v w : String}

theorem secrets_of_shared (hw : directory.FreeName w) : secrets ⟨shared w, w⟩ = .ok lent :=
  secrets_of_content (r := ⟨shared w, w⟩) (hw.read_set (content lent) mode)

theorem takesFile_shared (hw : directory.FreeName w) (hv : directory.FreeName v) :
    (shared w).TakesFile v ⟨directory.workDir.child v, true, false⟩ := by
  refine ⟨(grows_set hw.free _).keepsDirectories.resolve_eq hv.resolve_eq, rfl, rfl, ?_⟩
  have hentry := entry?_set (directory.workDir.child_ne_root w) directory
    (.file (content lent) mode) (directory.workDir.child v)
  have hfree : directory.entry? (directory.workDir.child v) = none := hv.free
  simp only [shared, hentry, hfree]
  split <;> simp

theorem freeName_keys : directory.FreeName "keys.json" := by decide +kernel

theorem freeName_beside : directory.FreeName "keys.tmp" := by decide +kernel

theorem makeParent_shared (d : Disk) : makeParent ⟨d, "keys.json"⟩ = (.ok (), ⟨d, "keys.json"⟩) := by
  have hparent : Path.parent? "keys.json" = some "" := by decide
  simp [makeParent, hparent]

theorem beside_keys (d : Disk) : beside ⟨d, "keys.json"⟩ = "keys.tmp" := by
  show Path.withExtension "keys.json" "tmp" = "keys.tmp"
  decide

theorem reaches_shared (hw : directory.FreeName w) (hv : directory.FreeName v) :
    Reaches ⟨shared w, "keys.json"⟩ v p ↔ p = directory.workDir.child v := by
  rw [Reaches, makeParent_shared, (takesFile_shared hw hv).resolve_eq]
  exact ⟨fun ⟨_, ht, hp⟩ => hp ▸ congrArg Target.place (Except.ok.inj ht).symm, fun hp => ⟨_, rfl, hp.symm⟩⟩

/-- There are no keys yet, and they can be put. -/
theorem put_shared (hw : directory.FreeName w) (hne : w ≠ "keys.json") (fp text : String) :
    ∃ r', KeyRing.put fp text (⟨shared w, "keys.json"⟩ : FileKeyRing) = (.ok (), r') := by
  have hfree : Disk.entry? (shared w) (directory.workDir.child "keys.json") = none := by
    have hplace : directory.workDir.child "keys.json" ≠ directory.workDir.child w :=
      fun h => hne (Place.child_inj h).2.symm
    rw [shared, entry?_set (Place.child_ne_root _ w), if_neg hplace]
    exact freeName_keys.free
  have hkeys := takesFile_shared hw freeName_keys
  have hwritable : Writable ⟨shared w, "keys.json"⟩ := by
    constructor <;> rw [makeParent_shared]
    · rw [beside_keys]
      exact ⟨_, takesFile_shared hw freeName_beside⟩
    · exact ⟨_, hkeys⟩
  rw [put_of_secrets (secrets_of_free hkeys.resolve_eq hfree)]
  obtain ⟨r', hsave, -⟩ := hwritable.save (SortedMap.empty.insert fp text)
  exact ⟨r', hsave⟩

/-- A key ring with its file elsewhere in the directory keeps its secrets. -/
theorem kept_of_puts_of_shared :
    ∃ r', KeyRing.put "fp" "c2VjcmV0" (⟨shared "old", "keys.json"⟩ : FileKeyRing) = (.ok (), r') ∧
      secrets ⟨r'.disk, "old"⟩ = .ok lent := by
  have hold : directory.FreeName "old" := by decide +kernel
  obtain ⟨r', hput⟩ := put_shared hold (by decide) "fp" "c2VjcmV0"
  refine ⟨r', hput, ?_⟩
  have hentry : Disk.entry? (shared "old") (directory.workDir.child "old") = some (.file (content lent) mode) :=
    (entry?_set (Place.child_ne_root _ "old") _ _ _).trans (if_pos rfl)
  have hkeys : ¬ Reaches ⟨shared "old", "keys.json"⟩ "keys.json" (directory.workDir.child "old") := by
    rw [reaches_shared hold freeName_keys]
    decide
  have hbeside : ¬ Reaches ⟨shared "old", "keys.json"⟩ (beside ⟨shared "old", "keys.json"⟩)
      (directory.workDir.child "old") := by
    rw [beside_keys, reaches_shared hold freeName_beside]
    decide
  have hresolve := (takesFile_shared hold hold).resolve_eq
  rw [((kept_of_puts _ _ _).1 _ _ (.granted hput)).2 "old" _ _ hresolve hentry hkeys hbeside]
  exact secrets_of_shared hold

/-- One with its file beside that of another loses them. -/
theorem lost_of_shared :
    ∃ r', KeyRing.put "fp" "c2VjcmV0" (⟨shared "keys.tmp", "keys.json"⟩ : FileKeyRing) = (.ok (), r') ∧
      secrets ⟨shared "keys.tmp", "keys.tmp"⟩ = .ok lent ∧ secrets ⟨r'.disk, "keys.tmp"⟩ = .ok .empty ∧
        lent ≠ .empty := by
  obtain ⟨r', hput⟩ := put_shared freeName_beside (by decide) "fp" "c2VjcmV0"
  refine ⟨r', hput, secrets_of_shared freeName_beside, ?_, by decide⟩
  have hplace := takesFile_shared freeName_beside freeName_beside
  have hbeside : Reaches ⟨shared "keys.tmp", "keys.json"⟩ (beside ⟨shared "keys.tmp", "keys.json"⟩)
      (directory.workDir.child "keys.tmp") := by
    rw [beside_keys]
    exact (reaches_shared freeName_beside freeName_beside).mpr rfl
  have hkeys : ¬ Reaches ⟨shared "keys.tmp", "keys.json"⟩ "keys.json" (directory.workDir.child "keys.tmp") := by
    rw [reaches_shared freeName_beside freeName_keys]
    decide
  exact secrets_of_put hput hplace.resolve_eq hbeside hkeys

end FileKeyRing
end ChunkRelay
