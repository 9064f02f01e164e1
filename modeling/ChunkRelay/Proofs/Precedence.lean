import ChunkRelay.Proofs.BlockSizes
import ChunkRelay.Proofs.Growth

/-! Where settings come from. Each is what the environment sets, else what the settings file gives, else a default, and
loading succeeds if the numbers that are set can be read and the block size is one that blocks may have, provided that
the file has not come with one that they may not. -/
namespace ChunkRelay
namespace Settings

variable {env : Environment} {d : Disk} {path : String} {g o : Given} {s : Settings}

/-! What the environment sets. -/

/-- A number that may be missing but must be readable if it is there. -/
def number? (read : String → Except Decimal.Fault Nat) : Option String → Option (Option Nat)
  | none => some none
  | some v => (read v).toOption.map some

/-- What variables set, if their numbers can be read. -/
def Given.ofVars? (vars : Environment) : Option Given := do
  let size ← number? Decimal.uint32 (vars "SCATTER_TRANSFER__BLOCK_SIZE")
  let limit ← number? Decimal.uint64 (vars "SCATTER_TRANSFER__INLINE_THRESHOLD")
  return {
    cacheDir := vars "SCATTER_STORAGE__CACHE_DIR"
    userDir := none
    keyPath := none
    blockSize := size.map UInt32.ofNat
    threshold := limit }

theorem number?_eq_some_iff {read : String → Except Decimal.Fault Nat} {value : Option String} {n : Option Nat} :
    number? read value = some n ↔
      (value = none ∧ n = none) ∨ ∃ v k, value = some v ∧ read v = .ok k ∧ n = some k := by
  cases value with
  | none => simp [number?, eq_comm]
  | some v =>
    cases hread : read v with
    | error e => simp [number?, hread, Except.toOption]
    | ok k => simp [number?, hread, Except.toOption, eq_comm]

theorem number?_eq_none_iff {read : String → Except Decimal.Fault Nat} {value : Option String} :
    number? read value = none ↔ ∃ v e, value = some v ∧ read v = .error e := by
  cases value with
  | none => simp [number?]
  | some v => cases hread : read v <;> simp [number?, hread, Except.toOption]

/-- Overriding puts what the variables set over the settings and checks what that comes to. -/
theorem override_of_vars (h : Given.ofVars? env = some o) (s : Settings) :
    s.override env = ((o.over s).validate, o.over s) := by
  simp only [Given.ofVars?, Option.bind_eq_bind, Option.bind_eq_some_iff, Option.pure_def, Option.some.injEq] at h
  obtain ⟨size, hsize, limit, hlimit, rfl⟩ := h
  rcases number?_eq_some_iff.mp hsize with ⟨hv, rfl⟩ | ⟨v, k, hv, hk, rfl⟩ <;>
    rcases number?_eq_some_iff.mp hlimit with ⟨hw, rfl⟩ | ⟨w, n, hw, hn, rfl⟩
  · simp [override, hv, hw, Given.over]
  · simp [override, hv, hw, hn, Given.over]
  · simp [override, hv, hw, hk, Given.over]
  · simp [override, hv, hw, hk, hn, Given.over]

/-- A number that cannot be read is an error. -/
theorem override_of_unreadable (h : Given.ofVars? env = none) (s : Settings) : ∃ e, (s.override env).1 = .error e := by
  simp only [Given.ofVars?, Option.bind_eq_bind, Option.bind_eq_none_iff, Option.pure_def, reduceCtorEq, imp_false] at h
  rcases hsize : number? Decimal.uint32 (env "SCATTER_TRANSFER__BLOCK_SIZE") with - | size
  · obtain ⟨v, e, hv, he⟩ := number?_eq_none_iff.mp hsize
    exact ⟨_, by simp [override, hv, he]; rfl⟩
  · have hlimit : number? Decimal.uint64 (env "SCATTER_TRANSFER__INLINE_THRESHOLD") = none := by
      rw [Option.eq_none_iff_forall_ne_some]
      exact fun limit hlimit => h size hsize limit hlimit
    obtain ⟨w, e, hw, he⟩ := number?_eq_none_iff.mp hlimit
    rcases number?_eq_some_iff.mp hsize with ⟨hv, -⟩ | ⟨v, k, hv, hk, -⟩
    · exact ⟨_, by simp [override, hv, hw, he]; rfl⟩
    · exact ⟨_, by simp [override, hv, hk, hw, he]; rfl⟩

/-! What the file gives. -/

/-- A file that gives nothing, for it is not there, or gives what its text says. -/
inductive FileGives (d : Disk) (path : String) : Given → Prop
  | missing : d.exists? path = false → FileGives d path ⟨none, none, none, none, none⟩
  | written {text : String} {g : Given} : d.readText path = .ok text → Given.ofText? text = some g → FileGives d path g

theorem sizeRule_self (s : Settings) :
    SizeRule s.blockSize (.invalid "transfer.block_size" (toString s.blockSize)) s.validate :=
  sizeRule_validate s s.blockSize

theorem validate_eq_ok_iff : s.validate = .ok () ↔ Framable s.blockSize := by
  rw [← (sizeRule_self s).accepts_iff]
  exact ⟨fun h => ⟨(), h⟩, fun ⟨_, h⟩ => h⟩

theorem map_validate_eq_ok_iff {r : Settings} :
    (s.validate.map fun () => s) = .ok r ↔ r = s ∧ Framable r.blockSize := by
  by_cases hn : Framable s.blockSize
  · rw [validate_eq_ok_iff.mpr hn]
    constructor
    · intro h
      cases h
      exact ⟨rfl, hn⟩
    · rintro ⟨rfl, -⟩
      rfl
  · rw [(sizeRule_self s).refuses hn]
    constructor
    · intro h
      cases h
    · rintro ⟨rfl, hr⟩
      exact absurd hr hn

/-- The file is checked by itself, before anything is put over it. -/
theorem loadFile_of_gives (h : FileGives d path g) (env : Environment) :
    loadFile env d path = (g.over (defaults env)).validate.map fun () => g.over (defaults env) := by
  cases h with
  | missing hnone =>
    have hvalid : (defaults env).validate = .ok () := validate_eq_ok_iff.mpr (show Framable (64 * 1024) by decide)
    rw [loadFile, hnone]
    exact (congrArg (Except.map fun () => defaults env) hvalid).symm
  | written hread hg =>
    rw [loadFile, Disk.exists?_of_readText hread, if_pos rfl, hread]
    simp only [hg]

/-- Once the file has been read, it is the environment that decides. -/
theorem load_of_loadFile (h : loadFile env d (filePath env) = .ok s) :
    (∀ o, Given.ofVars? env = some o → load env d = (o.over s).validate.map fun () => o.over s) ∧
      (Given.ofVars? env = none → ∃ e, load env d = .error e) := by
  have hload : load env d = (s.override env).1.map fun () => (s.override env).2 := by
    rw [load, h]
  refine ⟨fun o ho => ?_, fun ho => ?_⟩
  · rw [hload, override_of_vars ho]
  · obtain ⟨e, he⟩ := override_of_unreadable ho s
    rw [hload, he]
    exact ⟨e, rfl⟩

/-- A file whose block size blocks may not have is not got past. -/
theorem load_of_unframable (hg : FileGives d (filePath env) g) (hn : ¬ Framable (g.over (defaults env)).blockSize) :
    load env d = .error (.invalid "transfer.block_size" (toString (g.over (defaults env)).blockSize)) := by
  rw [load, loadFile_of_gives hg, (sizeRule_self (g.over (defaults env))).refuses hn]
  rfl

/-- What is loaded is what the environment sets over what the file gives over the defaults. It is loaded if the numbers
that are set can be read and the block size that this comes to is one that blocks may have, and so is the block size
without the environment; where that is not, it is the error, whatever the environment sets. -/
theorem load_of_gives (hg : FileGives d (filePath env) g) :
    (∀ s, load env d = .ok s ↔ Framable (g.over (defaults env)).blockSize ∧
      ∃ o, Given.ofVars? env = some o ∧ s = o.over (g.over (defaults env)) ∧ Framable s.blockSize) ∧
    (¬ Framable (g.over (defaults env)).blockSize → load env d =
      .error (.invalid "transfer.block_size" (toString (g.over (defaults env)).blockSize))) := by
  refine ⟨fun s => ?_, load_of_unframable hg⟩
  by_cases hn : Framable (g.over (defaults env)).blockSize
  · have hfile := loadFile_of_gives hg env
    rw [validate_eq_ok_iff.mpr hn] at hfile
    obtain ⟨hset, hunset⟩ := load_of_loadFile hfile
    cases ho : Given.ofVars? env with
    | none =>
      obtain ⟨e, he⟩ := hunset ho
      simp [he]
    | some o =>
      rw [hset o ho, map_validate_eq_ok_iff]
      simp [hn]
  · simp [load_of_unframable hg hn, hn]

/-- A node whose settings file has one block size while its environment has another. -/
def overridden (fileSize size : String) : Environment × Disk :=
  (fun name =>
    if name = "SCATTER_CONFIG" then some "conf" else if name = "SCATTER_TRANSFER__BLOCK_SIZE" then some size else none,
    (Disk.ofWorkDir ⟨#["node"]⟩).set ⟨#["node", "conf"]⟩
      (.file ("[transfer]\nblock_size = " ++ fileSize ++ "\n").toUTF8 Disk.defaultMode))

theorem gives_of_overridden (fileSize size : String) {g : Given}
    (hg : Given.ofText? ("[transfer]\nblock_size = " ++ fileSize ++ "\n") = some g) :
    FileGives (overridden fileSize size).2 (filePath (overridden fileSize size).1) g := by
  have hname : (Disk.ofWorkDir ⟨#["node"]⟩).FreeName "conf" := by decide +kernel
  exact .written (Disk.readText_of_read (hname.read_set _ _)) hg

/-- A block size from the environment counts. -/
theorem load_of_overridden :
    let (env, d) := overridden "4096" "128"
    FileGives d (filePath env) ⟨none, none, none, some 4096, none⟩ ∧
      load env d = .ok { defaults env with blockSize := 128 } := by
  have hgives := gives_of_overridden "4096" "128" (g := ⟨none, none, none, some 4096, none⟩) (by decide +kernel)
  refine ⟨hgives, ((load_of_gives hgives).1 _).mpr ⟨by decide +kernel, ⟨none, none, none, some 128, none⟩, ?_, rfl, ?_⟩⟩
  · decide +kernel
  · decide +kernel

/-- The environment's block size, which blocks may have, does not count over one in the file that they may not. -/
theorem refused_of_overridden_zero :
    let (env, d) := overridden "0" "128"
    let given : Given := ⟨none, none, none, some 0, none⟩
    let set : Given := ⟨none, none, none, some 128, none⟩
    FileGives d (filePath env) given ∧ Given.ofVars? env = some set ∧
      Framable (set.over (given.over (defaults env))).blockSize ∧
        load env d = .error (.invalid "transfer.block_size" "0") := by
  have hgives := gives_of_overridden "0" "128" (g := ⟨none, none, none, some 0, none⟩) (by decide +kernel)
  exact ⟨hgives, by decide +kernel, by decide +kernel, load_of_unframable hgives (by decide +kernel)⟩

end Settings
end ChunkRelay
