import ChunkRelay.Proofs.Saving

/-! Key rings in files as maps. However often the file is written and opened again, the ring answers as one in memory does
that is given the same secrets, and a put that fails leaves the file as it was. -/
namespace ChunkRelay

/-- A key ring that lists its fingerprints and can be opened again. -/
class ListedRing (κ : Type) extends KeyRing κ where
  fingerprints : κ → Except KeyError (List String)
  reopen : κ → κ

instance : ListedRing FileKeyRing where
  fingerprints := FileKeyRing.fingerprints
  reopen r := ⟨r.disk, r.path⟩

/-- Memory is opened by keeping it. -/
instance : ListedRing MemoryKeyRing where
  fingerprints r := .ok r.secrets.keys
  reopen := id

/-- What is asked of a key ring. -/
inductive KeyCall where
  | put (fp text : String)
  | get (fp : String)
  | secretKey (fp : String)
  | fingerprints
  | reopen
  deriving DecidableEq

inductive KeyAnswer where
  | put (result : Except KeyError Unit)
  | get (result : Except KeyError (Option String))
  | secretKey (result : Except KeyError Bytes)
  | fingerprints (result : Except KeyError (List String))
  | reopened

namespace KeyCall

variable {κ : Type} [ListedRing κ]

def run (r : κ) : KeyCall → KeyAnswer × κ
  | .put fp text => (.put (KeyRing.put fp text r).1, (KeyRing.put fp text r).2)
  | .get fp => (.get (KeyRing.get? fp r), r)
  | .secretKey fp => (.secretKey (KeyRing.secretKey fp r), r)
  | .fingerprints => (.fingerprints (ListedRing.fingerprints r), r)
  | .reopen => (.reopened, ListedRing.reopen r)

/-- The answers to calls one after another. -/
def answers : List KeyCall → κ → List KeyAnswer
  | [], _ => []
  | c :: cs, r => (run r c).1 :: answers cs (run r c).2

/-- The text that was last put under a fingerprint. -/
def lastPut (past : List KeyCall) (fp : String) : Option String :=
  past.reverse.findSome? fun
    | .put k text => if k = fp then some text else none
    | _ => none

/-- What a call is to be answered after these calls. -/
def Due (past : List KeyCall) (a : KeyAnswer) : KeyCall → Prop
  | .put _ _ => a = .put (.ok ())
  | .get fp => a = .get (.ok (lastPut past fp))
  | .secretKey fp => (lastPut past fp = none → a = .secretKey (.error (.missingPrivateKey fp))) ∧
      ∀ text, lastPut past fp = some text → a = .secretKey (decodeSecret text) ∧
        ∀ s, text = Base64.encode s → a = .secretKey (.ok s)
  | .fingerprints => ∃ l, a = .fingerprints (.ok l) ∧ l.Pairwise (· < ·) ∧ ∀ fp, fp ∈ l ↔ ∃ text, .put fp text ∈ past
  | .reopen => a = .reopened

theorem lastPut_append (past : List KeyCall) (c : KeyCall) (fp : String) :
    lastPut (past ++ [c]) fp = match c with
      | .put k text => if k = fp then some text else lastPut past fp
      | _ => lastPut past fp := by
  rw [lastPut, List.reverse_append, List.reverse_singleton, List.singleton_append, List.findSome?_cons]
  cases c with
  | put k text => by_cases hk : k = fp <;> simp [hk, lastPut]
  | _ => rfl

theorem isSome_lastPut_iff {past : List KeyCall} {fp : String} :
    (lastPut past fp).isSome ↔ ∃ text, .put fp text ∈ past := by
  rw [lastPut, List.findSome?_isSome_iff]
  constructor
  · rintro ⟨c, hc, hsome⟩
    have hmem := List.mem_reverse.mp hc
    cases c with
    | put k text =>
      by_cases hk : k = fp
      · exact ⟨text, hk ▸ hmem⟩
      · simp [hk] at hsome
    | _ => cases hsome
  · rintro ⟨text, hmem⟩
    exact ⟨_, List.mem_reverse.mpr hmem, by simp⟩

/-! Rings in memory. -/

/-- A map with what was last put under each fingerprint. -/
def Recorded (past : List KeyCall) (m : SecretMap) : Prop := ∀ fp, m.get? fp = lastPut past fp

variable {past : List KeyCall} {m : SecretMap}

theorem recorded_empty : Recorded [] .empty := fun _ => rfl

theorem secretKey_mk (m : SecretMap) (fp : String) : KeyRing.secretKey fp (MemoryKeyRing.mk m) =
    match m.get? fp with
    | none => .error (.missingPrivateKey fp)
    | some text => decodeSecret text := by
  have hget : KeyRing.get? fp (MemoryKeyRing.mk m) = .ok (m.get? fp) := rfl
  rw [KeyRing.secretKey, hget]
  cases m.get? fp <;> rfl

/-- Each call on a ring in memory is answered as is due, and what was put is in the map. -/
theorem Recorded.run (h : Recorded past m) (c : KeyCall) :
    Due past (run (MemoryKeyRing.mk m) c).1 c ∧ Recorded (past ++ [c]) (run (MemoryKeyRing.mk m) c).2.secrets := by
  have hkeep (hc : ∀ fp, lastPut (past ++ [c]) fp = lastPut past fp) : Recorded (past ++ [c]) m := fun fp =>
    (h fp).trans (hc fp).symm
  cases c with
  | put k text =>
    refine ⟨rfl, fun fp => ?_⟩
    rw [lastPut_append]
    exact (SortedMap.get?_insert ..).trans (by simp only [eq_comm (a := fp), h fp])
  | get fp => exact ⟨congrArg (fun r => KeyAnswer.get (.ok r)) (h fp), hkeep fun _ => lastPut_append ..⟩
  | secretKey fp =>
    have hanswer := congrArg KeyAnswer.secretKey (secretKey_mk m fp)
    rw [h fp] at hanswer
    refine ⟨⟨fun hnone => ?_, fun text htext => ?_⟩, hkeep fun _ => lastPut_append ..⟩
    · rw [hnone] at hanswer
      exact hanswer
    · rw [htext] at hanswer
      refine ⟨hanswer, ?_⟩
      rintro s rfl
      exact hanswer.trans (congrArg KeyAnswer.secretKey (decodeSecret_encode s))
  | fingerprints =>
    refine ⟨⟨m.keys, rfl, List.pairwise_map.mpr m.sorted, fun fp => ?_⟩, hkeep fun _ => lastPut_append ..⟩
    rw [SortedMap.mem_keys_iff, h fp, isSome_lastPut_iff]
  | reopen => exact ⟨rfl, hkeep fun _ => lastPut_append ..⟩

theorem Recorded.answers (h : Recorded past m) (calls : List KeyCall) {i : Nat} {c : KeyCall} (hc : calls[i]? = some c) :
    ∃ a, (answers calls (MemoryKeyRing.mk m))[i]? = some a ∧ Due (past ++ calls.take i) a c := by
  induction calls generalizing past m i with
  | nil => cases hc
  | cons c' calls ih =>
    obtain ⟨hdue, hrest⟩ := h.run c'
    cases i with
    | zero =>
      cases hc
      exact ⟨_, rfl, by simpa using hdue⟩
    | succ i =>
      obtain ⟨a, ha, hdue⟩ := ih hrest hc
      exact ⟨a, ha, by simpa using hdue⟩

end KeyCall

namespace FileKeyRing

open KeyCall

variable {r : FileKeyRing} {m : SecretMap}

/-! Rings in files. -/

/-- A ring in a file answers a call as one in memory with the same secrets does, and they have the same secrets then. -/
theorem Keeps.run (h : r.Keeps m) (c : KeyCall) :
    (KeyCall.run r c).1 = (KeyCall.run (MemoryKeyRing.mk m) c).1 ∧
      (KeyCall.run r c).2.Keeps (KeyCall.run (MemoryKeyRing.mk m) c).2.secrets := by
  have hget (fp : String) : KeyRing.get? fp r = KeyRing.get? fp (MemoryKeyRing.mk m) := by
    change r.secrets.map (·.get? fp) = .ok (m.get? fp)
    rw [h.secrets_eq]
    rfl
  cases c with
  | put fp text =>
    obtain ⟨r', hsave, -, hkeeps⟩ := h.writable.save (m.insert fp text)
    rw [KeyCall.run, put_of_secrets h.secrets_eq, hsave]
    exact ⟨rfl, hkeeps⟩
  | get fp => exact ⟨congrArg KeyAnswer.get (hget fp), h⟩
  | secretKey fp =>
    refine ⟨congrArg KeyAnswer.secretKey ?_, h⟩
    rw [KeyRing.secretKey, KeyRing.secretKey, hget]
  | fingerprints =>
    refine ⟨congrArg KeyAnswer.fingerprints ?_, h⟩
    change r.secrets.map (·.keys) = .ok m.keys
    rw [h.secrets_eq]
    rfl
  | reopen => exact ⟨rfl, h⟩

/-- They answer all calls alike. -/
theorem Keeps.answers_eq (h : r.Keeps m) (calls : List KeyCall) :
    answers calls r = answers calls (MemoryKeyRing.mk m) := by
  induction calls generalizing r m with
  | nil => rfl
  | cons c calls ih =>
    obtain ⟨hanswer, hkeeps⟩ := h.run c
    rw [answers, answers, hanswer, ih hkeeps]

/-- A key ring in a file that is not there yet, but can be made, answers every run of calls as one in memory does: with
what was last put, and with just the fingerprints under which something was. And a put that fails, whatever the file
held, leaves it as it was. -/
theorem answers_as_in_memory (r : FileKeyRing) :
    (r.disk.readText r.path = .error .notFound → r.Writable → ∀ calls : List KeyCall,
      answers calls r = answers calls MemoryKeyRing.empty ∧
      ∀ i c, calls[i]? = some c → ∃ a, (answers calls r)[i]? = some a ∧ Due (calls.take i) a c) ∧
    ∀ fp text e r', KeyRing.put fp text r = (.error e, r') → r.Spares r' := by
  refine ⟨fun hmissing hwritable calls => ?_, fun fp text e r' => spares_of_put⟩
  have heq := Keeps.answers_eq ⟨secrets_of_missing hmissing, hwritable⟩ calls
  refine ⟨heq, fun i c hc => ?_⟩
  rw [heq]
  exact recorded_empty.answers calls hc

/-- A key file in a working directory with nothing in it. -/
def newRing : FileKeyRing := ⟨.ofWorkDir ⟨#["node"]⟩, "keys.json"⟩

theorem freeName_newRing : newRing.disk.FreeName "keys.json" ∧ newRing.disk.FreeName "keys.tmp" :=
  ⟨⟨⟨by decide, by decide⟩, by decide, by decide, by decide, by decide, by decide +kernel⟩,
    ⟨⟨by decide, by decide⟩, by decide, by decide, by decide, by decide, by decide +kernel⟩⟩

theorem takesFile_of_freeName {d : Disk} {w : String} (hw : d.FreeName w) : ∃ t, d.TakesFile w t :=
  ⟨⟨d.workDir.child w, true, false⟩, hw.resolve_eq, rfl, rfl, by simp [hw.free]⟩

theorem writable_newRing : newRing.Writable := by
  have hparent : Path.parent? newRing.path = some "" := by decide +kernel
  have hmake : newRing.makeParent = (.ok (), newRing) := by simp [makeParent, hparent]
  have hbeside : newRing.beside = "keys.tmp" := by decide +kernel
  obtain ⟨hplace, htemp⟩ := freeName_newRing
  refine ⟨by rw [hmake], ?_, ?_⟩
  · rw [hmake, hbeside]
    exact takesFile_of_freeName htemp
  · rw [hmake]
    exact takesFile_of_freeName hplace

/-- A secret is read back from a new key file that was opened again, and where the path of a key file leads to a
directory nothing is changed. -/
theorem answers_of_newRing :
    answers [.put "fp" (Base64.encode ⟨#[7, 8]⟩), .reopen, .secretKey "fp"] newRing =
        [.put (.ok ()), .reopened, .secretKey (.ok ⟨#[7, 8]⟩)] ∧
      ∃ e r', KeyRing.put "fp" "" { newRing with path := "." } = (.error e, r') ∧ Spares { newRing with path := "." } r' := by
  obtain ⟨hplace, -⟩ := freeName_newRing
  have hmissing : newRing.disk.readText newRing.path = .error .notFound := by
    have hstat : newRing.disk.stat newRing.path = .error .notFound := by
      simp [Disk.stat, show newRing.path = "keys.json" from rfl, hplace.resolve_eq, hplace.free]
    rw [Disk.readText, Disk.read, hstat]
  have hsame := ((answers_as_in_memory newRing).1 hmissing writable_newRing
    [.put "fp" (Base64.encode ⟨#[7, 8]⟩), .reopen, .secretKey "fp"]).1
  refine ⟨hsame.trans rfl, ?_⟩
  have hdir : newRing.disk.entry? newRing.disk.workDir = some .directory := by decide +kernel
  have hread : newRing.disk.readText "." = .error .isDirectory := by
    simp [Disk.readText, Disk.read, Disk.stat, newRing.disk.resolve_dot, hdir]
  have hsecrets : ∃ e, secrets { newRing with path := "." } = .error e := by
    rw [secrets, hread]
    exact ⟨_, rfl⟩
  obtain ⟨e, hsecrets⟩ := hsecrets
  have hput := put_of_unreadable hsecrets "fp" ""
  exact ⟨e, _, hput, (answers_as_in_memory _).2 "fp" "" e _ hput⟩

end FileKeyRing
end ChunkRelay
