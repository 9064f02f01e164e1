import ChunkRelay.Proofs.PartWriters

/-! Many part files in one tree. They are begun, written, flushed, committed and dropped in any order, with targets of
their own or the same one. What the tree holds is told by what was there before, by the commits that succeeded and by
the part files that are open. -/
namespace ChunkRelay

/-- The name of the part file of this number. -/
def FileStore.hiddenName (s : FileStore) (k : Nat) (target : String) : String :=
  { s with begun := k }.partName ((Path.fileName? target).getD "message")

/-- A store with the part files that are open in it, by their numbers. -/
structure PartTable where
  files : FileStore
  parts : SortedMap Nat PartWriter

namespace PartTable

def new (files : FileStore) : PartTable := ⟨files, .empty⟩

inductive Act where
  | create (target : String)
  | write (k : Nat) (b : Bytes)
  | flush (k : Nat)
  | commit (k : Nat)
  | drop (k : Nat)

inductive Answer where
  | begun (k : Nat)
  | refused (cause : StorageError)
  | done
  | committed (r : Except StorageError Commit)
  /-- There is no such part file, or no longer. -/
  | gone

def act (s : PartTable) : Act → Answer × PartTable
  | .create target =>
    match s.files.createPart target with
    | (.error e, files) => (.refused e, { s with files })
    | (.ok part, files) => (.begun s.files.begun, ⟨files, s.parts.insert s.files.begun (.ofPart part)⟩)
  | .write k b =>
    match s.parts.get? k with
    | none => (.gone, s)
    | some w => (.done, ⟨(w.write b s.files).2, s.parts.insert k (w.write b s.files).1⟩)
  | .flush k =>
    match s.parts.get? k with
    | none => (.gone, s)
    | some w => (.done, ⟨(w.flush s.files).2, s.parts.insert k (w.flush s.files).1⟩)
  | .commit k =>
    match s.parts.get? k with
    | none => (.gone, s)
    | some w => (.committed (w.commit s.files).1, ⟨(w.commit s.files).2, s.parts.erase k⟩)
  | .drop k =>
    match s.parts.get? k with
    | none => (.gone, s)
    | some w => (.done, ⟨w.drop s.files, s.parts.erase k⟩)

/-- What an act came to, with the tree before it and after it. -/
structure Event where
  act : Act
  answer : Answer
  found : Disk
  left : Disk

def event (s : PartTable) (a : Act) : Event := ⟨a, (s.act a).1, s.files.disk, (s.act a).2.files.disk⟩

def run : List Act → PartTable → List Event
  | [], _ => []
  | a :: l, s => s.event a :: run l (s.act a).2

/-! What there ought to be. -/

/-- The part files that are open, each with its target and the bytes that it accepted, and the files that commits
have put at their targets. -/
structure Shelf where
  drafts : Nat → Option (String × Bytes)
  published : Place → Option Bytes

namespace Shelf

def empty : Shelf := ⟨fun _ => none, fun _ => none⟩

def hold (x : Shelf) (k : Nat) (target : String) (b : Bytes) : Shelf :=
  { x with drafts := fun j => if j = k then some (target, b) else x.drafts j }

def close (x : Shelf) (k : Nat) : Shelf := { x with drafts := fun j => if j = k then none else x.drafts j }

def publish (x : Shelf) (p : Place) (b : Bytes) : Shelf :=
  { x with published := fun q => if q = p then some b else x.published q }

/-- An event tells on the shelf. Paths lead where they led in the tree `d` that the run began with. -/
def after (d : Disk) (x : Shelf) (e : Event) : Shelf :=
  match e.act, e.answer with
  | .create target, .begun k => x.hold k target ByteArray.empty
  | .write k b, .done =>
    match x.drafts k with
    | none => x
    | some (target, a) => x.hold k target (a ++ b)
  | .commit k, .committed (.ok .written) =>
    match x.drafts k with
    | none => x
    | some (target, b) =>
      match d.resolve target with
      | .error _ => x.close k
      | .ok t => (x.publish t.place b).close k
  | .commit k, .committed _ => x.close k
  | .drop k, .done => x.close k
  | _, _ => x

/-- The shelf after some events. -/
def of (d : Disk) (past : List Event) : Shelf := past.foldl (after d) empty

/-- What is at a place if there is no part file. -/
def entry? (x : Shelf) (d : Disk) (p : Place) : Option Entry :=
  match x.published p with
  | some b => some (.file b Disk.defaultMode)
  | none => d.entry? p

theorem of_append (d : Disk) (past : List Event) (e : Event) : of d (past ++ [e]) = (of d past).after d e := by
  rw [of, List.foldl_append]
  rfl

theorem entry?_publish (x : Shelf) (d : Disk) (p : Place) (b : Bytes) (q : Place) :
    Shelf.entry? (x.publish p b) d q = if q = p then some (.file b Disk.defaultMode) else x.entry? d q := by
  by_cases hq : q = p <;> simp [publish, Shelf.entry?, hq]

theorem entry?_of_published {x : Shelf} {p : Place} {b : Bytes} (h : x.published p = some b) (d : Disk) :
    x.entry? d p = some (.file b Disk.defaultMode) := by
  simp [Shelf.entry?, h]

theorem entry?_eq_none_iff {x : Shelf} {d : Disk} {p : Place} :
    x.entry? d p = none ↔ x.published p = none ∧ d.entry? p = none := by
  cases hp : x.published p <;> simp [Shelf.entry?, hp]

theorem hold_self {x : Shelf} {k : Nat} {target : String} {b : Bytes} (h : x.drafts k = some (target, b)) :
    x.hold k target b = x := by
  have hdrafts : (x.hold k target b).drafts = x.drafts := by
    funext j
    simp only [hold]
    split
    · rename_i hj
      rw [hj, h]
    · rfl
  simp only [hold] at hdrafts ⊢
  rw [hdrafts]

end Shelf

/-! The tree as it is. -/

/-- An open part file: what it accepted is what the shelf says, and its hidden name is one that nothing else has. -/
structure Opened (files : FileStore) (x : Shelf) (f : FileStore) (k : Nat) (w : PartWriter) : Prop where
  begun : k < f.begun
  draft : ∃ b, x.drafts k = some (w.part.target, b) ∧ w.Fits f.disk b
  name_eq : w.part.place.name? = some (files.hiddenName k w.part.target)
  free : x.entry? files.disk w.part.place = none

/-- The tree shows what is on the shelf, in the place of each part file that part file, and else nothing that was not
there at the start. -/
structure Shows (files : FileStore) (x : Shelf) (s : PartTable) : Prop where
  same : Disk.SameDirectories files.disk s.files.disk
  owner_eq : s.files.owner = files.owner
  closed : ∀ {k}, s.parts.get? k = none → x.drafts k = none
  opened : ∀ {k w}, s.parts.get? k = some w → Opened files x s.files k w
  apart : ∀ {j k v w}, s.parts.get? j = some v → s.parts.get? k = some w → v.part.place = w.part.place → j = k
  elsewhere : ∀ {p}, (∀ k w, s.parts.get? k = some w → w.part.place ≠ p) →
    s.files.disk.entry? p = x.entry? files.disk p
  new : ∀ {p b}, x.published p = some b → files.disk.entry? p = none

variable {files f : FileStore} {x y : Shelf} {s : PartTable} {k : Nat} {w v : PartWriter} {b : Bytes}

/-- An open part file is not touched by what happens elsewhere. -/
theorem Opened.of_same {f f' : FileStore} (h : Opened files x f k w) (hbegun : f.begun ≤ f'.begun)
    (hsame : Disk.SameDirectories f.disk f'.disk) (he : f'.disk.entry? w.part.place = f.disk.entry? w.part.place)
    (hdraft : y.drafts k = x.drafts k) (hfree : y.entry? files.disk w.part.place = none) : Opened files y f' k w := by
  obtain ⟨b, hb, hfits⟩ := h.draft
  exact ⟨Nat.lt_of_lt_of_le h.begun hbegun, ⟨b, hdraft.trans hb, hfits.of_same hsame he⟩, h.name_eq, hfree⟩

theorem Opened.isSome (h : Opened files x f k w) : (f.disk.entry? w.part.place).isSome := by
  obtain ⟨b, -, hfits⟩ := h.draft
  obtain ⟨c, hc, -⟩ := hfits.holds
  simp [hc]

theorem Shows.ne_of_free (h : Shows files x s) (hw : s.parts.get? k = some w) {p : Place}
    (hp : s.files.disk.entry? p = none) : w.part.place ≠ p := by
  intro he
  have hsome := (h.opened hw).isSome
  rw [he, hp] at hsome
  cases hsome

theorem Shows.hiddenName_eq (h : Shows files x s) (k : Nat) (target : String) :
    s.files.hiddenName k target = files.hiddenName k target := by
  rw [FileStore.hiddenName, FileStore.hiddenName, FileStore.partName, FileStore.partName, h.owner_eq]

/-- Where nothing is, nothing ought to be. -/
theorem Shows.entry?_of_free (h : Shows files x s) {p : Place} (hp : s.files.disk.entry? p = none) :
    x.entry? files.disk p = none := by
  rw [← h.elsewhere fun k w hw => h.ne_of_free hw hp, hp]

theorem Shows.kept (h : Shows files x s) {p : Place} {a : Entry} (ha : x.entry? files.disk p = some a) :
    s.files.disk.entry? p = some a := by
  rw [h.elsewhere, ha]
  rintro k w hw rfl
  rw [(h.opened hw).free] at ha
  cases ha

theorem Shows.entry?_of_start (h : Shows files x s) {p : Place} {a : Entry} (ha : files.disk.entry? p = some a) :
    x.entry? files.disk p = some a := by
  cases hp : x.published p with
  | none => simp [Shelf.entry?, hp, ha]
  | some b =>
    rw [h.new hp] at ha
    cases ha

theorem Shows.exists_draft (h : Shows files x s) {p : Place} {a : Entry} (ha : s.files.disk.entry? p = some a)
    (hp : x.entry? files.disk p = none) :
    ∃ k target b c rest, x.drafts k = some (target, b) ∧ p.name? = some (files.hiddenName k target) ∧
      a = .file c Disk.defaultMode ∧ c ++ rest = b := by
  by_cases hw : ∃ k w, s.parts.get? k = some w ∧ w.part.place = p
  · obtain ⟨k, w, hw, rfl⟩ := hw
    obtain ⟨b, hb, hfits⟩ := (h.opened hw).draft
    obtain ⟨c, hc, hrest⟩ := hfits.holds
    exact ⟨k, _, b, c, _, hb, (h.opened hw).name_eq, Option.some.inj (ha.symm.trans hc), hrest⟩
  · rw [h.elsewhere fun k w hk he => hw ⟨k, w, hk, he⟩, hp] at ha
    cases ha

theorem Shows.isSome_iff (h : Shows files x s) : (x.drafts k).isSome ↔ ∃ w, s.parts.get? k = some w := by
  cases hw : s.parts.get? k with
  | none => simp [h.closed hw]
  | some w =>
    obtain ⟨b, hb, -⟩ := (h.opened hw).draft
    simp [hb]

theorem Shows.get?_of_closed (h : Shows files x s) (hk : x.drafts k = none) : s.parts.get? k = none := by
  cases hw : s.parts.get? k with
  | none => rfl
  | some w => simpa [hk] using h.isSome_iff.mpr ⟨w, hw⟩

theorem Shows.new_start (files : FileStore) : Shows files .empty (.new files) where
  same := .refl _
  owner_eq := rfl
  closed := fun _ => rfl
  opened := fun h => by cases h
  apart := fun h => by cases h
  elsewhere := fun _ => rfl
  new := fun h => by cases h

/-- A part file that could not be begun has had its number. -/
theorem Shows.spent (h : Shows files x s) : Shows files x { s with files := s.files.spent } where
  same := h.same
  owner_eq := h.owner_eq
  closed := h.closed
  opened := fun hw => (h.opened hw).of_same (Nat.le_succ _) (.refl _) rfl rfl (h.opened hw).free
  apart := h.apart
  elsewhere := h.elsewhere
  new := h.new

/-- A file that comes to a free place. -/
theorem Shows.publish (h : Shows files x s) {p : Place} (hp : s.files.disk.entry? p = none) (b : Bytes) :
    Shows files (x.publish p b) { s with files := s.files.holding p b } := by
  have hroot := Disk.ne_root_of_free hp
  have hset : Disk.Changed s.files.disk p _ (s.files.holding p b).disk :=
    Disk.changed_set hroot (.file b Disk.defaultMode)
  have hsame : Disk.SameDirectories s.files.disk (s.files.holding p b).disk :=
    Disk.sameDirectories_set hroot hp b Disk.defaultMode
  constructor
  case same => exact h.same.trans hsame
  case owner_eq => exact h.owner_eq
  case closed => exact h.closed
  case opened =>
    intro k w hw
    have hne := h.ne_of_free hw hp
    refine (h.opened hw).of_same (Nat.le_refl _) hsame (hset.entry?_of_ne hne) rfl ?_
    rw [Shelf.entry?_publish, if_neg hne, (h.opened hw).free]
  case apart => exact h.apart
  case elsewhere =>
    intro q hq
    rw [Shelf.entry?_publish, hset.entry?_eq, h.elsewhere hq]
  case new =>
    intro q c hc
    by_cases hq : q = p
    · rw [hq]
      exact (Shelf.entry?_eq_none_iff.mp (h.entry?_of_free hp)).2
    · refine h.new (b := c) ?_
      simpa [Shelf.publish, hq] using hc

/-- An open part file that comes, or is written to, changes the tree at its own place. -/
theorem Shows.insert (h : Shows files x s) {e : Entry} (hchanged : s.files.disk.Changed w.part.place (some e) f.disk)
    (hold : s.files.disk.entry? w.part.place ≠ some .directory) (he : e ≠ .directory)
    (howner : f.owner = s.files.owner) (hbegun : s.files.begun ≤ f.begun)
    (hmine : ∀ {j v}, s.parts.get? j = some v → (v.part.place = w.part.place ↔ j = k))
    (hopened : Opened files (x.hold k w.part.target b) f k w) :
    Shows files (x.hold k w.part.target b) ⟨f, s.parts.insert k w⟩ := by
  have hsame := hchanged.sameDirectories hold (by simpa using he)
  have hget (j : Nat) : (s.parts.insert k w).get? j = if j = k then some w else s.parts.get? j :=
    SortedMap.get?_insert ..
  constructor
  case same => exact h.same.trans hsame
  case owner_eq => exact howner.trans h.owner_eq
  case closed =>
    intro j hj
    rw [hget] at hj
    split at hj
    · cases hj
    · rename_i hne
      simpa [Shelf.hold, hne] using h.closed hj
  case opened =>
    intro j v hv
    rw [hget] at hv
    split at hv
    · rename_i hjk
      cases hv
      rwa [hjk]
    · rename_i hne
      have hplace : v.part.place ≠ w.part.place := fun hp => hne ((hmine hv).mp hp)
      exact (h.opened hv).of_same hbegun hsame (hchanged.entry?_of_ne hplace) (by simp [Shelf.hold, hne])
        (h.opened hv).free
  case apart =>
    intro i j u v hu hv hplace
    rw [hget] at hu hv
    split at hu <;> split at hv
    · rename_i hi hj
      rw [hi, hj]
    · cases hu
      exact absurd ((hmine hv).mp hplace.symm) ‹_›
    · cases hv
      exact absurd ((hmine hu).mp hplace) ‹_›
    · exact h.apart hu hv hplace
  case elsewhere =>
    intro p hp
    have hw : w.part.place ≠ p := hp k w (by rw [hget, if_pos rfl])
    rw [hchanged.entry?_of_ne hw.symm]
    refine h.elsewhere fun j v hv hv' => ?_
    have hj : j ≠ k := fun hj => hw (((hmine hv).mpr hj).symm.trans hv')
    exact hp j v (by rw [hget, if_neg hj, hv]) hv'
  case new => exact h.new

/-- A part file that is begun is at a place of its own. -/
theorem Shows.begins (h : Shows files x s) {target : String} {part : PartFile}
    (hc : s.files.createPart target = (.ok part, f)) :
    Shows files (x.hold s.files.begun target ByteArray.empty)
      ⟨f, s.parts.insert s.files.begun (.ofPart part)⟩ := by
  have hname := FileStore.name?_of_createPart hc
  obtain ⟨rfl, t, hbegins⟩ := FileStore.begins_of_createPart hc
  obtain ⟨place, named, slash⟩ := t
  obtain ⟨hresolve, rfl, rfl, hfree, hplace, rfl⟩ := hbegins
  simp only at hplace hfree
  subst hplace
  have hset : s.files.disk.Changed part.place _ (s.files.spent.holding part.place ByteArray.empty).disk :=
    Disk.changed_set (Disk.ne_root_of_free hfree) (.file ByteArray.empty Disk.defaultMode)
  have hsame := hset.sameDirectories (by simp [hfree]) (by simp)
  refine h.insert (w := .ofPart part) hset (by simp [PartWriter.ofPart, hfree]) (by simp) rfl (Nat.le_succ _) ?_ ?_
  · intro j v hv
    refine iff_of_false (h.ne_of_free hv hfree) ?_
    rintro rfl
    exact Nat.lt_irrefl _ (h.opened hv).begun
  · have hfits : (PartWriter.ofPart part).Fits (s.files.spent.holding part.place ByteArray.empty).disk
        ByteArray.empty :=
      ⟨hsame.resolve_eq hresolve, _, hset.entry?_self, ByteArray.append_empty⟩
    refine ⟨Nat.lt_succ_self _, ⟨_, by simp [Shelf.hold], hfits⟩, ?_, h.entry?_of_free hfree⟩
    rw [← h.hiddenName_eq]
    exact hname

/-- A part file that is written to stays where it is. -/
theorem Shows.puts (h : Shows files x s) (hw : s.parts.get? k = some w) (hputs : w.Puts s.files b v f) :
    Shows files (x.hold k w.part.target b) ⟨f, s.parts.insert k v⟩ := by
  have hopened := h.opened hw
  obtain ⟨a, -, hfits⟩ := hopened.draft
  obtain ⟨e, he, hchanged⟩ := hputs.changed
  rw [← hputs.place_eq] at hchanged
  rw [← hputs.target_eq]
  refine h.insert hchanged (hputs.place_eq ▸ hfits.not_directory) he hputs.owner_eq
    (Nat.le_of_eq hputs.begun_eq.symm) ?_ ?_
  · intro j u hu
    rw [hputs.place_eq]
    constructor
    · exact h.apart hu hw
    · rintro rfl
      rw [Option.some.inj (hu.symm.trans hw)]
  · refine ⟨hputs.begun_eq ▸ hopened.begun, ⟨b, by simp [Shelf.hold], hputs.fits⟩, ?_, ?_⟩
    · rw [hputs.place_eq, hputs.target_eq, hopened.name_eq]
    · rw [hputs.place_eq]
      exact hopened.free

/-- A part file that is committed or dropped leaves its place as free as it was. -/
theorem Shows.close (h : Shows files x s) (hw : s.parts.get? k = some w) (hspends : w.Spends s.files f) :
    Shows files (x.close k) ⟨f, s.parts.erase k⟩ := by
  have hopened := h.opened hw
  obtain ⟨a, -, hfits⟩ := hopened.draft
  have hsame := hspends.changed.sameDirectories hfits.not_directory (by simp)
  have hget (j : Nat) : (s.parts.erase k).get? j = if j = k then none else s.parts.get? j := SortedMap.get?_erase ..
  have hget_eq {j : Nat} {v : PartWriter} (hv : (s.parts.erase k).get? j = some v) :
      j ≠ k ∧ s.parts.get? j = some v := by
    rw [hget] at hv
    split at hv
    · cases hv
    · exact ⟨‹_›, hv⟩
  constructor
  case same => exact h.same.trans hsame
  case owner_eq => exact hspends.owner_eq.trans h.owner_eq
  case closed =>
    intro j hj
    by_cases hjk : j = k
    · simp [Shelf.close, hjk]
    · rw [hget, if_neg hjk] at hj
      simpa [Shelf.close, hjk] using h.closed hj
  case opened =>
    intro j v hv
    obtain ⟨hjk, hv⟩ := hget_eq hv
    have hplace : v.part.place ≠ w.part.place := fun hp => hjk (h.apart hv hw hp)
    exact (h.opened hv).of_same (Nat.le_of_eq hspends.begun_eq.symm) hsame (hspends.changed.entry?_of_ne hplace)
      (by simp [Shelf.close, hjk]) (h.opened hv).free
  case apart => exact fun hu hv => h.apart (hget_eq hu).2 (hget_eq hv).2
  case elsewhere =>
    intro p hp
    by_cases hpw : p = w.part.place
    · rw [hpw, hspends.changed.entry?_self]
      exact hopened.free.symm
    · rw [hspends.changed.entry?_of_ne hpw]
      refine h.elsewhere fun j v hv hv' => ?_
      have hjk : j ≠ k := by
        rintro rfl
        exact hpw (Option.some.inj (hv.symm.trans hw) ▸ hv'.symm)
      exact hp j v (by rw [hget, if_neg hjk, hv]) hv'
  case new => exact h.new

/-- An act tells on the tree as its event tells on the shelf. -/
theorem Shows.act (h : Shows files x s) (a : Act) : Shows files (x.after files.disk (s.event a)) (s.act a).2 := by
  cases a with
  | create target =>
    rcases hc : s.files.createPart target with ⟨e | part, f⟩
    · obtain rfl := FileStore.createPart_error hc
      simpa only [event, PartTable.act, hc, Shelf.after] using h.spent
    · simpa only [event, PartTable.act, hc, Shelf.after] using h.begins hc
  | write k b =>
    cases hw : s.parts.get? k with
    | none => simpa only [event, PartTable.act, hw, Shelf.after] using h
    | some w =>
      obtain ⟨a, ha, hfits⟩ := (h.opened hw).draft
      simpa only [event, PartTable.act, hw, Shelf.after, ha] using h.puts hw (hfits.write b)
  | flush k =>
    cases hw : s.parts.get? k with
    | none => simpa only [event, PartTable.act, hw, Shelf.after] using h
    | some w =>
      obtain ⟨a, ha, hfits⟩ := (h.opened hw).draft
      have hputs := h.puts hw hfits.flush
      rw [Shelf.hold_self ha] at hputs
      simpa only [event, PartTable.act, hw, Shelf.after] using hputs
  | commit k =>
    cases hw : s.parts.get? k with
    | none => simpa only [event, PartTable.act, hw, Shelf.after] using h
    | some w =>
      obtain ⟨b, hb, hfits⟩ := (h.opened hw).draft
      have hcommit := hfits.commit
      simp only [event, PartTable.act, hw]
      generalize w.commit s.files = r at hcommit
      obtain ⟨r, f⟩ := r
      cases hcommit with
      | written ht habsent hspends =>
        -- the content comes to the target while the part file is still there, and then that one goes
        simp only [Shelf.after, hb, h.same.symm.resolve_eq ht]
        exact (h.publish habsent.2.2 b).close hw hspends
      | taken ht htaken hspends => exact h.close hw hspends
      | failed hneither hspends => exact h.close hw hspends
  | drop k =>
    cases hw : s.parts.get? k with
    | none => simpa only [event, PartTable.act, hw, Shelf.after] using h
    | some w =>
      obtain ⟨b, -, hfits⟩ := (h.opened hw).draft
      simpa only [event, PartTable.act, hw, Shelf.after] using h.close hw hfits.drop

end PartTable
end ChunkRelay
