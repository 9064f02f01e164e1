import ChunkRelay.Proofs.Confinement
import ChunkRelay.Proofs.Indexing
import ChunkRelay.Proofs.Placement

/-! A datastore that another writer uses as well, and may put a content into while a transfer of the same content is under
way. A payload that is then reported to be there already has added nothing to the datastore. But if it was committed to a
new file before its record was refused, that file stays, and no record need speak of it. -/
namespace ChunkRelay

/-- A datastore with another writer: before each call on it, that one has a turn. -/
structure Shared (δ : Type) where
  store : δ
  /-- What the other writer puts in at its next turns. -/
  coming : List (List Message)

namespace Shared

variable {δ ν β : Type} [Datastore δ]

/-- The other writer has its turn. -/
def turn (s : Shared δ) : Shared δ where
  store := (s.coming.headD []).foldl (fun d m => (Datastore.persist m d).2) s.store
  coming := s.coming.tail

def call (f : δ → Except String β × δ) (s : Shared δ) : Except String β × Shared δ :=
  ((f s.turn.store).1, { s.turn with store := (f s.turn.store).2 })

instance : Datastore (Shared δ) where
  countPath p := call (Datastore.countPath p)
  hasKey k := call (Datastore.hasKey k)
  persist m := call (Datastore.persist m)
  get? k := call (Datastore.get? k)
  known := call Datastore.known

theorem persist_eq (m : Message) (s : Shared δ) : Datastore.persist m s =
    ((Datastore.persist m s.turn.store).1, { s.turn with store := (Datastore.persist m s.turn.store).2 }) := rfl

/-- From one state to another by turns of the other writer, and by calls that do not change what is held. -/
inductive Passive (held : δ → ν) (s : Shared δ) : Shared δ → Prop
  | refl : Passive held s s
  | call {t : Shared δ} {d : δ} : Passive held s t → held d = held t.turn.store →
      Passive held s { t.turn with store := d }

variable {held : δ → Hash → Option Message} {s t u : Shared δ} {m : Message}

theorem Passive.hasKey (h : Passive held s t) (hd : Datastore.Lawful held) (k : Hash) :
    Passive held s (Datastore.hasKey k t).2 :=
  h.call (hd.held_hasKey k t.turn.store)

theorem Passive.countPath (h : Passive held s t) (hd : Datastore.Lawful held) (p : String) :
    Passive held s (Datastore.countPath p t).2 :=
  h.call (hd.held_countPath p t.turn.store)

theorem Passive.persist (h : Passive held s t) (hd : Datastore.Lawful held)
    (hp : Datastore.persist m t = (.ok false, u)) : Passive held s u := by
  obtain ⟨hfalse, rfl⟩ := Prod.mk.inj hp
  refine h.call (funext fun k => ?_)
  simpa using (hd.persist_ok (Prod.ext hfalse rfl)).2 k

end Shared

namespace Assembler

open PacketFeed

variable {σ δ : Type} [PacketFeed σ] [Datastore δ]

section

variable {a b : Assembler δ} {h : Header} {l : List Sequence}

/-- Whether a content is known is asked in one call or two. -/
theorem store_of_isKnown {k : Hash} {p : String} {r : Except TransferError Bool} (hk : a.isKnown k p = (r, b)) :
    b.threshold = a.threshold ∧ (b.store = (Datastore.hasKey k a.store).2 ∨
      b.store = (Datastore.countPath p (Datastore.hasKey k a.store).2).2) := by
  unfold isKnown at hk
  split at hk
  · rename_i hhas
    cases hk
    exact ⟨rfl, .inl (by rw [hhas])⟩
  · rename_i hhas
    cases hk
    exact ⟨rfl, .inl (by rw [hhas])⟩
  · rename_i hhas
    split at hk <;> rename_i hcount <;> cases hk <;> exact ⟨rfl, .inr (by rw [hhas, hcount])⟩

theorem refused_of_persistInline {content : Bytes} (hp : a.persistInline h content = (.ok .duplicate, b)) :
    b.files = a.files ∧ Datastore.persist (.ofHeader h (.inline content)) a.store = (.ok false, b.store) := by
  unfold persistInline at hp
  split at hp
  · cases hp
  · cases hp
  · rename_i hpersist
    cases hp
    exact ⟨rfl, hpersist⟩

theorem refused_of_persistFile {path : String} {w : Commit} (hp : a.persistFile h path w = (.ok .duplicate, b)) :
    b.files = a.files ∧ Datastore.persist (.ofHeader h (.file path)) a.store = (.ok false, b.store) := by
  unfold persistFile at hp
  split at hp
  · cases hp
  · rename_i hpersist
    cases hp
    exact ⟨rfl, hpersist⟩
  · cases hp

/-- The payload goes into a new file: it is not known when that is asked, it is wanted on disk or too long for memory, and
nothing is at its path. -/
structure Strands (a : Assembler δ) (h : Header) (l : List Sequence) : Prop where
  unknown : (a.isKnown h.contentKey (a.files.pathFor h)).1 = .ok false
  large : h.toDisk = true ∨ a.threshold < (Sequence.content l).size
  free : ∃ t, a.files.disk.resolve (a.files.pathFor h) = .ok t ∧ a.files.disk.Absent t

/-- Committing leaves one new file where the path was free, and else nothing. -/
theorem disk_of_commit {files f f' : FileStore} {part : PartFile} {b : Bytes} {w : Commit} (hm : h.Made)
    (he : h.endOfStream = false) (hpart : files.createPart (files.pathFor h) = (.ok part, f))
    (hcommit : (f.writePart part b).2.commit (f.writePart part b).1 = (.ok w, f')) :
    (∃ t, files.disk.resolve (files.pathFor h) = .ok t ∧ files.disk.Absent t ∧
      f'.disk = files.disk.set t.place (.file b Disk.defaultMode)) ∨
    ((∀ t, files.disk.resolve (files.pathFor h) = .ok t → ¬ files.disk.Absent t) ∧ f'.disk = files.disk) := by
  obtain ⟨rfl, t, hbegins⟩ := FileStore.begins_of_createPart hpart
  rw [FileStore.writePart_holding, ByteArray.empty_append] at hcommit
  rcases hbegins.commit_cases hcommit with ⟨-, u, hu, hfree, hnamed, hslash, rfl⟩ | ⟨-, rfl, u, hu, htaken⟩ |
    ⟨⟨x, hx⟩, -⟩
  · exact .inl ⟨u, hu, ⟨hnamed, hslash, hfree⟩, rfl⟩
  · refine .inr ⟨fun v hv habsent => ?_, rfl⟩
    obtain rfl : u = v := Except.ok.inj (hu.symm.trans hv)
    obtain ⟨p, -, rfl⟩ := FileStore.target_pathFor hm he hu
    rcases htaken with hnamed | hsame | hsome
    · cases hnamed
    · exact hbegins.place_ne hpart hm he p hsame
    · rw [habsent.2.2] at hsome
      cases hsome
  · cases hx

end

variable {held : δ → Hash → Option Message} {a b : Assembler (Shared δ)} {h : Header} {l : List Sequence} {packets : σ}

theorem passive_isKnown (hd : Datastore.Lawful held) {k : Hash} {p : String} {r : Except TransferError Bool}
    (hk : a.isKnown k p = (r, b)) : Shared.Passive held a.store b.store := by
  rcases (store_of_isKnown hk).2 with hstore | hstore <;> rw [hstore]
  · exact Shared.Passive.refl.hasKey hd k
  · exact (Shared.Passive.refl.hasKey hd k).countPath hd p

/-- What a payload leaves that is reported to be there already: nothing but, if it went into a new file, that file. -/
structure Dropped (held : δ → Hash → Option Message) (a : Assembler (Shared δ)) (h : Header) (l : List Sequence)
    (b : Assembler (Shared δ)) : Prop where
  passive : Shared.Passive held a.store b.store
  stranded : a.Strands h l → ∃ t, a.files.disk.resolve (a.files.pathFor h) = .ok t ∧ a.files.disk.Absent t ∧
    b.files.disk = a.files.disk.set t.place (.file (Sequence.content l) Disk.defaultMode)
  unmoved : ¬ a.Strands h l → b.files.disk = a.files.disk

theorem dropped_of_known (hd : Datastore.Lawful held)
    (hk : a.isKnown h.contentKey (a.files.pathFor h) = (.ok true, b)) (l : List Sequence) : Dropped held a h l b := by
  refine ⟨passive_isKnown hd hk, fun hstrands => ?_, fun _ => congrArg FileStore.disk (files_of_isKnown hk)⟩
  have hunknown := hstrands.unknown
  rw [hk] at hunknown
  cases hunknown

theorem dropped_of_persistInline (hd : Datastore.Lawful held) {c : Assembler (Shared δ)}
    (hk : a.isKnown h.contentKey (a.files.pathFor h) = (.ok false, b)) (hdisk : h.toDisk = false)
    (hsize : (Sequence.content l).size ≤ b.threshold)
    (hp : b.persistInline h (Sequence.content l) = (.ok .duplicate, c)) : Dropped held a h l c := by
  obtain ⟨hfiles, hpersist⟩ := refused_of_persistInline hp
  refine ⟨(passive_isKnown hd hk).persist hd hpersist, fun hstrands => ?_, fun _ => ?_⟩
  · rw [(store_of_isKnown hk).1] at hsize
    exact absurd hstrands.large (by simp [hdisk, Nat.not_lt.mpr hsize])
  · rw [hfiles, files_of_isKnown hk]

theorem dropped_of_persistFile (hd : Datastore.Lawful held) (hm : h.Made) (he : h.endOfStream = false)
    {c : Assembler (Shared δ)} (hk : a.isKnown h.contentKey (a.files.pathFor h) = (.ok false, b))
    (hbig : h.toDisk = true ∨ b.threshold < (Sequence.content l).size) {part : PartFile} {f f' : FileStore}
    (hpart : b.files.createPart (a.files.pathFor h) = (.ok part, f)) {w : Commit}
    (hcommit : (f.writePart part (Sequence.content l)).2.commit (f.writePart part (Sequence.content l)).1 = (.ok w, f'))
    (hp : { b with files := f' }.persistFile h (a.files.pathFor h) w = (.ok .duplicate, c)) : Dropped held a h l c := by
  obtain ⟨hfiles, hpersist⟩ := refused_of_persistFile hp
  rw [files_of_isKnown hk] at hpart
  have hpassive := (passive_isKnown hd hk).persist hd hpersist
  rcases disk_of_commit hm he hpart hcommit with ⟨t, ht, habsent, hdisk⟩ | ⟨htaken, hdisk⟩
  · refine ⟨hpassive, fun _ => ⟨t, ht, habsent, by rw [hfiles, hdisk]⟩, fun hstrands => ?_⟩
    exact absurd ⟨by rw [hk], (store_of_isKnown hk).1 ▸ hbig, t, ht, habsent⟩ hstrands
  · refine ⟨hpassive, fun hstrands => ?_, fun _ => by rw [hfiles, hdisk]⟩
    obtain ⟨t, ht, habsent⟩ := hstrands.free
    exact absurd habsent (htaken t ht)

/-- A payload that is reported to be there already came in full, and this transfer has added nothing to the datastore,
whatever the other writer put into it in the meantime. The files are as they were, unless the payload went into a new
file before its record was refused: then that file is left. -/
theorem dropped_of_duplicate (hd : Datastore.Lawful held) (hm : h.Made) {u : Session σ}
    (hass : a.assemble (Session.inbound h packets) = (.ok .duplicate, b, u)) :
    ∃ l v, Drains (Verified.new h packets) l v ∧ Dropped held a h l b := by
  obtain ⟨l, e, v, hr⟩ := Verified.exists_runs (Verified.new h packets) rfl
  have ht := takes_assemble a hr h.endOfStream _ _ _ hass
  generalize u.state = state, hduplicate : Except.ok Outcome.duplicate = r at ht
  cases ht with
  | ending he => cases e <;> cases hduplicate
  | known he hk =>
    cases e with
    | some x => cases hduplicate
    | none => exact ⟨l, v, hr, dropped_of_known hd hk l⟩
  | inline he hk hx hdisk hsize hp =>
    subst hx hduplicate
    exact ⟨l, v, hr, dropped_of_persistInline hd hk hdisk hsize hp⟩
  | file he hk hx hbig hpart hcommit hp =>
    subst hx hduplicate
    exact ⟨l, v, hr, dropped_of_persistFile hd hm he hk hbig hpart hcommit hp⟩
  | _ => cases hduplicate

/-- A node that holds nothing, with another writer that puts in the two bytes once they have been looked for. -/
def contendedNode (threshold : Nat) : Assembler (Shared MemoryStore) :=
  ⟨⟨.empty, [[], [], [pairMessage]]⟩, emptyFiles, threshold⟩

/-- By then they are not known, and later no record of theirs is taken any more. -/
theorem isKnown_contendedNode (t : Nat) :
    ∃ s : Shared MemoryStore, (contendedNode t).isKnown pair.contentKey (emptyFiles.pathFor pair) =
        (.ok false, ⟨s, emptyFiles, t⟩) ∧
      ∀ body, Datastore.persist (.ofHeader pair body) s = (.ok false, ⟨MemoryStore.empty.add pairMessage, []⟩) := by
  refine ⟨⟨.empty, [[pairMessage]]⟩, rfl, fun body => ?_⟩
  have hturn : (⟨.empty, [[pairMessage]]⟩ : Shared MemoryStore).turn = ⟨MemoryStore.empty.add pairMessage, []⟩ :=
    congrArg (fun r => (⟨r.2, []⟩ : Shared MemoryStore)) (MemoryStore.persist_of_new (m := pairMessage) rfl)
  have hheld : ((MemoryStore.empty.add pairMessage).messages.get? pair.contentKey).isSome :=
    MemoryStore.isSome_add_iff.mpr (.inr rfl)
  have hpersist := MemoryStore.persist_of_held (m := .ofHeader pair body) hheld
  rw [Shared.persist_eq, hturn, hpersist]

/-- Two bytes that stay in memory leave nothing. -/
theorem dropped_of_contended_pair :
    ∃ b s, (contendedNode 2).assemble (Session.inbound pair (pairPackets.map .ok : List Delivery)) =
        (.ok .duplicate, b, s) ∧
      ∃ l v, Drains (Verified.new pair (pairPackets.map .ok : List Delivery)) l v ∧
        Dropped (fun s k => s.messages.get? k) (contendedNode 2) pair l b := by
  obtain ⟨s, hk, hpersist⟩ := isKnown_contendedNode 2
  have hcontent : Sequence.content pairPackets = ⟨#[7, 8]⟩ := by decide
  have hp : persistInline ⟨s, emptyFiles, 2⟩ pair (Sequence.content pairPackets) =
      (.ok .duplicate, ⟨⟨MemoryStore.empty.add pairMessage, []⟩, emptyFiles, 2⟩) := by
    rw [persistInline, hpersist]
  obtain ⟨v, hr⟩ := drains_pair
  obtain ⟨u, hass⟩ := assemble_inline hr rfl hk rfl (by rw [hcontent]; exact Nat.le_refl 2) hp pair.endOfStream
  exact ⟨_, u, hass, dropped_of_duplicate MemoryStore.lawful made_pair hass⟩

/-- Two bytes that go into a file are left in it, and the one record there is does not speak of it. -/
theorem stranded_of_contended_pair :
    ∃ b s, (contendedNode 1).assemble (Session.inbound pair (pairPackets.map .ok : List Delivery)) =
        (.ok .duplicate, b, s) ∧
      (contendedNode 1).files.disk.exists? (emptyFiles.pathFor pair) = false ∧
      b.files.disk.read (emptyFiles.pathFor pair) = .ok ⟨#[7, 8]⟩ ∧ b.store.store = MemoryStore.empty.add pairMessage ∧
      b.store.store.filePaths = [] := by
  obtain ⟨s, hk, hpersist⟩ := isKnown_contendedNode 1
  have hcontent : Sequence.content pairPackets = ⟨#[7, 8]⟩ := by decide
  obtain ⟨part, f, w, f', hpart, hcommit, hread⟩ := (free_pair.accepts (Sequence.content pairPackets)).commit made_pair rfl
  have hp : persistFile ⟨s, f', 1⟩ pair (emptyFiles.pathFor pair) w =
      (.ok .duplicate, ⟨⟨MemoryStore.empty.add pairMessage, []⟩, f', 1⟩) := by
    rw [persistFile, hpersist]
  obtain ⟨v, hr⟩ := drains_pair
  obtain ⟨u, hass⟩ := assemble_file hr rfl hk (.inr (by rw [hcontent]; exact Nat.one_lt_two)) hpart hcommit hp pair.endOfStream
  exact ⟨_, u, hass, free_pair.not_exists, hread.trans (congrArg _ hcontent), rfl, rfl⟩

end Assembler
end ChunkRelay
