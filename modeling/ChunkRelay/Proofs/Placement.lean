import ChunkRelay.Proofs.Consistency
import ChunkRelay.Proofs.Datastores

/-! Where a payload goes, and what is found there. A payload that is new is kept in memory or in a file, with the
same bytes either way. A file that stands at its path is not written over, nor is it looked into, so the payload is
reported to be there whatever it holds. -/
namespace ChunkRelay
namespace Assembler

open PacketFeed

variable {σ δ : Type} [PacketFeed σ] [Datastore δ] {a b : Assembler δ} {h : Header}

section New

variable {held : δ → Hash → Option Message} {packets : σ} {l : List Sequence} {v : Verified σ}

/-- A datastore that says that it does not know a content holds no record of it. -/
theorem held_of_isKnown (hd : Datastore.Lawful held) {k : Hash} {p : String}
    (hk : a.isKnown k p = (.ok false, b)) : held b.store k = none := by
  obtain ⟨d, d', hkey, hcount, rfl⟩ := isKnown_eq_false hk
  have hnew := hd.hasKey_ok hkey
  have hheld : held d' = held a.store := by
    rw [← hd.held_hasKey k a.store, hkey, ← hd.held_countPath p d, hcount]
  change held d' k = none
  rw [hheld]
  simpa using hnew.symm

/-- A new payload that is short is kept in memory, and no file is touched. -/
theorem inline_of_new (hd : Datastore.Lawful held) (hr : Drains (Verified.new h packets) l v)
    (he : h.endOfStream = false) (hk : a.isKnown h.contentKey (a.files.pathFor h) = (.ok false, b))
    (hs : Datastore.Serves b.store (.ofHeader h (.inline (Sequence.content l)))) (hdisk : h.toDisk = false)
    (hsize : (Sequence.content l).size ≤ a.threshold) (last : Bool) :
    ∃ c s d, a.assemble (Session.withPackets h packets last) = (.ok (.inline (Sequence.content l)), c, s) ∧
      Datastore.get? h.contentKey c.store = (.ok (some (.ofHeader h (.inline (Sequence.content l)))), d) ∧
      c.files = a.files := by
  obtain ⟨d', d, hp, hg⟩ := hs.of_new hd (held_of_isKnown hd hk)
  obtain ⟨_, d₀, -, -, rfl⟩ := isKnown_eq_false hk
  have hpersist : persistInline { a with store := d₀ } h (Sequence.content l) =
      (.ok (.inline (Sequence.content l)), { a with store := d' }) := by
    simp only [persistInline, hp]
  obtain ⟨s, hass⟩ := assemble_inline hr he hk hdisk hsize hpersist last
  exact ⟨_, s, d, hass, hg, rfl⟩

/-- A new payload that is long, or is wanted on disk, is kept in a file. -/
theorem file_of_new (hd : Datastore.Lawful held) (hm : h.Made) (hr : Drains (Verified.new h packets) l v)
    (he : h.endOfStream = false) (hk : a.isKnown h.contentKey (a.files.pathFor h) = (.ok false, b))
    (hs : Datastore.Serves b.store (.ofHeader h (.file (a.files.pathFor h))))
    (hbig : h.toDisk = true ∨ a.threshold < (Sequence.content l).size)
    (ha : a.files.Accepts (a.files.pathFor h) (Sequence.content l)) (last : Bool) :
    ∃ c s d, a.assemble (Session.withPackets h packets last) = (.ok (.file (a.files.pathFor h)), c, s) ∧
      Datastore.get? h.contentKey c.store = (.ok (some (.ofHeader h (.file (a.files.pathFor h)))), d) ∧
      c.files.disk.read (a.files.pathFor h) = .ok (Sequence.content l) := by
  obtain ⟨d', d, hp, hg⟩ := hs.of_new hd (held_of_isKnown hd hk)
  obtain ⟨_, d₀, -, -, rfl⟩ := isKnown_eq_false hk
  obtain ⟨part, f, w, f', hpart, hcommit, hread⟩ := ha.commit hm he
  have hpersist : persistFile ⟨d₀, f', a.threshold⟩ h (a.files.pathFor h) w =
      (.ok (.file (a.files.pathFor h)), ⟨d', f', a.threshold⟩) := by
    simp only [persistFile, hp]
  obtain ⟨s, hass⟩ := assemble_file hr he hk hbig hpart hcommit hpersist last
  exact ⟨_, s, d, hass, hg, hread⟩

/-- Where a payload is kept does not change it. If the datastore knows neither its key nor its path and fails in
nothing, a payload that may stay in memory and is no longer than the threshold does so, and no file is touched;
any other is found in its file, if that can be made. The record of the message says which. -/
theorem assemble_new (hd : Datastore.Lawful held) (hm : h.Made) (he : h.endOfStream = false)
    (hr : Drains (Verified.new h packets) l v)
    (hk : a.isKnown h.contentKey (a.files.pathFor h) = (.ok false, b))
    (hs : ∀ body, Datastore.Serves b.store (.ofHeader h body)) :
    (h.toDisk = false → (Sequence.content l).size ≤ a.threshold →
      ∃ c s d, a.assemble (Session.inbound h packets) = (.ok (.inline (Sequence.content l)), c, s) ∧
        Datastore.get? h.contentKey c.store = (.ok (some (.ofHeader h (.inline (Sequence.content l)))), d) ∧
        c.files = a.files) ∧
    (h.toDisk = true ∨ a.threshold < (Sequence.content l).size → a.files.Free (a.files.pathFor h) →
      ∃ c s d, a.assemble (Session.inbound h packets) = (.ok (.file (a.files.pathFor h)), c, s) ∧
        Datastore.get? h.contentKey c.store = (.ok (some (.ofHeader h (.file (a.files.pathFor h)))), d) ∧
        c.files.disk.read (a.files.pathFor h) = .ok (Sequence.content l)) :=
  ⟨fun hdisk hsize => inline_of_new hd hr he hk (hs _) hdisk hsize h.endOfStream,
    fun hbig hfree => file_of_new hd hm hr he hk (hs _) hbig (hfree.accepts _) h.endOfStream⟩

/-- A header for two bytes, with a chunk for each. -/
def pair : Header :=
  { application := some "chat", blockSize := some 1
    hashes := [Hash.chunk 0 ⟨#[7]⟩, Hash.chunk 1 ⟨#[8]⟩] : Header.Draft }.header

def pairPackets : List Sequence := [.ofChunk 0 ⟨#[7]⟩, .ofChunk 1 ⟨#[8]⟩]

/-- The two bytes in memory. -/
def pairMessage : Message := .ofHeader pair (.inline ⟨#[7, 8]⟩)

theorem made_pair : pair.Made :=
  .built (d := { application := some "chat", blockSize := some 1
                 hashes := [Hash.chunk 0 ⟨#[7]⟩, Hash.chunk 1 ⟨#[8]⟩] }) rfl

theorem drains_pair : ∃ v, Drains (Verified.new pair (pairPackets.map .ok : List Delivery)) pairPackets v :=
  ⟨_, Verified.drains_of_listed (drains_list pairPackets) (.cons rfl rfl (.cons rfl rfl .nil))⟩

/-- A working directory with nothing in it, which is the cache as well. -/
def emptyFiles : FileStore := ⟨.ofWorkDir ⟨#["node"]⟩, ".", "user", 0, 0⟩

theorem freeName_pair : emptyFiles.disk.FreeName pair.storageName :=
  FileStore.freeName_storageName made_pair rfl (by decide +kernel)

theorem free_pair : emptyFiles.Free (emptyFiles.pathFor pair) :=
  FileStore.free_join_dot freeName_pair
    (FileStore.freeName_partName made_pair rfl (by decide +kernel))

/-- A node that holds nothing. -/
def emptyNode (threshold : Nat) : Assembler MemoryStore := ⟨.empty, emptyFiles, threshold⟩

theorem isKnown_emptyNode (t : Nat) :
    (emptyNode t).isKnown pair.contentKey (emptyFiles.pathFor pair) = (.ok false, emptyNode t) :=
  isKnown_false_iff.mpr ⟨rfl, rfl, List.not_mem_nil⟩

/-- The two bytes stay in memory where two are allowed, and go into a file at the last chunk where one is. -/
theorem assemble_new_of_pair :
    (∃ c s, (emptyNode 2).assemble (Session.inbound pair (pairPackets.map .ok : List Delivery)) =
      (.ok (.inline ⟨#[7, 8]⟩), c, s)) ∧
    ∃ c s, (emptyNode 1).assemble (Session.inbound pair (pairPackets.map .ok : List Delivery)) =
        (.ok (.file (emptyFiles.pathFor pair)), c, s) ∧
      c.files.disk.read (emptyFiles.pathFor pair) = .ok ⟨#[7, 8]⟩ := by
  obtain ⟨v, hr⟩ := drains_pair
  have hcontent : Sequence.content pairPackets = ⟨#[7, 8]⟩ := by decide
  have hboth (t : Nat) := assemble_new MemoryStore.lawful made_pair rfl hr (isKnown_emptyNode t)
    fun body => MemoryStore.serves _ _
  rw [hcontent] at hboth
  obtain ⟨c, s, -, hinline, -⟩ := (hboth 2).1 rfl (by decide)
  obtain ⟨c', s', -, hfile, -, hread⟩ := (hboth 1).2 (.inr (by decide)) free_pair
  exact ⟨⟨c, s, hinline⟩, c', s', hfile, hread⟩

/-- A payload that the datastore has already, by its key or by its path, is checked and dropped. -/
theorem duplicate_of_known (hr : Drains (Verified.new h packets) l v) (he : h.endOfStream = false)
    (hk : a.isKnown h.contentKey (a.files.pathFor h) = (.ok true, b)) (last : Bool) :
    ∃ s, a.assemble (Session.withPackets h packets last) = (.ok .duplicate, b, s) := by
  rcases hass : a.assemble (Session.withPackets h packets last) with ⟨r, c, s⟩
  have ht := takes_assemble a hr last r c s hass
  generalize s.state = state at ht
  cases ht with
  | ending heos => exact absurd heos (by simp [he])
  | known _ hk' =>
    cases hk'.symm.trans hk
    exact ⟨s, rfl⟩
  | unanswered _ hk' => cases hk'.symm.trans hk
  | incomplete _ hk' => cases hk'.symm.trans hk
  | inline _ hk' => cases hk'.symm.trans hk
  | refused _ hk' => cases hk'.symm.trans hk
  | cut _ hk' => cases hk'.symm.trans hk
  | uncommitted _ hk' => cases hk'.symm.trans hk
  | file _ hk' => cases hk'.symm.trans hk

/-- A record of another message that names the path: the payload is dropped, though no one has it. -/
theorem duplicate_of_foreign_path :
    let other : Message := .ofHeader { pair with hashes := [] } (.file (emptyFiles.pathFor pair))
    let a : Assembler MemoryStore := { emptyNode 2 with store := MemoryStore.empty.add other }
    a.store.messages.get? pair.contentKey = none ∧ a.files.disk.exists? (a.files.pathFor pair) = false ∧
      (a.assemble (Session.inbound pair (pairPackets.map .ok : List Delivery))).1 = .ok .duplicate := by
  intro other a
  have hkey : a.store.messages.get? pair.contentKey = none := by decide +kernel
  have hk : a.isKnown pair.contentKey (a.files.pathFor pair) = (.ok true, a) := by
    have hpath : Path.names (a.files.pathFor pair) ∈ a.store.paths := List.mem_singleton.mpr rfl
    rw [isKnown_eq, decide_eq_true (.inr hpath)]
  obtain ⟨v, hr⟩ := drains_pair
  obtain ⟨s, hass⟩ := duplicate_of_known hr rfl hk pair.endOfStream
  exact ⟨hkey, free_pair.not_exists, congrArg Prod.fst hass⟩

end New

/-! Files that are reported. -/

/-- A payload that is reported to be in a file came in full, and its part file was committed. -/
theorem committed_of_file {l : List Sequence} {e : Option TransferError} {path : String} {s : SessionState}
    (ht : Takes a h l e (.ok (.file path)) b s) :
    h.endOfStream = false ∧ e = none ∧ path = a.files.pathFor h ∧
      ∃ part f w, a.files.createPart path = (.ok part, f) ∧
        (f.writePart part (Sequence.content l)).2.commit (f.writePart part (Sequence.content l)).1 =
          (.ok w, b.files) := by
  generalize hr : Except.ok (Outcome.file path) = r at ht
  cases ht with
  | ending he => cases e <;> cases hr
  | known he hk => cases e <;> cases hr
  | inline he hk hx hdisk hsize hp =>
    subst hr
    unfold persistInline at hp
    split at hp <;> cases hp
  | file he hk hx hbig hpart hcommit hp =>
    subst hr
    obtain ⟨_, d₀, -, -, rfl⟩ := isKnown_eq_false hk
    unfold persistFile at hp
    split at hp
    · cases hp
      exact ⟨he, hx, rfl, _, _, _, hpart, hcommit⟩
    · cases hp
    · cases hp
  | _ => cases hr

/-- What is found at a path that is reported for a payload: the payload, if nothing was there; else what was there,
which no one compares with the payload. -/
theorem read_of_file (hm : h.Made) {packets : σ} {path : String} {u : Session σ}
    (hass : a.assemble (Session.inbound h packets) = (.ok (.file path), b, u)) :
    path = a.files.pathFor h ∧ ∃ l v, Drains (Verified.new h packets) l v ∧
      b.files.disk.read path =
        (if a.files.disk.exists? path then a.files.disk.read path else .ok (Sequence.content l)) ∧
      (b.files.disk.read path = .ok (Sequence.content l) ↔
        (a.files.disk.exists? path = true → a.files.disk.read path = .ok (Sequence.content l))) := by
  obtain ⟨l, e, v, hr⟩ := Verified.exists_runs (Verified.new h packets) rfl
  obtain ⟨he, rfl, rfl, part, f, w, hpart, hcommit⟩ :=
    committed_of_file (takes_assemble a hr h.endOfStream _ _ _ hass)
  have hread := FileStore.read_of_commit hm he hpart hcommit
  refine ⟨rfl, l, v, hr, hread, ?_⟩
  rw [hread]
  by_cases hthere : a.files.disk.exists? (a.files.pathFor h) = true
  · simp [hthere]
  · simp [hthere]

/-- The two bytes in a new file. -/
theorem read_of_file_of_pair :
    ∃ c s, (emptyNode 1).assemble (Session.inbound pair (pairPackets.map .ok : List Delivery)) =
        (.ok (.file (emptyFiles.pathFor pair)), c, s) ∧
      ∃ l v, Drains (Verified.new pair (pairPackets.map .ok : List Delivery)) l v ∧
        c.files.disk.read (emptyFiles.pathFor pair) = .ok (Sequence.content l) := by
  obtain ⟨v, hr⟩ := drains_pair
  obtain ⟨c, s, -, hass, -⟩ := file_of_new MemoryStore.lawful made_pair hr rfl (isKnown_emptyNode 1)
    (MemoryStore.serves _ _) (.inr (by decide)) (free_pair.accepts _) pair.endOfStream
  obtain ⟨-, l, v', hr', -, hread⟩ := read_of_file made_pair hass
  exact ⟨c, s, hass, l, v', hr', hread.mpr fun hthere => Bool.noConfusion (hthere.symm.trans free_pair.not_exists)⟩

/-- The working directory with a file of another byte at the path of the two bytes. -/
def staleFiles : FileStore :=
  { emptyFiles with
    disk := emptyFiles.disk.set (emptyFiles.disk.workDir.child pair.storageName) (.file ⟨#[9]⟩ Disk.defaultMode) }

/-- A file that stands at the path is reported for the payload, and holds the other byte still. -/
theorem reported_of_stale_file :
    let a : Assembler MemoryStore := ⟨.empty, staleFiles, 1⟩
    let path := staleFiles.pathFor pair
    ∃ c s, a.assemble (Session.inbound pair (pairPackets.map .ok : List Delivery)) = (.ok (.file path), c, s) ∧
      Sequence.content pairPackets = ⟨#[7, 8]⟩ ∧ c.files.disk.read path = .ok ⟨#[9]⟩ := by
  intro a path
  have hcontent : Sequence.content pairPackets = ⟨#[7, 8]⟩ := by decide
  have hresolve : staleFiles.disk.resolve path =
      .ok ⟨emptyFiles.disk.workDir.child pair.storageName, true, false⟩ := by
    have hfree := freeName_pair.free
    have hplace := Disk.resolve_eq_ok_iff.mpr ⟨freeName_pair.target_join_dot, freeName_pair.not_tooLong⟩
    exact (Disk.sameDirectories_set (Disk.ne_root_of_free hfree) hfree _ _).resolve_eq hplace
  have hentry : staleFiles.disk.entry? (emptyFiles.disk.workDir.child pair.storageName) =
      some (.file ⟨#[9]⟩ Disk.defaultMode) := by
    rw [staleFiles, Disk.entry?_set (Place.child_ne_root _ _), if_pos rfl]
  have hread : staleFiles.disk.read path = .ok ⟨#[9]⟩ := Disk.read_of_resolve hresolve rfl hentry
  have hthere : staleFiles.disk.exists? path = true :=
    Disk.exists?_of_entry hresolve rfl (Option.isSome_of_eq_some hentry)
  have hpartName : staleFiles.disk.FreeName (staleFiles.partName pair.storageName) :=
    FileStore.freeName_partName made_pair rfl (by decide +kernel)
  obtain ⟨part, f, hpart⟩ := FileStore.exists_createPart_join_dot freeName_pair.plain freeName_pair.ne_dot
    freeName_pair.ne_up hpartName
  obtain ⟨w, f', hcommit⟩ := FileStore.exists_commit made_pair rfl hresolve hpart (Sequence.content pairPackets)
  have hfound := FileStore.read_of_commit made_pair rfl hpart hcommit
  rw [if_pos hthere, hread] at hfound
  have hk : a.isKnown pair.contentKey path = (.ok false, a) := isKnown_false_iff.mpr ⟨rfl, rfl, List.not_mem_nil⟩
  have hp : persistFile { a with files := f' } pair path w =
      (.ok (.file path), { a with store := a.store.add (.ofHeader pair (.file path)), files := f' }) := by
    rw [persistFile, MemoryStore.persist_of_new (m := .ofHeader pair (.file path)) rfl]
  obtain ⟨v, hr⟩ := drains_pair
  obtain ⟨s, hass⟩ := assemble_file hr rfl hk (.inr (by rw [hcontent]; decide)) hpart hcommit hp pair.endOfStream
  exact ⟨_, s, hass, hcontent, hfound⟩

end Assembler
end ChunkRelay
