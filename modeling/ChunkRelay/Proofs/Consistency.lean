import ChunkRelay.Proofs.Assembly

/-! Store and cache over whole runs. A session leaves nothing behind, or a message, or a message and a
file with its body, so the store and the cache always tell the same. -/
namespace ChunkRelay

namespace MemoryStore

/-- The files that bodies are in. -/
def filePaths (s : MemoryStore) : List String := s.messages.entries.filterMap fun a => a.2.path?

theorem get?_add (s : MemoryStore) (m : Message) (k : Hash) :
    (s.add m).messages.get? k = if k = m.contentKey then some m else s.messages.get? k :=
  SortedMap.get?_insert _ _ _ _

variable {s : MemoryStore} {m : Message}

/-- Its key comes to those that were there. -/
theorem isSome_add_iff {k : Hash} :
    ((s.add m).messages.get? k).isSome ↔ (s.messages.get? k).isSome ∨ k = m.contentKey := by
  rw [get?_add]
  by_cases hk : k = m.contentKey <;> simp [hk]

theorem of_get?_add {k : Hash} {n : Message} (h : (s.add m).messages.get? k = some n) :
    k = m.contentKey ∧ n = m ∨ s.messages.get? k = some n := by
  rw [get?_add] at h
  by_cases hk : k = m.contentKey
  · rw [if_pos hk] at h
    exact .inl ⟨hk, (Option.some.inj h).symm⟩
  · rw [if_neg hk] at h
    exact .inr h

/-- Under a new key a message comes beside the others. -/
theorem get?_add_of_new (h : s.messages.get? m.contentKey = none) {k : Hash} {n : Message}
    (hn : s.messages.get? k = some n) : (s.add m).messages.get? k = some n := by
  have hne : k ≠ m.contentKey := by
    rintro rfl
    rw [h] at hn
    cases hn
  rw [get?_add, if_neg hne, hn]

theorem perm_filePaths_add (h : s.messages.get? m.contentKey = none) :
    (s.add m).filePaths.Perm (m.path?.toList ++ s.filePaths) := by
  refine ((SortedMap.perm_insert h m).filterMap _).trans (.of_eq ?_)
  rw [List.filterMap_cons]
  cases m.path? with
  | none => rfl
  | some p => rfl

theorem persist_of_new (h : s.messages.get? m.contentKey = none) :
    Datastore.persist m s = (.ok true, s.add m) := by
  have hcontains : s.messages.contains m.contentKey = false := by
    rw [SortedMap.contains_eq, h]
    rfl
  have hpersist : Datastore.persist m s =
      if s.messages.contains m.contentKey then (.ok false, s) else (.ok true, s.add m) := rfl
  rw [hpersist, hcontains]
  rfl

end MemoryStore

namespace Assembler

variable {a b c : Assembler MemoryStore} {h : Header}

/-! Lookup and recording. -/

theorem isKnown_eq (a : Assembler MemoryStore) (k : Hash) (p : String) :
    a.isKnown k p = (.ok (decide ((a.store.messages.get? k).isSome ∨ Path.names p ∈ a.store.paths)), a) := by
  have hhas : Datastore.hasKey k a.store = (.ok (a.store.messages.get? k).isSome, a.store) := by
    rw [← SortedMap.contains_eq]
    rfl
  have hcount : Datastore.countPath p a.store =
      (.ok (if Path.names p ∈ a.store.paths then 1 else 0), a.store) := rfl
  rw [isKnown, hhas]
  cases a.store.messages.get? k with
  | some m => simp
  | none => by_cases hp : Path.names p ∈ a.store.paths <;> simp [hcount, hp]

theorem isKnown_false_iff {p : String} {k : Hash} :
    a.isKnown k p = (.ok false, b) ↔
      b = a ∧ a.store.messages.get? k = none ∧ Path.names p ∉ a.store.paths := by
  have hpair := isKnown_eq a k p
  constructor
  · intro hk
    rw [hk] at hpair
    obtain ⟨hok, rfl⟩ := Prod.mk.inj hpair
    have hnot := of_decide_eq_false (Except.ok.inj hok).symm
    rw [not_or, Option.not_isSome_iff_eq_none] at hnot
    exact ⟨rfl, hnot⟩
  · rintro ⟨rfl, hk, hp⟩
    rw [hpair]
    simp [hk, hp]

/-! Consistency. -/

/-- What the body of a message is by now. -/
def content (a : Assembler MemoryStore) (m : Message) : Except IoError Bytes :=
  match m.body with
  | .inline b => .ok b
  | .file p => a.files.disk.read p

/-- A message as it should be kept: under the key of its hashes, as its header says, and with the blocks
that its hashes are of. -/
structure Holds (a : Assembler MemoryStore) (k : Hash) (m : Message) : Prop where
  key_eq : k = m.contentKey
  key_eq_hashes : k = Hash.contentKey m.hashes
  header : ∃ h : Header, h.Made ∧ h.endOfStream = false ∧ m = .ofHeader h m.body ∧
    ∀ p, m.body = .file p → p = Path.join a.files.cacheDir h.storageName
  blocks : ∃ blocks, Hash.ofBlocks 0 blocks = m.hashes ∧ a.content m = .ok (Bytes.concat blocks)

/-- Store and cache tell the same: every message is as it should be, and the cache is a directory of the
files that messages have their bodies in. -/
structure Consistent (a : Assembler MemoryStore) : Prop where
  holds : ∀ k m, a.store.messages.get? k = some m → a.Holds k m
  cached : ∃ l, a.files.disk.list? a.files.cacheDir = some l ∧
    (l.map fun x => Path.join a.files.cacheDir x.1).Perm a.store.filePaths
  paths : ∀ p ∈ a.store.filePaths, Path.names p ∈ a.store.paths

/-- What one assembler has the other has as well: the files in its cache, and the messages with their
bodies. -/
structure Keeps (a b : Assembler MemoryStore) : Prop where
  cacheDir_eq : b.files.cacheDir = a.files.cacheDir
  files : ∀ l, a.files.disk.list? a.files.cacheDir = some l →
    ∃ l', b.files.disk.list? b.files.cacheDir = some l' ∧ l ⊆ l'
  messages : ∀ k m, a.store.messages.get? k = some m →
    b.store.messages.get? k = some m ∧ b.content m = a.content m

theorem Keeps.refl (a : Assembler MemoryStore) : a.Keeps a :=
  ⟨rfl, fun l hl => ⟨l, hl, fun _ hx => hx⟩, fun _ _ hm => ⟨hm, rfl⟩⟩

theorem Keeps.trans (hab : a.Keeps b) (hbc : b.Keeps c) : a.Keeps c := by
  refine ⟨hbc.cacheDir_eq.trans hab.cacheDir_eq, ?_, ?_⟩
  · intro l hl
    obtain ⟨l', hl', hsub⟩ := hab.files l hl
    obtain ⟨l'', hl'', hsub'⟩ := hbc.files l' hl'
    exact ⟨l'', hl'', fun _ hx => hsub' (hsub hx)⟩
  · intro k m hm
    obtain ⟨hmb, hb⟩ := hab.messages k m hm
    obtain ⟨hmc, hc⟩ := hbc.messages k m hmb
    exact ⟨hmc, hc.trans hb⟩

/-- An assembler that has nothing, with an empty cache. -/
theorem consistent_of_empty (hs : a.store = MemoryStore.empty)
    (hl : a.files.disk.list? a.files.cacheDir = some []) : a.Consistent where
  holds k m hm := by
    rw [hs] at hm
    cases hm
  cached := by
    refine ⟨[], hl, ?_⟩
    rw [hs]
    exact .refl _
  paths p hp := by
    rw [hs] at hp
    cases hp

/-! What a session leaves. -/

/-- What a session leaves behind: nothing, but for the name of a part file that is used up; a message; or
a message and a new file with its body. -/
inductive Leaves (a : Assembler MemoryStore) (h : Header) : Assembler MemoryStore → Prop
  | untouched : Leaves a h a
  | spent : Leaves a h { a with files := a.files.spent }
  | inline {blocks : List Bytes} : h.endOfStream = false → a.store.messages.get? h.contentKey = none →
      Hash.ofBlocks 0 blocks = h.hashes →
      Leaves a h { a with store := a.store.add (.ofHeader h (.inline (Bytes.concat blocks))) }
  | file {blocks : List Bytes} {t : Disk.Target} : h.endOfStream = false →
      a.store.messages.get? h.contentKey = none → Hash.ofBlocks 0 blocks = h.hashes →
      a.files.disk.resolve (a.files.pathFor h) = .ok t → a.files.disk.entry? t.place = none → t.slash = false →
      Leaves a h
        { a with
          store := a.store.add (.ofHeader h (.file (a.files.pathFor h)))
          files := a.files.spent.holding t.place (Bytes.concat blocks) }

/-- The messages that were there are as they should be in the new assembler if they are in the old. -/
theorem Holds.of_content (hcache : b.files.cacheDir = a.files.cacheDir) {k : Hash} {m : Message}
    (hh : a.Holds k m) (hc : b.content m = a.content m) : b.Holds k m := by
  refine ⟨hh.key_eq, hh.key_eq_hashes, ?_, ?_⟩
  · rw [hcache]
    exact hh.header
  · rw [hc]
    exact hh.blocks

/-- A body that can be read is the same once the tree has another file. -/
theorem content_holding {p : Place} (hp : a.files.disk.entry? p = none) {m : Message} {b : Bytes}
    (hm : a.content m = .ok b) (s : MemoryStore) (c : Bytes) :
    content { a with store := s, files := a.files.spent.holding p c } m = a.content m := by
  rw [hm]
  unfold content at hm ⊢
  cases hb : m.body with
  | inline d => simpa [hb] using hm
  | file q =>
    simp only [hb] at hm
    exact Disk.read_set hm (Disk.ne_root_of_free hp) hp c _

theorem Leaves.keeps (hc : a.Consistent) (hm : h.Made) (hl : Leaves a h b) : a.Keeps b := by
  cases hl with
  | untouched => exact .refl a
  | spent => exact ⟨rfl, (Keeps.refl a).files, (Keeps.refl a).messages⟩
  | @inline blocks he hk hb =>
    refine ⟨rfl, (Keeps.refl a).files, fun k m hmem => ⟨?_, rfl⟩⟩
    exact MemoryStore.get?_add_of_new (m := .ofHeader h (.inline (Bytes.concat blocks))) hk hmem
  | @file blocks t he hk hb ht hfree hslash =>
    refine ⟨rfl, fun l hlist => ?_, fun k m hmem => ⟨?_, ?_⟩⟩
    · obtain ⟨u, hu, -, rfl⟩ := FileStore.resolve_pathFor hlist hm he ht
      obtain ⟨l', hlist', hperm⟩ := Disk.list?_set hu hlist hfree (Bytes.concat blocks) Disk.defaultMode
      exact ⟨l', hlist', fun _ hx => hperm.symm.subset (List.mem_cons_of_mem _ hx)⟩
    · exact MemoryStore.get?_add_of_new (m := .ofHeader h (.file (a.files.pathFor h))) hk hmem
    · obtain ⟨_, -, hread⟩ := (hc.holds k m hmem).blocks
      exact content_holding hfree hread _ _

/-- A new message is as it should be if its body is there. -/
theorem holds_ofHeader (hm : h.Made) (he : h.endOfStream = false) {body : Body}
    (hp : ∀ p, body = .file p → p = Path.join a.files.cacheDir h.storageName) {blocks : List Bytes}
    (hb : Hash.ofBlocks 0 blocks = h.hashes) (hc : a.content (.ofHeader h body) = .ok (Bytes.concat blocks)) :
    a.Holds h.contentKey (.ofHeader h body) where
  key_eq := rfl
  key_eq_hashes := rfl
  header := ⟨h, hm, he, rfl, hp⟩
  blocks := ⟨blocks, hb, hc⟩

theorem Leaves.holds (hc : a.Consistent) (hm : h.Made) (hl : Leaves a h b) :
    ∀ k m, b.store.messages.get? k = some m → b.Holds k m := by
  have hkeeps := hl.keeps hc hm
  intro k m hk
  by_cases hold : a.store.messages.get? k = some m
  · exact (hc.holds k m hold).of_content hkeeps.cacheDir_eq (hkeeps.messages k m hold).2
  · cases hl with
    | untouched => exact absurd hk hold
    | spent => exact absurd hk hold
    | inline he hnone hb =>
      rcases MemoryStore.of_get?_add hk with ⟨rfl, rfl⟩ | hk
      · refine holds_ofHeader hm he ?_ hb rfl
        intro p hp
        cases hp
      · exact absurd hk hold
    | file he hnone hb ht hfree hslash =>
      rcases MemoryStore.of_get?_add hk with ⟨rfl, rfl⟩ | hk
      · refine holds_ofHeader hm he ?_ hb ?_
        · rintro p ⟨⟩
          rfl
        · exact FileStore.read_holding ht hslash hfree _
      · exact absurd hk hold

/-- What a session leaves keeps store and cache consistent. -/
theorem Leaves.consistent (hc : a.Consistent) (hm : h.Made) (hl : Leaves a h b) : b.Consistent := by
  have hholds := hl.holds hc hm
  obtain ⟨l, hlist, hperm⟩ := hc.cached
  cases hl with
  | untouched => exact hc
  | spent => exact ⟨hholds, hc.cached, hc.paths⟩
  | @inline blocks he hk hb =>
    have hadd := MemoryStore.perm_filePaths_add (m := .ofHeader h (.inline (Bytes.concat blocks))) hk
    exact ⟨hholds, ⟨l, hlist, hperm.trans hadd.symm⟩, fun p hp => hc.paths p (hadd.subset hp)⟩
  | @file blocks t he hk hb ht hfree hslash =>
    have hadd := MemoryStore.perm_filePaths_add (m := .ofHeader h (.file (a.files.pathFor h))) hk
    obtain ⟨u, hu, -, rfl⟩ := FileStore.resolve_pathFor hlist hm he ht
    obtain ⟨l', hlist', hl'⟩ := Disk.list?_set hu hlist hfree (Bytes.concat blocks) Disk.defaultMode
    refine ⟨hholds, ⟨l', hlist', (hl'.map _).trans ((hperm.cons _).trans hadd.symm)⟩, fun p hp => ?_⟩
    rcases List.mem_cons.mp (hadd.subset hp) with rfl | hp
    · exact List.mem_cons_self
    · exact List.mem_cons_of_mem _ (hc.paths p hp)

/-! What is left of the ways in which a session is taken in. -/

/-- The target of a new body is free, so that a part file either gets there or leaves nothing. -/
theorem Consistent.commit_cases (hc : a.Consistent) (hm : h.Made) (he : h.endOfStream = false)
    (hnew : Path.names (a.files.pathFor h) ∉ a.store.paths) {part : PartFile} {f f' : FileStore}
    (hpart : a.files.createPart (a.files.pathFor h) = (.ok part, f)) {d : Bytes}
    {r : Except StorageError Commit}
    (hcommit : (f.writePart part d).2.commit (f.writePart part d).1 = (r, f')) :
    (r = .ok .written ∧ ∃ t, a.files.disk.resolve (a.files.pathFor h) = .ok t ∧
      a.files.disk.entry? t.place = none ∧ t.slash = false ∧ f' = a.files.spent.holding t.place d) ∨
    ((∃ x, r = .error x) ∧ f' = a.files.spent) := by
  obtain ⟨rfl, t, hbegins⟩ := FileStore.begins_of_createPart hpart
  rw [FileStore.writePart_holding, ByteArray.empty_append] at hcommit
  rcases hbegins.commit_cases hcommit with ⟨hwritten, u, hu, hfree, -, hslash, hf⟩ | ⟨-, -, u, hu, htaken⟩ |
    ⟨hfailed, hspent, -⟩
  · exact .inl ⟨hwritten, u, hu, hfree, hslash, hf⟩
  · obtain ⟨l, hlist, hperm⟩ := hc.cached
    obtain ⟨v, -, hl, rfl⟩ := FileStore.resolve_pathFor hlist hm he hu
    rcases htaken with hnamed | hplace | hsome
    · cases hnamed
    · exact absurd hplace (hbegins.place_ne hpart hm he v.place)
    · -- a file in the cache is the body of a message, and its path is known then
      obtain ⟨e, hentry⟩ := Option.isSome_iff_exists.mp hsome
      rw [Disk.entry?_child] at hentry
      have hmem := Disk.mem_children.mpr hentry
      rw [hl] at hmem
      have hpath : a.files.pathFor h ∈ a.store.filePaths :=
        hperm.subset (List.mem_map.mpr ⟨_, hmem, rfl⟩)
      exact absurd (hc.paths _ hpath) hnew
  · exact .inr ⟨hfailed, hspent⟩

/-- Whatever way a session is taken in, it leaves one of the things above. -/
theorem leaves_of_takes {φ : Type} [PacketFeed φ] {packets : φ} {l : List Sequence}
    {e : Option TransferError} {v : Verified φ} (hr : PacketFeed.Runs (Verified.new h packets) l e v)
    (hc : a.Consistent) (hm : h.Made) {r : Except TransferError Outcome} {s : SessionState}
    (ht : Takes a h l e r b s) : Leaves a h b := by
  have hblocks : e = none → Hash.ofBlocks 0 (l.map Sequence.bytes) = h.hashes := by
    rintro rfl
    exact (Verified.listed_of_drains hr rfl).ofBlocks_eq
  cases ht with
  | ending he => exact .untouched
  | unanswered he hk =>
    rw [isKnown_eq] at hk
    cases hk
  | known he hk =>
    rw [isKnown_eq] at hk
    obtain ⟨-, rfl⟩ := Prod.mk.inj hk
    exact .untouched
  | incomplete he hk hx hd hsize =>
    obtain ⟨rfl, -⟩ := isKnown_false_iff.mp hk
    exact .untouched
  | inline he hk hx hd hsize hp =>
    obtain ⟨rfl, hnone, -⟩ := isKnown_false_iff.mp hk
    rw [persistInline, MemoryStore.persist_of_new hnone] at hp
    cases hp
    exact .inline he hnone (hblocks hx)
  | refused he hk hbig hpart =>
    obtain ⟨rfl, -⟩ := isKnown_false_iff.mp hk
    rw [FileStore.createPart_error hpart]
    exact .spent
  | cut he hk hx hbig hpart =>
    obtain ⟨rfl, -⟩ := isKnown_false_iff.mp hk
    obtain ⟨rfl, t, hbegins⟩ := FileStore.begins_of_createPart hpart
    rw [FileStore.writePart_holding, hbegins.dropPart_eq]
    exact .spent
  | uncommitted he hk hx hbig hpart hcommit =>
    obtain ⟨rfl, -, hnew⟩ := isKnown_false_iff.mp hk
    rcases hc.commit_cases hm he hnew hpart hcommit with ⟨hr, -⟩ | ⟨-, rfl⟩
    · cases hr
    · exact .spent
  | file he hk hx hbig hpart hcommit hp =>
    obtain ⟨rfl, hnone, hnew⟩ := isKnown_false_iff.mp hk
    rcases hc.commit_cases hm he hnew hpart hcommit with ⟨-, t, ht, hfree, hslash, rfl⟩ | ⟨⟨x, hr⟩, -⟩
    · rw [persistFile, MemoryStore.persist_of_new hnone] at hp
      cases hp
      exact .file he hnone (hblocks hx) ht hfree hslash
    · cases hr

/-! Runs. -/

/-- One session is taken in, with any header and any feed. -/
inductive Step (a : Assembler MemoryStore) : Assembler MemoryStore → Prop
  | assemble {φ : Type} [PacketFeed φ] {h : Header} (packets : φ) (last : Bool) :
      h.Made → Step a (a.assemble (Session.withPackets h packets last)).2.1

/-- Sessions are taken in one after another. -/
inductive Reaches : Assembler MemoryStore → Assembler MemoryStore → Prop
  | refl {a : Assembler MemoryStore} : Reaches a a
  | step {a b c : Assembler MemoryStore} : Reaches a b → Step b c → Reaches a c

theorem Step.leaves (hc : a.Consistent) (hs : Step a b) : ∃ h : Header, h.Made ∧ Leaves a h b := by
  cases hs with
  | @assemble φ _ h packets last hm =>
    obtain ⟨l, e, v, hr⟩ := Verified.exists_runs (Verified.new h packets) rfl
    rcases hass : a.assemble (Session.withPackets h packets last) with ⟨r, b, s⟩
    exact ⟨h, hm, leaves_of_takes hr hc hm (takes_assemble a hr last r b s hass)⟩

theorem Reaches.consistent (hc : a.Consistent) (hr : Reaches a b) : b.Consistent ∧ a.Keeps b := by
  induction hr with
  | refl => exact ⟨hc, .refl a⟩
  | step _ hs ih =>
    obtain ⟨hcons, hkeeps⟩ := ih
    obtain ⟨h, hm, hl⟩ := hs.leaves hcons
    exact ⟨hl.consistent hcons hm, hkeeps.trans (hl.keeps hcons hm)⟩

/-- From an empty store and an empty cache on, store and cache are consistent after every session, and
what is stored once stays as it is. -/
theorem consistent_of_reaches (hs : a.store = MemoryStore.empty)
    (hl : a.files.disk.list? a.files.cacheDir = some []) (hb : Reaches a b) (hc : Reaches b c) :
    b.Consistent ∧ b.Keeps c := by
  have hcons := (hb.consistent (consistent_of_empty hs hl)).1
  exact ⟨hcons, (hc.consistent hcons).2⟩

/-- A session that is cut short, then the whole of it, and then the whole of it again. -/
theorem consistent_of_second_try :
    let a : Assembler MemoryStore := ⟨.empty, ⟨.ofWorkDir ⟨#["node"]⟩, ".", "user", 0, 0⟩, 16⟩
    let d : Header.Draft :=
      { application := some "chat", blockSize := some 4, toDisk := true
        hashes := [Hash.chunk 0 ⟨#[7, 8]⟩] }
    let cut := Session.withPackets d.header ([] : List Delivery) true
    let whole := Session.withPackets d.header ([.ok (Sequence.ofChunk 0 ⟨#[7, 8]⟩)] : List Delivery) true
    let b := ((a.assemble cut).2.1.assemble whole).2.1
    b.Consistent ∧ b.Keeps (b.assemble whole).2.1 := by
  intro a d cut whole b
  have hcache : a.files.disk.list? a.files.cacheDir = some [] :=
    Disk.list?_eq_some_iff.mpr ⟨_, Disk.resolve_dot _, rfl, rfl⟩
  have hm : d.header.Made := .built (d := d) rfl
  have hcut : Step a (a.assemble cut).2.1 := .assemble _ _ hm
  have hwhole (c : Assembler MemoryStore) : Step c (c.assemble whole).2.1 := .assemble _ _ hm
  have hb : Reaches a b := .step (.step .refl hcut) (hwhole _)
  exact consistent_of_reaches rfl hcache hb (.step .refl (hwhole b))

end Assembler
end ChunkRelay
