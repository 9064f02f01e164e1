import ChunkRelay.Proofs.Consistency

/-! Contents that arrive more than once, in any order. What is rejected depends on a session alone; of the
others the first with a content is stored and the rest are duplicates, so the order in which sessions arrive
is seen neither in what fails nor in what is kept. -/
namespace ChunkRelay

open PacketFeed

/-- A session as it arrives, with a feed of some kind. -/
structure Incoming where
  feed : Type
  [pulls : PacketFeed feed]
  header : Header
  packets : feed
  last : Bool

namespace Incoming

instance (x : Incoming) : PacketFeed x.feed := x.pulls

def session (x : Incoming) : Session x.feed := Session.withPackets x.header x.packets x.last

def key (x : Incoming) : Hash := x.header.contentKey

/-- The feed has these packets and no failure, and they are the ones that the header lists. -/
def Delivers (x : Incoming) (q : List Sequence) : Prop := (∃ f, Drains x.packets q f) ∧ Listed 0 x.header.hashes q

/-- The packets verify against the header of their own session. -/
def Verifies (x : Incoming) : Prop := ∃ q, x.Delivers q

/-- Checking the packets fails in this way. -/
def Rejects (x : Incoming) (e : TransferError) : Prop :=
  ∃ l v, Runs (Verified.new x.header x.packets) l (some e) v

/-- The session is not for the disk, and no more than `n` bytes of it verify. -/
def Short (x : Incoming) (n : Nat) : Prop :=
  x.header.toDisk = false ∧
    ∀ l e v, Runs (Verified.new x.header x.packets) l e v → (Sequence.content l).size ≤ n

variable {x : Incoming} {q : List Sequence} {e : TransferError}

theorem delivers_iff : x.Delivers q ↔ ∃ v, Drains (Verified.new x.header x.packets) q v := by
  constructor
  · rintro ⟨⟨f, hf⟩, hq⟩
    exact ⟨_, Verified.drains_of_listed hf hq⟩
  · rintro ⟨v, hv⟩
    exact ⟨⟨_, Verified.drains_inner hv rfl⟩, Verified.listed_of_drains hv rfl⟩

/-- A session either verifies or fails in one way. -/
theorem not_verifies_iff : ¬ x.Verifies ↔ ∃ e, x.Rejects e := by
  constructor
  · intro hnot
    obtain ⟨l, e, v, hr⟩ := Verified.exists_runs (Verified.new x.header x.packets) rfl
    cases e with
    | none => exact absurd ⟨l, delivers_iff.mpr ⟨v, hr⟩⟩ hnot
    | some e => exact ⟨e, l, v, hr⟩
  · rintro ⟨e, l, v, hr⟩ ⟨q, hq⟩
    obtain ⟨w, hd⟩ := delivers_iff.mp hq
    cases (hr.unique hd).2

theorem Rejects.unique {e' : TransferError} (h : x.Rejects e) (h' : x.Rejects e') : e = e' := by
  obtain ⟨l, v, hr⟩ := h
  obtain ⟨l', v', hr'⟩ := h'
  exact Option.some.inj (hr.unique hr').2

/-- No two different chunks hash alike that sessions of one content deliver at one position. -/
def Uncollided (xs : List Incoming) : Prop :=
  ∀ x ∈ xs, ∀ y ∈ xs, x.key = y.key → ∀ p q, x.Delivers p → y.Delivers q →
    ∀ (i : Nat) (c d : Sequence), p[i]? = some c → q[i]? = some d → c.hash = d.hash → c.bytes = d.bytes

/-- Of sessions with the same hashes the same arrives. -/
theorem Uncollided.content_eq {xs : List Incoming} (hu : Uncollided xs) {y : Incoming} (hx : x ∈ xs) (hy : y ∈ xs)
    {p : List Sequence} (hp : x.Delivers p) (hq : y.Delivers q) (hh : x.header.hashes = y.header.hashes) :
    Sequence.content p = Sequence.content q := by
  have hkey : x.key = y.key := congrArg Hash.contentKey hh
  have hhashes : p.map Sequence.hash = q.map Sequence.hash := by
    rw [← hp.2.hashes_eq, ← hq.2.hashes_eq, hh]
  have hbytes : p.map Sequence.bytes = q.map Sequence.bytes := by
    refine List.ext_getElem (by simpa using congrArg List.length hhashes) fun i hi hi' => ?_
    rw [List.length_map] at hi hi'
    have hat := congrArg (·[i]?) hhashes
    simp only [List.getElem?_map, List.getElem?_eq_getElem hi, List.getElem?_eq_getElem hi', Option.map_some,
      Option.some.injEq] at hat
    rw [List.getElem_map, List.getElem_map]
    exact hu x hx y hy hkey p q hp hq i _ _ (List.getElem?_eq_getElem hi) (List.getElem?_eq_getElem hi') hat
  exact congrArg Bytes.concat hbytes

end Incoming

namespace Assembler

variable {a b : Assembler MemoryStore} {x : Incoming}

/-! One session. -/

/-- Every path that the store knows is that of a content that it has. -/
def Filed (a : Assembler MemoryStore) : Prop :=
  ∀ n ∈ a.store.paths, ∃ h : Header, h.Made ∧ h.endOfStream = false ∧
    (a.store.messages.get? h.contentKey).isSome ∧ n = Path.names (a.files.pathFor h)

theorem filed_of_empty (hs : a.store = MemoryStore.empty) : a.Filed := by
  intro n hn
  rw [hs] at hn
  cases hn

theorem Filed.of_cacheDir (hf : a.Filed) {files : FileStore} (hdir : files.cacheDir = a.files.cacheDir) :
    Filed { a with files } := by
  intro n hn
  obtain ⟨h, hm, he, hknown, rfl⟩ := hf n hn
  exact ⟨h, hm, he, hknown, by rw [FileStore.pathFor, FileStore.pathFor, hdir]⟩

theorem Filed.add (hf : a.Filed) {h : Header} (hm : h.Made) (he : h.endOfStream = false) {body : Body}
    (hbody : ∀ p, body = .file p → p = a.files.pathFor h) :
    Filed { a with store := a.store.add (.ofHeader h body) } := by
  intro n hn
  have hpaths : n = Path.names (a.files.pathFor h) ∨ n ∈ a.store.paths := by
    cases body with
    | inline b => exact .inr hn
    | file p => exact (List.mem_cons.mp hn).imp_left fun hp => by rw [hp, hbody p rfl]
  rcases hpaths with hp | hp
  · exact ⟨h, hm, he, by rw [MemoryStore.get?_add, if_pos (by rfl)]; rfl, hp⟩
  · obtain ⟨g, hmade, heos, hknown, hnames⟩ := hf n hp
    refine ⟨g, hmade, heos, ?_, hnames⟩
    rw [MemoryStore.get?_add]
    split
    · rfl
    · exact hknown

/-- A path is known only where its key is. -/
theorem Filed.known_of_path (hf : a.Filed) {h : Header} (hm : h.Made) (he : h.endOfStream = false)
    (hp : Path.names (a.files.pathFor h) ∈ a.store.paths) : (a.store.messages.get? h.contentKey).isSome := by
  obtain ⟨g, hmade, heos, hknown, hnames⟩ := hf _ hp
  rwa [FileStore.contentKey_of_pathFor hm hmade he heos hnames]

/-- No file operation fails that taking in the session calls for. A new content calls for a file if it is
wanted on disk or grows too long: a part file can be made for it, and if the packets verify, it can be
committed with them in it. -/
def Granted (a : Assembler MemoryStore) (x : Incoming) : Prop :=
  a.store.messages.get? x.key = none → ∀ l e v, Runs (Verified.new x.header x.packets) l e v →
    x.header.toDisk = true ∨ a.threshold < (Sequence.content l).size →
      ∃ part files, a.files.createPart (a.files.pathFor x.header) = (.ok part, files) ∧
        (e = none → ∃ w files', (files.writePart part (Sequence.content l)).2.commit
          (files.writePart part (Sequence.content l)).1 = (.ok w, files'))

/-- A session that stays in memory calls for no file. -/
theorem granted_of_short (hx : x.Short a.threshold) : a.Granted x := by
  intro _ l e v hr hfile
  rcases hfile with hdisk | hlong
  · cases hx.1.symm.trans hdisk
  · exact absurd (hx.2 l e v hr) (Nat.not_le.mpr hlong)

/-- A content that is known calls for no file. -/
theorem granted_of_known (hx : (a.store.messages.get? x.key).isSome) : a.Granted x := by
  intro hnone
  rw [hnone] at hx
  cases hx

theorem granted_of_accepts (hm : x.header.Made) (he : x.header.endOfStream = false) {q : List Sequence}
    (hq : x.Delivers q) (ha : a.files.Accepts (a.files.pathFor x.header) (Sequence.content q)) : a.Granted x := by
  intro _ l e v hr _
  obtain ⟨w, hd⟩ := Incoming.delivers_iff.mp hq
  obtain ⟨rfl, rfl⟩ := hr.unique hd
  obtain ⟨part, f, w, f', hpart, hcommit, -⟩ := ha.commit hm he
  exact ⟨part, f, hpart, fun _ => ⟨w, f', hcommit⟩⟩

/-- The answer to a session whose body is stored. -/
def ofBody : Body → Outcome
  | .inline content => .inline content
  | .file path => .file path

/-- What a session may come to: it fails as its packets do, its content is known, or its content is new and
is stored. The bytes are then there for certain if the cache has no files but those of messages. -/
inductive Settles (a : Assembler MemoryStore) (x : Incoming) :
    Except TransferError Outcome → Assembler MemoryStore → Prop
  | rejected {e : TransferError} {files : FileStore} :
      x.Rejects e → files.cacheDir = a.files.cacheDir → Settles a x (.error e) { a with files }
  | known {q : List Sequence} :
      x.Delivers q → (a.store.messages.get? x.key).isSome → Settles a x (.ok .duplicate) a
  | stored {q : List Sequence} {b : Body} {files : FileStore} :
      x.Delivers q → a.store.messages.get? x.key = none → files.cacheDir = a.files.cacheDir →
      (∀ p, b = .file p → p = a.files.pathFor x.header) →
      (a.Consistent → content { a with store := a.store.add (.ofHeader x.header b), files }
        (.ofHeader x.header b) = .ok (Sequence.content q)) →
      Settles a x (.ok (ofBody b)) { a with store := a.store.add (.ofHeader x.header b), files }

theorem settles_assemble (hf : a.Filed) (hm : x.header.Made) (he : x.header.endOfStream = false)
    (hg : a.Granted x) : Settles a x (a.assemble x.session).1 (a.assemble x.session).2.1 := by
  obtain ⟨l, e, v, hr⟩ := Verified.exists_runs (Verified.new x.header x.packets) rfl
  have ht := takes_assemble a hr x.last _ _ _ (show _ = ((a.assemble x.session).1, (a.assemble x.session).2.1,
    (a.assemble x.session).2.2) from rfl)
  have hdelivers : e = none → x.Delivers l := by
    rintro rfl
    exact Incoming.delivers_iff.mpr ⟨v, hr⟩
  have hrejects : ∀ y, e = some y → x.Rejects y := by
    rintro y rfl
    exact ⟨l, v, hr⟩
  generalize (a.assemble x.session).1 = r, (a.assemble x.session).2.1 = b, (a.assemble x.session).2.2.state = s
    at ht ⊢
  cases ht with
  | ending heos => exact absurd heos (by simp [he])
  | unanswered _ hk =>
    rw [isKnown_eq] at hk
    cases hk
  | known _ hk =>
    rw [isKnown_eq] at hk
    obtain ⟨hknown, rfl⟩ := Prod.mk.inj hk
    have hkey : (a.store.messages.get? x.key).isSome := by
      rcases of_decide_eq_true (Except.ok.inj hknown) with h | h
      · exact h
      · exact hf.known_of_path hm he h
    cases e with
    | none => exact .known (hdelivers rfl) hkey
    | some y => exact .rejected (hrejects y rfl) rfl
  | incomplete _ hk hx _ _ =>
    obtain ⟨rfl, -⟩ := isKnown_false_iff.mp hk
    exact .rejected (hrejects _ hx) rfl
  | inline _ hk hx _ _ hp =>
    obtain ⟨hsame, hnone, -⟩ := isKnown_false_iff.mp hk
    obtain rfl := hsame.symm
    rw [persistInline, MemoryStore.persist_of_new hnone] at hp
    cases hp
    refine .stored (b := .inline (Sequence.content l)) (hdelivers hx) hnone rfl ?_ fun _ => rfl
    rintro p ⟨⟩
  | refused _ hk hbig hpart =>
    obtain ⟨rfl, hnone, -⟩ := isKnown_false_iff.mp hk
    obtain ⟨part, files, hpart', -⟩ := hg hnone l e v hr hbig
    cases hpart.symm.trans hpart'
  | cut _ hk hx _ hpart =>
    obtain ⟨hsame, -⟩ := isKnown_false_iff.mp hk
    obtain rfl := hsame.symm
    obtain ⟨rfl, t, hbegins⟩ := FileStore.begins_of_createPart hpart
    rw [FileStore.writePart_holding, hbegins.dropPart_eq]
    exact .rejected (hrejects _ hx) rfl
  | uncommitted _ hk hx hbig hpart hcommit =>
    obtain ⟨rfl, hnone, -⟩ := isKnown_false_iff.mp hk
    obtain ⟨part, files, hpart', hcommit'⟩ := hg hnone l e v hr hbig
    cases hpart.symm.trans hpart'
    obtain ⟨w, files', hcommit'⟩ := hcommit' hx
    cases hcommit.symm.trans hcommit'
  | @file _ _ part files files' w _ _ hk hx _ hpart hcommit hp =>
    obtain ⟨hsame, hnone, hnew⟩ := isKnown_false_iff.mp hk
    obtain rfl := hsame.symm
    rw [persistFile, MemoryStore.persist_of_new hnone] at hp
    cases hp
    have hcontent (hc : a.Consistent) : files'.disk.read (a.files.pathFor x.header) = .ok (Sequence.content l) := by
      rcases hc.commit_cases hm he hnew hpart hcommit with ⟨-, t, ht, hfree, hslash, rfl⟩ | ⟨⟨y, hy⟩, -⟩
      · exact FileStore.read_holding ht hslash hfree _
      · cases hy
    refine .stored (b := .file (a.files.pathFor x.header)) (hdelivers hx) hnone
      (FileStore.cacheDir_of_commit hpart hcommit) ?_ hcontent
    rintro p ⟨⟩
    rfl

/-! Sessions one after another. -/

/-- Takes in sessions one after another and answers each. -/
def assembleAll (a : Assembler MemoryStore) :
    List Incoming → List (Incoming × Except TransferError Outcome) × Assembler MemoryStore
  | [] => ([], a)
  | x :: xs =>
    let (r, b, _) := a.assemble x.session
    let (l, c) := b.assembleAll xs
    ((x, r) :: l, c)

/-- No file operation fails while the sessions are taken in. -/
def AllGranted (a : Assembler MemoryStore) : List Incoming → Prop
  | [] => True
  | x :: xs => a.Granted x ∧ (a.assemble x.session).2.1.AllGranted xs

/-- The contents of the messages are those of the sessions that were taken in and verify. -/
structure Records (a : Assembler MemoryStore) (seen : List Incoming) : Prop where
  filed : a.Filed
  keys : ∀ k, (a.store.messages.get? k).isSome ↔ ∃ x ∈ seen, x.Verifies ∧ x.key = k

/-- The messages have the bytes that a session with their hashes delivered, and nothing else is in the
cache. -/
structure Retains (a : Assembler MemoryStore) (seen : List Incoming) : Prop where
  consistent : a.Consistent
  delivered : ∀ k m, a.store.messages.get? k = some m → ∃ x ∈ seen, ∃ q, x.Delivers q ∧ x.key = k ∧
    m.hashes = x.header.hashes ∧ a.content m = .ok (Sequence.content q)

/-- How a session is answered that arrives after those that were `seen`: it depends on its packets and on
which contents verified before it. -/
structure Answers (seen : List Incoming) (x : Incoming) (r : Except TransferError Outcome) : Prop where
  failed : ∀ e, r = .error e ↔ x.Rejects e
  first : x.Verifies → (∀ y ∈ seen, y.Verifies → y.key ≠ x.key) → ∃ body, r = .ok (ofBody body)
  again : x.Verifies → (∃ y ∈ seen, y.Verifies ∧ y.key = x.key) → r = .ok .duplicate

/-- Sessions are answered in turn, after those that were `seen`. -/
def Answered (seen : List Incoming) (l : List (Incoming × Except TransferError Outcome)) : Prop :=
  ∀ pre x r post, l = pre ++ (x, r) :: post → Answers (seen ++ pre.map (·.1)) x r

variable {seen : List Incoming} {r : Except TransferError Outcome}

theorem records_of_empty (hs : a.store = MemoryStore.empty) : a.Records [] where
  filed := filed_of_empty hs
  keys k := by
    rw [hs]
    constructor
    · intro h
      cases h
    · rintro ⟨x, hx, -⟩
      cases hx

theorem retains_of_empty (hs : a.store = MemoryStore.empty) (hl : a.files.disk.list? a.files.cacheDir = some []) :
    a.Retains [] where
  consistent := consistent_of_empty hs hl
  delivered k m hm := by
    rw [hs] at hm
    cases hm

theorem Records.step (hr : a.Records seen) (hm : x.header.Made) (he : x.header.endOfStream = false)
    (hset : Settles a x r b) : b.Records (seen ++ [x]) := by
  have hseen : ∀ k, (∃ y ∈ seen ++ [x], y.Verifies ∧ y.key = k) ↔
      (∃ y ∈ seen, y.Verifies ∧ y.key = k) ∨ x.Verifies ∧ x.key = k := by
    intro k
    simp only [List.mem_append, List.mem_singleton, or_and_right, exists_or, exists_eq_left]
  cases hset with
  | @rejected e files hrejects hdir =>
    have hnot := Incoming.not_verifies_iff.mpr ⟨e, hrejects⟩
    refine ⟨hr.filed.of_cacheDir hdir, fun k => ?_⟩
    rw [hseen, hr.keys]
    simp only [hnot, false_and, or_false]
  | @known q hq hknown =>
    refine ⟨hr.filed, fun k => ?_⟩
    rw [hseen, hr.keys]
    refine ⟨.inl, fun h => h.elim id ?_⟩
    rintro ⟨-, rfl⟩
    exact (hr.keys _).mp hknown
  | @stored q body files hq hnone hdir hbody _ =>
    refine ⟨(hr.filed.add hm he hbody).of_cacheDir hdir, fun k => ?_⟩
    have hget := MemoryStore.get?_add a.store (.ofHeader x.header body) k
    rw [hseen, hget, show (Message.ofHeader x.header body).contentKey = x.key from rfl]
    by_cases hkey : k = x.key
    · rw [if_pos hkey]
      exact iff_of_true rfl (.inr ⟨⟨q, hq⟩, hkey.symm⟩)
    · rw [if_neg hkey, hr.keys]
      exact ⟨.inl, fun h => h.resolve_right fun hx => hkey hx.2.symm⟩

theorem Retains.step (hr : a.Retains seen) (hm : x.header.Made) (hg : Settles a x (a.assemble x.session).1
    (a.assemble x.session).2.1) : (a.assemble x.session).2.1.Retains (seen ++ [x]) := by
  obtain ⟨h, hmade, hleaves⟩ := Step.leaves hr.consistent (.assemble x.packets x.last hm)
  have hkeeps := hleaves.keeps hr.consistent hmade
  refine ⟨hleaves.consistent hr.consistent hmade, fun k m hget => ?_⟩
  by_cases hold : a.store.messages.get? k = some m
  · obtain ⟨y, hy, q, hq, hkey, hhashes, hcontent⟩ := hr.delivered k m hold
    exact ⟨y, List.mem_append_left _ hy, q, hq, hkey, hhashes, (hkeeps.messages k m hold).2.trans hcontent⟩
  · generalize (a.assemble x.session).1 = r, (a.assemble x.session).2.1 = b at hg hget
    cases hg with
    | rejected _ _ => exact absurd hget hold
    | known _ _ => exact absurd hget hold
    | @stored q body files hq hnone _ _ hcontent =>
      rcases MemoryStore.of_get?_add hget with ⟨rfl, rfl⟩ | hget
      · exact ⟨x, List.mem_append_right _ List.mem_cons_self, q, hq, rfl, rfl, hcontent hr.consistent⟩
      · exact absurd hget hold

theorem Records.answers (hr : a.Records seen) (hset : Settles a x r b) : Answers seen x r := by
  cases hset with
  | @rejected e _ he _ =>
    have hnot := Incoming.not_verifies_iff.mpr ⟨e, he⟩
    refine ⟨fun y => ⟨fun h => ?_, fun h => ?_⟩, fun h => absurd h hnot, fun h => absurd h hnot⟩
    · exact Except.error.inj h ▸ he
    · rw [he.unique h]
  | @known q hq hknown =>
    refine ⟨fun e => ⟨nofun, fun h => ?_⟩, fun _ hnew => ?_, fun _ _ => rfl⟩
    · exact absurd ⟨q, hq⟩ (Incoming.not_verifies_iff.mpr ⟨e, h⟩)
    · obtain ⟨y, hy, hverifies, hkey⟩ := (hr.keys _).mp hknown
      exact absurd hkey (hnew y hy hverifies)
  | @stored q body _ hq hnone _ _ _ =>
    refine ⟨fun e => ⟨nofun, fun h => ?_⟩, fun _ _ => ⟨body, rfl⟩, fun _ hold => ?_⟩
    · exact absurd ⟨q, hq⟩ (Incoming.not_verifies_iff.mpr ⟨e, h⟩)
    · have hknown := (hr.keys x.key).mpr hold
      rw [hnone] at hknown
      cases hknown

variable {l : List (Incoming × Except TransferError Outcome)}

theorem answered_nil (seen : List Incoming) : Answered seen [] := by
  intro pre x r post h
  cases pre <;> cases h

theorem Answered.cons (hx : Answers seen x r) (hl : Answered (seen ++ [x]) l) : Answered seen ((x, r) :: l) := by
  intro pre y t post hsplit
  cases pre with
  | nil =>
    obtain ⟨h, -⟩ := List.cons.inj hsplit
    cases h
    rwa [List.map_nil, List.append_nil]
  | cons z pre =>
    obtain ⟨rfl, hrest⟩ := List.cons.inj hsplit
    have hy := hl pre y t post hrest
    rwa [List.append_assoc] at hy

theorem Answered.error_iff (h : Answered seen l) (hx : (x, r) ∈ l) (e : TransferError) :
    r = .error e ↔ x.Rejects e := by
  obtain ⟨pre, post, hsplit⟩ := List.append_of_mem hx
  exact (h pre x r post hsplit).failed e

/-- Once a content is stored, copies of it call for no file. -/
theorem Records.allGranted {xs : List Incoming} (hr : a.Records seen)
    (hx : ∀ x ∈ xs, x.header.Made ∧ x.header.endOfStream = false)
    (hold : ∀ x ∈ xs, ∃ y ∈ seen, y.Verifies ∧ y.key = x.key) : a.AllGranted xs := by
  induction xs generalizing a seen with
  | nil => trivial
  | cons x xs ih =>
    obtain ⟨hm, he⟩ := hx x List.mem_cons_self
    have hg : a.Granted x := granted_of_known ((hr.keys _).mpr (hold x List.mem_cons_self))
    have hstep := hr.step hm he (settles_assemble hr.filed hm he hg)
    refine ⟨hg, ih hstep (fun y hy => hx y (List.mem_cons_of_mem x hy)) fun y hy => ?_⟩
    obtain ⟨z, hz, hverifies⟩ := hold y (List.mem_cons_of_mem x hy)
    exact ⟨z, List.mem_append_left _ hz, hverifies⟩

/-- Of sessions with one content that arrive at an empty store, only the first may call for a file. -/
theorem allGranted_of_first (hs : a.store = MemoryStore.empty) {xs : List Incoming}
    (hx : ∀ y ∈ x :: xs, y.header.Made ∧ y.header.endOfStream = false) (hv : x.Verifies) (hg : a.Granted x)
    (hkeys : ∀ y ∈ xs, y.key = x.key) : a.AllGranted (x :: xs) := by
  obtain ⟨⟨hm, he⟩, hxs⟩ := List.forall_mem_cons.mp hx
  have hr := records_of_empty hs
  refine ⟨hg, (hr.step hm he (settles_assemble hr.filed hm he hg)).allGranted hxs fun y hy => ?_⟩
  exact ⟨x, List.mem_cons_self, hv, (hkeys y hy).symm⟩

/-- What a run of sessions comes to. -/
theorem records_of_assembleAll {xs : List Incoming} (hr : a.Records seen)
    (hx : ∀ x ∈ xs, x.header.Made ∧ x.header.endOfStream = false) (hg : a.AllGranted xs) :
    (a.assembleAll xs).1.map (·.1) = xs ∧ Answered seen (a.assembleAll xs).1 ∧
      (a.assembleAll xs).2.Records (seen ++ xs) ∧
        (a.Retains seen → (a.assembleAll xs).2.Retains (seen ++ xs)) := by
  induction xs generalizing a seen with
  | nil => exact ⟨rfl, answered_nil seen, by rwa [List.append_nil], by rw [List.append_nil]; exact id⟩
  | cons x xs ih =>
    obtain ⟨hm, he⟩ := hx x List.mem_cons_self
    have hset := settles_assemble hr.filed hm he hg.1
    obtain ⟨hsessions, hanswered, hrecords, hretains⟩ :=
      ih (hr.step hm he hset) (fun y hy => hx y (List.mem_cons_of_mem x hy)) hg.2
    rw [List.append_assoc] at hrecords hretains
    exact ⟨congrArg (x :: ·) hsessions, hanswered.cons (hr.answers hset), hrecords,
      fun hre => hretains (hre.step hm hset)⟩

/-! Any order. -/

/-- What taking in the sessions comes to: each is answered, it fails exactly if its packets do not verify,
and the contents that are stored are those of the sessions that verify. -/
structure Collects (a : Assembler MemoryStore) (xs : List Incoming) : Prop where
  sessions : (a.assembleAll xs).1.map (·.1) = xs
  failed : ∀ x r, (x, r) ∈ (a.assembleAll xs).1 → ((∃ e, r = .error e) ↔ ¬ x.Verifies)
  answered : Answered [] (a.assembleAll xs).1
  keys : ∀ k, ((a.assembleAll xs).2.store.messages.get? k).isSome ↔ ∃ x ∈ xs, x.Verifies ∧ x.key = k

theorem Records.collects {xs : List Incoming} (hr : (a.assembleAll xs).2.Records xs)
    (hs : (a.assembleAll xs).1.map (·.1) = xs) (ha : Answered [] (a.assembleAll xs).1) : a.Collects xs := by
  refine ⟨hs, fun x r hx => ?_, ha, hr.keys⟩
  rw [Incoming.not_verifies_iff]
  exact exists_congr (ha.error_iff hx)

/-- Two lists of sessions come to the same: a session fails with the same error in both, and the same
contents are stored. From an empty cache on their bytes are the same if no chunks collide, unless a content key
is that of two lists of hashes. -/
structure Agrees (a : Assembler MemoryStore) (xs ys : List Incoming) : Prop where
  failed : ∀ x r t, (x, r) ∈ (a.assembleAll xs).1 → (x, t) ∈ (a.assembleAll ys).1 →
    ∀ e, r = .error e ↔ t = .error e
  keys : ∀ k, ((a.assembleAll xs).2.store.messages.get? k).isSome ↔
    ((a.assembleAll ys).2.store.messages.get? k).isSome
  bytes : a.files.disk.list? a.files.cacheDir = some [] → Incoming.Uncollided xs →
    ∀ k m n, (a.assembleAll xs).2.store.messages.get? k = some m →
      (a.assembleAll ys).2.store.messages.get? k = some n →
      (∃ b, (a.assembleAll xs).2.content m = .ok b ∧ (a.assembleAll ys).2.content n = .ok b) ∨
        m.hashes ≠ n.hashes ∧ Hash.contentKey m.hashes = Hash.contentKey n.hashes

/-- What is stored under one key in both has the same bytes, or the key is that of two lists of hashes. -/
theorem Retains.content_agree {xs ys : List Incoming} (hx : a.Retains xs) (hy : b.Retains ys) (hp : xs.Perm ys)
    (hu : Incoming.Uncollided xs) {k : Hash} {m n : Message} (hm : a.store.messages.get? k = some m)
    (hn : b.store.messages.get? k = some n) :
    (∃ d, a.content m = .ok d ∧ b.content n = .ok d) ∨
      m.hashes ≠ n.hashes ∧ Hash.contentKey m.hashes = Hash.contentKey n.hashes := by
  obtain ⟨x, hx, p, hdx, hkx, hmx, hcx⟩ := hx.delivered k m hm
  obtain ⟨y, hy, q, hdy, hky, hny, hcy⟩ := hy.delivered k n hn
  rw [hmx, hny]
  by_cases hh : x.header.hashes = y.header.hashes
  · have hcontent := hu.content_eq hx (hp.mem_iff.mpr hy) hdx hdy hh
    exact .inl ⟨Sequence.content p, hcx, hcontent ▸ hcy⟩
  · exact .inr ⟨hh, hkx.trans hky.symm⟩

/-- Of sessions that are taken in one after another, it is not seen in which order they arrive. -/
theorem assembleAll_perm (hs : a.store = MemoryStore.empty) {xs ys : List Incoming} (hp : xs.Perm ys)
    (hx : ∀ x ∈ xs, x.header.Made ∧ x.header.endOfStream = false) (hgx : a.AllGranted xs)
    (hgy : a.AllGranted ys) : a.Collects xs ∧ a.Collects ys ∧ a.Agrees xs ys := by
  have hy : ∀ y ∈ ys, y.header.Made ∧ y.header.endOfStream = false := fun y hy => hx y (hp.mem_iff.mpr hy)
  obtain ⟨hsx, hax, hrx, hbx⟩ := records_of_assembleAll (records_of_empty hs) hx hgx
  obtain ⟨hsy, hay, hry, hby⟩ := records_of_assembleAll (records_of_empty hs) hy hgy
  rw [List.nil_append] at hrx hry hbx hby
  refine ⟨hrx.collects hsx hax, hry.collects hsy hay, fun x r t hr ht e => ?_, fun k => ?_,
    fun hl hu k m n hm hn => ?_⟩
  · rw [hax.error_iff hr, hay.error_iff ht]
  · rw [hrx.keys, hry.keys]
    simp only [hp.mem_iff]
  · exact (hbx (retains_of_empty hs hl)).content_agree (hby (retains_of_empty hs hl)) hp hu hm hn

/-- A content for the disk, a copy of it that is not, and a session of it that is cut short: it is kept in a
file or in memory, as it happens, and with the same bytes. -/
theorem assembleAll_perm_of_copies :
    let a : Assembler MemoryStore := ⟨.empty, ⟨.ofWorkDir ⟨#["node"]⟩, ".", "user", 0, 0⟩, 16⟩
    let d (toDisk : Bool) (extension : String) : Header.Draft :=
      { application := some "chat", blockSize := some 4, toDisk, extension := some extension
        hashes := [Hash.chunk 0 ⟨#[7, 8]⟩] }
    let session (toDisk : Bool) (extension : String) (packets : List Delivery) : Incoming :=
      ⟨List Delivery, (d toDisk extension).header, packets, true⟩
    let packets : List Delivery := [.ok (Sequence.ofChunk 0 ⟨#[7, 8]⟩)]
    let xs := [session true "txt" packets, session false "" [], session false "md" packets]
    let ys := [session false "md" packets, session true "txt" packets, session false "" []]
    xs.Perm ys ∧ a.AllGranted xs ∧ a.AllGranted ys ∧ a.files.disk.list? a.files.cacheDir = some [] ∧
      Incoming.Uncollided xs ∧ a.Collects xs ∧ a.Collects ys ∧ a.Agrees xs ys := by
  intro a d session packets xs ys
  have hcache : a.files.disk.list? a.files.cacheDir = some [] :=
    Disk.list?_eq_some_iff.mpr ⟨_, Disk.resolve_dot _, rfl, rfl⟩
  have hp : ([session true "txt" packets, session false "" []] ++ [session false "md" packets]).Perm ys :=
    List.perm_append_comm
  have hmade : ∀ x ∈ xs, x.header.Made ∧ x.header.endOfStream = false := by
    refine List.forall_mem_cons.mpr ⟨⟨.built (d := d true "txt") rfl, rfl⟩, List.forall_mem_cons.mpr ⟨?_, ?_⟩⟩
    · exact ⟨.built (d := d false "") rfl, rfl⟩
    · exact List.forall_mem_singleton.mpr ⟨.built (d := d false "md") rfl, rfl⟩
  have hdelivers (toDisk : Bool) (extension : String) :
      (session toDisk extension packets).Delivers [Sequence.ofChunk 0 ⟨#[7, 8]⟩] :=
    ⟨⟨_, drains_list [Sequence.ofChunk 0 ⟨#[7, 8]⟩]⟩, .cons rfl rfl .nil⟩
  have hkey (toDisk toDisk' : Bool) (extension extension' : String) (l l' : List Delivery) :
      (session toDisk extension l).key = (session toDisk' extension' l').key :=
    congrArg Hash.contentKey (show [Hash.chunk 0 ⟨#[7, 8]⟩] = _ from rfl)
  have hfile : a.Granted (session true "txt" packets) := by
    have hm : (d true "txt").header.Made := .built (d := d true "txt") rfl
    have haccepts :
        a.files.Accepts (a.files.pathFor (d true "txt").header) (Sequence.content [.ofChunk 0 ⟨#[7, 8]⟩]) :=
      FileStore.accepts_pathFor hm rfl rfl ⟨by decide +kernel, by decide +kernel, by decide +kernel⟩
        ⟨by decide +kernel, by decide +kernel, by decide +kernel⟩ _
    exact granted_of_accepts hm rfl (hdelivers true "txt") haccepts
  have hmemory : a.Granted (session false "md" packets) := by
    refine granted_of_short ⟨rfl, fun l e v hr => ?_⟩
    obtain ⟨w, hd⟩ := Incoming.delivers_iff.mp (hdelivers false "md")
    rw [(hr.unique hd).1]
    decide
  have hgx : a.AllGranted xs := by
    refine allGranted_of_first rfl hmade ⟨_, hdelivers true "txt"⟩ hfile ?_
    exact List.forall_mem_cons.mpr ⟨hkey .., List.forall_mem_singleton.mpr (hkey ..)⟩
  have hgy : a.AllGranted ys := by
    have hmade' : ∀ y ∈ ys, y.header.Made ∧ y.header.endOfStream = false := fun y hy => hmade y (hp.mem_iff.mpr hy)
    refine allGranted_of_first rfl hmade' ⟨_, hdelivers false "md"⟩ hmemory ?_
    exact List.forall_mem_cons.mpr ⟨hkey .., List.forall_mem_singleton.mpr (hkey ..)⟩
  have harrives (toDisk : Bool) (extension : String) (l : List Sequence) :
      ∀ q, (session toDisk extension (l.map .ok)).Delivers q → q = l :=
    fun q hq => hq.1.elim fun _ hf => eq_of_drains_list hf
  have hcopy (toDisk : Bool) (extension : String) :
      ∀ q, (session toDisk extension packets).Delivers q → ∀ c ∈ q, c.bytes = ⟨#[7, 8]⟩ := by
    intro q hq c hc
    rw [harrives toDisk extension [Sequence.ofChunk 0 ⟨#[7, 8]⟩] q hq, List.mem_singleton] at hc
    rw [hc]
    rfl
  have hcut : ∀ q, (session false "" []).Delivers q → ∀ c ∈ q, c.bytes = ⟨#[7, 8]⟩ := by
    intro q hq c hc
    rw [harrives false "" [] q hq] at hc
    cases hc
  have hbytes : ∀ x ∈ xs, ∀ q, x.Delivers q → ∀ c ∈ q, c.bytes = ⟨#[7, 8]⟩ :=
    List.forall_mem_cons.mpr ⟨hcopy true "txt", List.forall_mem_cons.mpr ⟨hcut,
      List.forall_mem_singleton.mpr (hcopy false "md")⟩⟩
  have huncollided : Incoming.Uncollided xs := fun x hx y hy _ p q hxp hyq i c d hc hd _ =>
    (hbytes x hx p hxp c (List.mem_of_getElem? hc)).trans (hbytes y hy q hyq d (List.mem_of_getElem? hd)).symm
  exact ⟨hp, hgx, hgy, hcache, huncollided, assembleAll_perm rfl hp hmade hgx hgy⟩

end Assembler
end ChunkRelay
