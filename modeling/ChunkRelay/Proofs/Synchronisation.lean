import ChunkRelay.Proofs.Confinement
import ChunkRelay.Proofs.Declarations
import ChunkRelay.Proofs.Deduplication
import ChunkRelay.Proofs.Intake
import ChunkRelay.Proofs.Replication

/-! One round between two nodes. One declares what it has, the other sends what is not declared, and then the
first has the contents of both. Nothing comes that it had before, and nothing comes twice. For this no record of the
first may name the file of a message that it lacks, and none does where all its messages came from others. -/
namespace ChunkRelay

open PacketFeed

/-! Declaring. -/

/-- One declaration is written, and from any stream that begins with what was written the other one is read. -/
def Declaration.Learned (sent got : Declaration) : Prop :=
  ∃ b, (Packet.declare sent).writeTyped Sink.empty = (.ok (), Sink.empty.grow b) ∧
    ∀ (s : Source) (r : Bytes), s.Steady → s.pos = 0 → s.bytes = b ++ r →
      ∃ s', Packet.readTyped s = (.ok (.declare got), s') ∧ s'.rest = r

theorem Declaration.Sound.learned {d : Declaration} (hs : d.Sound) (hfits : d.encode.size ≤ Frame.maxLength) :
    d.Learned d := by
  obtain ⟨b, hb⟩ := Packet.encode_of_le (p := .declare d) hfits
  refine ⟨⟨#[(Packet.declare d).type.byte]⟩ ++ b, ?_, fun s r hsteady hpos hbytes => ?_⟩
  · rw [Packet.writeTyped_eq ⟨rfl, rfl⟩, hb]
  · obtain ⟨hread, hrest⟩ := Packet.readTyped_append hsteady hb ((Source.rest_of_start hpos).trans hbytes)
    rw [Packet.faithful_declare hs hfits] at hread
    exact ⟨_, hread, hrest⟩

/-! Sending. -/

namespace Message

variable {d : Disk} {m : Message} {l : List Message}

/-- Where a node keeps the body of a message that it keeps in a file. -/
def pathIn (m : Message) (files : FileStore) : String := files.pathFor m.draft.header

theorem header_draft {h : Header} (hs : h.Sound) (he : h.endOfStream = false) (body : Body) :
    (ofHeader h body).draft.header = { h with toDisk := false } :=
  (Header.of_build (hs.build_draft he body false)).1.symm

/-- The header to send a message on with. -/
theorem Sendable.header (hm : m.Sendable d) :
    m.draft.header.Made ∧ m.draft.header.endOfStream = false ∧ m.draft.header.contentKey = m.contentKey := by
  cases hm with
  | @ofHeader h body content hm he =>
    rw [header_draft hm.sound he body]
    exact ⟨.built (hm.sound.build_draft he body false), he, rfl⟩

/-- How a message is sent: its header and the packets of its body are written. -/
theorem Sendable.session (hm : m.Sendable d) (threshold : Nat) :
    ∃ (h : Header) (q : List Sequence), h.Canonical ∧ h.endOfStream = false ∧ h.contentKey = m.contentKey ∧
      (∀ files, files.pathFor h = m.pathIn files) ∧ Listed 0 h.hashes q ∧
      ∀ last, ∃ b, m.bytes d threshold last = .ok b ∧ Packet.Stream (Session.packetsOf h last q) b := by
  obtain ⟨hm, he, hmime, hsignature, hfits, hhashes, hread⟩ := hm
  rename_i h body content
  have hs := hm.sound
  have hlisted := ((Chunk.chunkHashes_eq_ok_iff (hs.checkSize he)).mp hhashes).2
  refine ⟨{ h with toDisk := Session.storedOnDisk threshold content.size },
    Chunk.packets content h.blockSize.toNat, (hs.canonical hmime hsignature).setToDisk _, he, rfl,
    fun files => ?_, hlisted, fun last => ?_⟩
  · rw [pathIn, header_draft hs he body]
    rfl
  · exact bytes_of_read hs he hfits hhashes hread threshold last

/-- The bytes that send messages as one batch, which the last one closes. -/
def batch (d : Disk) (threshold : Nat) : List Message → Except TransferError Bytes
  | [] => .ok ByteArray.empty
  | m :: l => do
    let b ← m.bytes d threshold l.isEmpty
    let c ← batch d threshold l
    return b ++ c

end Message

/-! Receiving. -/

namespace Assembler

/-- Takes in the sessions of an inbox, `fuel` of them at most, until the batch ends or the stream fails, and
answers each. -/
def receiveAll {δ : Type} [Datastore δ] (a : Assembler δ) (i : Inbox) :
    Nat → List (Header × Except TransferError Outcome) × Except TransferError Unit × Assembler δ
  | 0 => ([], .ok (), a)
  | fuel + 1 =>
    match a.receive i with
    | (.error e, a, _) => ([], .error e, a)
    | (.ok none, a, _) => ([], .ok (), a)
    | (.ok (some answer), a, i) =>
      let (l, r) := receiveAll a i fuel
      (answer :: l, r)

variable {a b c : Assembler MemoryStore} {h : Header} {content : Bytes} {o : Outcome} {m : Message} {l : List Message}
  {d : Disk}

/-- Taking in a session, whatever comes of it, leaves the paths with their contents. -/
theorem Filed.of_takes (hf : a.Filed) (hm : h.Made) {l : List Sequence} {e : Option TransferError}
    {r : Except TransferError Outcome} {s : SessionState} (ht : Takes a h l e r b s) : b.Filed := by
  have hdir := (gains_of_takes ht).cacheDir_eq
  cases ht with
  | ending => exact hf
  | unanswered _ hk =>
    rw [isKnown_eq] at hk
    cases hk
  | known _ hk =>
    rw [isKnown_eq] at hk
    obtain ⟨-, rfl⟩ := Prod.mk.inj hk
    exact hf
  | incomplete _ hk =>
    obtain ⟨rfl, -⟩ := isKnown_false_iff.mp hk
    exact hf
  | inline he hk _ _ _ hp =>
    obtain ⟨rfl, hnone, -⟩ := isKnown_false_iff.mp hk
    rw [persistInline, MemoryStore.persist_of_new hnone] at hp
    cases hp
    exact hf.add hm he fun _ hbody => Body.noConfusion hbody
  | refused _ hk =>
    obtain ⟨rfl, -⟩ := isKnown_false_iff.mp hk
    exact hf.of_cacheDir hdir
  | cut _ hk =>
    obtain ⟨rfl, -⟩ := isKnown_false_iff.mp hk
    exact hf.of_cacheDir hdir
  | uncommitted _ hk =>
    obtain ⟨rfl, -⟩ := isKnown_false_iff.mp hk
    exact hf.of_cacheDir hdir
  | file he hk _ _ _ _ hp =>
    obtain ⟨hsame, hnone, -⟩ := isKnown_false_iff.mp hk
    obtain rfl := hsame.symm
    rw [persistFile, MemoryStore.persist_of_new hnone] at hp
    cases hp
    exact (hf.add hm he fun _ hbody => (Body.file.inj hbody).symm).of_cacheDir hdir

theorem Filed.of_reaches (hf : a.Filed) (hr : Reaches a b) : b.Filed := by
  induction hr with
  | refl => exact hf
  | step _ hs ih =>
    cases hs with
    | @assemble φ _ h packets last hm =>
      obtain ⟨l, e, v, hv⟩ := Verified.exists_runs (Verified.new h packets) rfl
      exact ih.of_takes hm (takes_assemble _ hv last _ _ _ rfl)

/-- No record names the file of a message that the node lacks. -/
def Unclaimed (a : Assembler MemoryStore) (l : List Message) : Prop :=
  ∀ m ∈ l, a.store.messages.get? m.contentKey = none → Path.names (m.pathIn a.files) ∉ a.store.paths

/-- A node that got all its messages from others has no such record. -/
theorem unclaimed_of_reaches (hs : a.store = MemoryStore.empty) (hr : Reaches a b) (hl : ∀ m ∈ l, m.Sendable d) :
    b.Unclaimed l := by
  intro m hm hnew hp
  obtain ⟨hmade, heos, hkey⟩ := (hl m hm).header
  have hknown := ((filed_of_empty hs).of_reaches hr).known_of_path hmade heos hp
  rw [hkey, hnew] at hknown
  cases hknown

/-- What a message that is stored changes in a node: its key comes to those that were there, and no path but its
own. -/
structure Adds (a : Assembler MemoryStore) (m : Message) (c : Assembler MemoryStore) : Prop where
  cacheDir_eq : c.files.cacheDir = a.files.cacheDir
  held : ∀ k, (c.store.messages.get? k).isSome ↔ (a.store.messages.get? k).isSome ∨ k = m.contentKey
  paths : c.store.paths ⊆ Path.names (m.pathIn a.files) :: a.store.paths

/-- What is kept of a message: there is an answer for it, and it is added. -/
theorem Keeping.adds (hk : Keeping a h content (.ok o) c) (hkey : h.contentKey = m.contentKey)
    (hpath : a.files.pathFor h = m.pathIn a.files) : (∃ body, o = ofBody body) ∧ a.Adds m c := by
  have hheld (body : Body) (k : Hash) : ((a.store.add (.ofHeader h body)).messages.get? k).isSome ↔
      (a.store.messages.get? k).isSome ∨ k = m.contentKey := by
    rw [← hkey]
    exact MemoryStore.isSome_add_iff
  cases hk with
  | inline => exact ⟨⟨.inline content, rfl⟩, rfl, hheld _, List.subset_cons_self _ _⟩
  | file hbig hpart hcommit =>
    refine ⟨⟨.file (a.files.pathFor h), rfl⟩, FileStore.cacheDir_of_commit hpart hcommit, hheld _, ?_⟩
    rw [← hpath]
    exact List.Subset.refl _

/-- The answers to sessions, how receiving them ended, and the node after that. -/
abbrev Reception : Type :=
  List (Header × Except TransferError Outcome) × Except TransferError Unit × Assembler MemoryStore

/-- What comes of messages that are sent to a node: each is answered as stored, none as a duplicate, and their
keys come to those that were there. -/
structure Stores (a : Assembler MemoryStore) (l : List Message) (run : Reception) : Prop where
  ended : run.2.1 = .ok ()
  keys_eq : run.1.map (·.1.contentKey) = l.map (·.contentKey)
  stored : ∀ x ∈ run.1, ∃ body, x.2 = .ok (ofBody body)
  held : ∀ k, (run.2.2.store.messages.get? k).isSome ↔
    (a.store.messages.get? k).isSome ∨ ∃ m ∈ l, m.contentKey = k

/-- No step on files failed in any session. -/
def Unhindered (answers : List (Header × Except TransferError Outcome)) : Prop :=
  ∀ x ∈ answers, ∀ e, x.2 = .error e → e.isFileFailure = false

theorem unhindered_singleton (h : Header) (o : Outcome) : Unhindered [(h, .ok o)] := by
  intro x hx e he
  obtain rfl := List.mem_singleton.mp hx
  cases he

theorem receiveAll_of_receive {i j : Inbox} {answer : Header × Except TransferError Outcome}
    (h : a.receive i = (.ok (some answer), c, j)) (fuel : Nat) :
    a.receiveAll i (fuel + 1) = (answer :: (c.receiveAll j fuel).1, (c.receiveAll j fuel).2) := by
  simp only [receiveAll, h]

/-- One session with a new content, and what is received after it. -/
theorem receiveAll_of_awaits (hc : h.Canonical) (he : h.endOfStream = false) {q : List Sequence}
    (hq : Listed 0 h.hashes q) {i : Inbox} {l : List Packet} {rest : Bytes}
    (hi : i.Awaits 0 (.header h :: (q.map .sequence ++ l)) rest) (hkey : h.contentKey = m.contentKey)
    (hpath : a.files.pathFor h = m.pathIn a.files) (hnew : a.store.messages.get? m.contentKey = none)
    (hunclaimed : Path.names (m.pathIn a.files) ∉ a.store.paths) :
    ∃ (r : Except TransferError Outcome) (c : Assembler MemoryStore) (j : Inbox),
      (∀ fuel, a.receiveAll i (fuel + 1) = ((h, r) :: (c.receiveAll j fuel).1, (c.receiveAll j fuel).2)) ∧
      (h.toDisk = false → (Sequence.content q).size ≤ a.threshold → r = .ok (.inline (Sequence.content q))) ∧
      ((∀ e, r = .error e → e.isFileFailure = false) →
        (∃ body, r = .ok (ofBody body)) ∧ a.Adds m c ∧ j.Awaits 0 l rest) := by
  rw [← hkey] at hnew
  rw [← hpath] at hunclaimed
  obtain ⟨j, r, c, u, hnext, hass, hkeeping, hrest⟩ :=
    keeping_of_awaits (Header.ofRaw_raw hc) he hq hi hnew hunclaimed
  have hreceive : a.receive i = (.ok (some (h, r)), c, u.packets.inner) := by simp only [receive, hnext, hass]
  refine ⟨r, c, u.packets.inner, receiveAll_of_receive hreceive,
    fun hdisk hsize => (hkeeping.of_short hdisk hsize).1, fun hgranted => ?_⟩
  cases r with
  | error e =>
    cases hkeeping with
    | failed _ hx => cases (hgranted e rfl).symm.trans hx
  | ok o =>
    obtain ⟨⟨body, rfl⟩, hadds⟩ := hkeeping.adds hkey hpath
    exact ⟨⟨body, rfl⟩, hadds, hrest _ rfl⟩

theorem receiveAll_of_terminator {i : Inbox} {rest : Bytes} (hi : i.Awaits 0 [.header Header.terminator] rest)
    (fuel : Nat) : a.receiveAll i (fuel + 1) = ([], .ok (), a) := by
  obtain ⟨j, hend, -⟩ := Inbox.nextHeader_of_terminator hi
  simp only [receiveAll, receive, hend]

/-- The contents of the messages are all different, the node has none of them, and no record of it names a file of
one. -/
structure Lacks (a : Assembler MemoryStore) (l : List Message) : Prop where
  nodup : (l.map (·.contentKey)).Nodup
  new : ∀ m ∈ l, a.store.messages.get? m.contentKey = none
  unclaimed : a.Unclaimed l

/-- Once the first of them is stored, the others are still lacking. -/
theorem Lacks.tail (hl : a.Lacks (m :: l)) (hsend : ∀ n ∈ m :: l, n.Sendable d) (hadds : a.Adds m c) :
    c.Lacks l := by
  obtain ⟨hm, hnodup⟩ := List.nodup_cons.mp hl.nodup
  obtain ⟨hmade, heos, hkey⟩ := (hsend m List.mem_cons_self).header
  have hnew (n : Message) (hn : n ∈ l) := hl.new n (List.mem_cons_of_mem m hn)
  refine ⟨hnodup, fun n hn => ?_, fun n hn _ hp => ?_⟩
  · rw [← Option.not_isSome_iff_eq_none, hadds.held, hnew n hn]
    rintro (hsome | hsame)
    · cases hsome
    · exact hm (List.mem_map.mpr ⟨n, hn, hsame⟩)
  · have hpath : n.pathIn c.files = n.pathIn a.files := by
      rw [Message.pathIn, Message.pathIn, FileStore.pathFor, FileStore.pathFor, hadds.cacheDir_eq]
    rw [hpath] at hp
    rcases List.mem_cons.mp (hadds.paths hp) with hsame | hold
    · obtain ⟨hmade', heos', hkey'⟩ := (hsend n (List.mem_cons_of_mem m hn)).header
      have hsame' := FileStore.contentKey_of_pathFor hmade' hmade heos' heos hsame
      rw [hkey, hkey'] at hsame'
      exact hm (List.mem_map.mpr ⟨n, hn, hsame'⟩)
    · exact hl.unclaimed n (List.mem_cons_of_mem m hn) (hnew n hn) hold

theorem Stores.cons {run : Reception} (hs : c.Stores l run) (hkey : h.contentKey = m.contentKey) (hadds : a.Adds m c)
    (body : Body) : a.Stores (m :: l) ((h, .ok (ofBody body)) :: run.1, run.2) where
  ended := hs.ended
  keys_eq := by rw [List.map_cons, List.map_cons, hs.keys_eq, hkey]
  stored x hx := by
    rcases List.mem_cons.mp hx with rfl | hx
    · exact ⟨body, rfl⟩
    · exact hs.stored x hx
  held k := by
    simp only [hs.held, hadds.held, or_assoc, List.mem_cons, or_and_right, exists_or, exists_eq_left, eq_comm (a := k)]

/-- Whatever node lacks the messages, it stores them off a stream with these packets. -/
def Brings (p : List Packet) (l : List Message) : Prop :=
  ∀ (a : Assembler MemoryStore) (i : Inbox) (rest : Bytes) (fuel : Nat), a.Lacks l → i.Awaits 0 p rest →
    l.length < fuel → Unhindered (a.receiveAll i fuel).1 → a.Stores l (a.receiveAll i fuel)

theorem brings_nil : Brings [.header Header.terminator] [] := by
  intro a i rest fuel _ hi hfuel _
  obtain ⟨n, rfl⟩ := Nat.exists_eq_succ_of_ne_zero (Nat.ne_zero_of_lt hfuel)
  rw [receiveAll_of_terminator hi]
  exact ⟨rfl, rfl, fun x hx => absurd hx List.not_mem_nil, fun k => by simp⟩

theorem Brings.cons {p : List Packet} (hp : Brings p l) (hsend : ∀ n ∈ m :: l, n.Sendable d) (hc : h.Canonical)
    (he : h.endOfStream = false) {q : List Sequence} (hq : Listed 0 h.hashes q) (hkey : h.contentKey = m.contentKey)
    (hpath : ∀ files : FileStore, files.pathFor h = m.pathIn files) :
    Brings (.header h :: (q.map .sequence ++ p)) (m :: l) := by
  intro a i rest fuel hl hi hfuel hgranted
  obtain ⟨n, rfl⟩ := Nat.exists_eq_succ_of_ne_zero (Nat.ne_zero_of_lt hfuel)
  have hnew := hl.new m List.mem_cons_self
  have hunclaimed := hl.unclaimed m List.mem_cons_self hnew
  obtain ⟨r, c, j, hrun, -, hstored⟩ := receiveAll_of_awaits hc he hq hi hkey (hpath _) hnew hunclaimed
  rw [hrun] at hgranted ⊢
  obtain ⟨hfirst, hrest⟩ := List.forall_mem_cons.mp hgranted
  obtain ⟨⟨body, rfl⟩, hadds, hj⟩ := hstored hfirst
  have hs := hp c j rest n (hl.tail hsend hadds) hj (Nat.lt_of_succ_lt_succ hfuel) hrest
  exact hs.cons hkey hadds body

end Assembler

namespace Message

variable {d : Disk} {l : List Message}

theorem batch_singleton {m : Message} {threshold : Nat} {b : Bytes} (hb : m.bytes d threshold true = .ok b) :
    batch d threshold [m] = .ok b := by
  rw [batch, List.isEmpty_nil, hb]
  exact congrArg Except.ok ByteArray.append_empty

/-- Messages can be sent as a batch, which brings them to whatever node lacks them. -/
theorem batch_brings (hne : l ≠ []) (hl : ∀ m ∈ l, m.Sendable d) (threshold : Nat) :
    ∃ b p, batch d threshold l = .ok b ∧ Packet.Stream p b ∧ Assembler.Brings p l := by
  induction l with
  | nil => exact absurd rfl hne
  | cons m l ih =>
    obtain ⟨h, q, hc, he, hkey, hpath, hlisted, hbytes⟩ := (hl m List.mem_cons_self).session threshold
    obtain ⟨b, hb, hstream⟩ := hbytes l.isEmpty
    cases l with
    | nil =>
      rw [List.isEmpty_nil, Session.packetsOf_last he] at hstream
      exact ⟨b, _, batch_singleton hb, hstream, Assembler.brings_nil.cons hl hc he hlisted hkey hpath⟩
    | cons n l =>
      obtain ⟨c, p, hbatch, hstream', hbrings⟩ :=
        ih (List.cons_ne_nil n l) fun x hx => hl x (List.mem_cons_of_mem m hx)
      refine ⟨b ++ c, _, by rw [batch, hb, hbatch]; rfl, ?_, hbrings.cons hl hc he hlisted hkey hpath⟩
      rw [List.isEmpty_cons, Session.packetsOf_not_last] at hstream
      exact hstream.append hstream'

end Message

namespace Assembler

variable {a b : Assembler MemoryStore} {known : List Hash} {cap : Nat} {outbox : List Message} {d : Disk}

/-- What one round comes to. A node declares what it has, and a sender learns of it. The messages that the declaration
wants are sent as one batch. Unless a step on files fails, the node stores each of them, and then it has what it had
and what the sender has. -/
structure Synchronises (a : Assembler MemoryStore) (declared : Declaration) (outbox : List Message) (d : Disk)
    (threshold : Nat) : Prop where
  learned : declared.Learned declared
  stores :
    let wanted := outbox.filter (declared.wants ·.contentKey)
    wanted ≠ [] → ∃ b, Message.batch d threshold wanted = .ok b ∧
      ∀ (s : Source) (r : Bytes) (fuel : Nat), s.Steady → s.pos = 0 → s.bytes = b ++ r → wanted.length < fuel →
        let run := a.receiveAll (.new s) fuel
        Unhindered run.1 → a.Stores wanted run ∧
          ∀ k, (run.2.2.store.messages.get? k).isSome ↔
            (a.store.messages.get? k).isSome ∨ ∃ m ∈ outbox, m.contentKey = k

/-- The declaration of all that a node has wants what it lacks. -/
theorem wants_ofKnown_iff (hknown : known.Perm a.store.messages.keys) (hpos : 0 < a.store.size)
    (hcap : a.store.size ≤ cap) (k : Hash) :
    (Declaration.ofKnown known cap).wants k = true ↔ a.store.messages.get? k = none := by
  have hlength : known.length = a.store.size := by rw [hknown.length_eq, SortedMap.keys, List.length_map]; rfl
  have hne : known ≠ [] := fun hnil => by
    rw [← hlength, hnil] at hpos
    cases hpos
  rw [Declaration.wants_ofKnown_iff hne (hlength ▸ hcap), hknown.mem_iff, SortedMap.mem_keys_iff,
    Option.not_isSome_iff_eq_none]

/-- A round with a declaration that wants what the node lacks. -/
theorem synchronises_of_wants {declared : Declaration} (hlearned : declared.Learned declared)
    (hwants : ∀ k, declared.wants k = true ↔ a.store.messages.get? k = none) (hout : ∀ m ∈ outbox, m.Sendable d)
    (hkeys : (outbox.map (·.contentKey)).Nodup) (hunclaimed : a.Unclaimed outbox) (threshold : Nat) :
    a.Synchronises declared outbox d threshold := by
  refine ⟨hlearned, fun hwanted => ?_⟩
  obtain ⟨b, p, hbatch, hstream, hbrings⟩ :=
    Message.batch_brings hwanted (fun m hm => hout m (List.mem_filter.mp hm).1) threshold
  refine ⟨b, hbatch, ?_⟩
  intro s r fuel hs hstart hbytes hfuel run hgranted
  have hlacks : a.Lacks (outbox.filter (declared.wants ·.contentKey)) := by
    refine ⟨hkeys.sublist (List.filter_sublist.map _), fun m hm => ?_, fun m hm => ?_⟩
    · exact (hwants _).mp (List.mem_filter.mp hm).2
    · exact hunclaimed m (List.mem_filter.mp hm).1
  have hstores := hbrings a _ r fuel hlacks (Inbox.awaits_new hs hstart hstream hbytes) hfuel hgranted
  refine ⟨hstores, fun k => ?_⟩
  rw [hstores.held]
  constructor
  · rintro (hold | ⟨m, hm, hk⟩)
    · exact .inl hold
    · exact .inr ⟨m, (List.mem_filter.mp hm).1, hk⟩
  · rintro (hold | ⟨m, hm, rfl⟩)
    · exact .inl hold
    · cases hget : a.store.messages.get? m.contentKey with
      | some n => exact .inl rfl
      | none => exact .inr ⟨m, List.mem_filter.mpr ⟨hm, (hwants _).mpr hget⟩, rfl⟩

/-- One round synchronises without waste, if no record of the node names the file of a message that it lacks. -/
theorem stores_of_round (hknown : known.Perm a.store.messages.keys) (hpos : 0 < a.store.size)
    (hcap : a.store.size ≤ cap) (hfits : (Declaration.ofKnown known cap).encode.size ≤ Frame.maxLength)
    (hout : ∀ m ∈ outbox, m.Sendable d) (hkeys : (outbox.map (·.contentKey)).Nodup) (hunclaimed : a.Unclaimed outbox)
    (threshold : Nat) : a.Synchronises (Declaration.ofKnown known cap) outbox d threshold := by
  have hlearned := (Declaration.sound_ofKnown known cap).learned hfits
  exact synchronises_of_wants hlearned (wants_ofKnown_iff hknown hpos hcap) hout hkeys hunclaimed threshold

/-- A node with one message is sent the other of two. -/
theorem stores_of_one_missing :
    let draft (content : Bytes) : Header.Draft :=
      { application := some "chat", blockSize := some 4, hashes := [Hash.chunk 0 content] }
    let message (content : Bytes) : Message := .ofHeader (draft content).header (.inline content)
    let a : Assembler MemoryStore :=
      ⟨MemoryStore.empty.add (message ⟨#[1]⟩), ⟨.ofWorkDir ⟨#["node"]⟩, "", "user", 0, 0⟩, 16⟩
    let outbox := [message ⟨#[1]⟩, message ⟨#[7, 8]⟩]
    let declared := Declaration.ofKnown a.store.messages.keys 8
    let wanted := outbox.filter (declared.wants ·.contentKey)
    declared.Learned declared ∧ ∃ b, Message.batch a.files.disk 16 wanted = .ok b ∧
      a.Stores wanted (a.receiveAll (.new (.ofBytes b)) 2) := by
  intro draft message a outbox declared wanted
  have hm (content : Bytes) : (draft content).header.Made := .built (d := draft content) rfl
  have hhashes (content : Bytes) (hne : 0 < content.size) (hsize : content.size ≤ 4) :
      (Source.ofBytes content).chunkHashes (draft content).header.blockSize = .ok (draft content).header.hashes :=
    Source.chunkHashes_of_le rfl hne hsize
  have hout : ∀ m ∈ outbox, m.Sendable a.files.disk := by
    refine List.forall_mem_cons.mpr ⟨?_, List.forall_mem_singleton.mpr ?_⟩
    · exact .ofHeader (hm _) rfl (by decide) (by decide) (by decide +kernel) (hhashes _ (by decide) (by decide)) rfl
    · exact .ofHeader (hm _) rfl (by decide) (by decide) (by decide +kernel) (hhashes _ (by decide) (by decide)) rfl
  have hwanted : wanted = [message ⟨#[7, 8]⟩] := by decide +kernel
  have hkeys : (outbox.map (·.contentKey)).Nodup := by decide +kernel
  have hfits : declared.encode.size ≤ Frame.maxLength := by decide +kernel
  have hsome : wanted ≠ [] := by
    rw [hwanted]
    exact List.cons_ne_nil _ _
  have hunclaimed : a.Unclaimed outbox := fun _ _ _ => List.not_mem_nil
  obtain ⟨hlearned, hbatch⟩ := stores_of_round (.refl _) (by decide) (by decide) hfits hout hkeys hunclaimed 16
  obtain ⟨b, hb, hstores⟩ := hbatch hsome
  -- the one message that is wanted stays in memory on both sides
  have hsession := Message.bytes_of_read (d := a.files.disk) (hm ⟨#[7, 8]⟩).sound rfl (by decide +kernel)
    (hhashes ⟨#[7, 8]⟩ (by decide) (by decide)) (show Body.read (.inline ⟨#[7, 8]⟩) _ = _ from rfl) 16 true
  obtain ⟨c, hc, hstream⟩ := hsession
  have hone : Message.batch a.files.disk 16 wanted = .ok c := by
    rw [hwanted]
    exact Message.batch_singleton hc
  obtain rfl : b = c := Except.ok.inj (hb.symm.trans hone)
  have hbytes : (Source.ofBytes b).bytes = b ++ ByteArray.empty := ByteArray.append_empty.symm
  have hi := Inbox.awaits_new (Source.steady_ofBytes b) rfl hstream hbytes
  have hcanonical : (draft ⟨#[7, 8]⟩).header.Canonical := (hm _).sound.canonical (by decide) (by decide)
  have hlisted := ((Chunk.chunkHashes_eq_ok_iff rfl).mp (hhashes ⟨#[7, 8]⟩ (by decide) (by decide))).2
  have hnew : a.store.messages.get? (draft ⟨#[7, 8]⟩).header.contentKey = none := by decide +kernel
  obtain ⟨r, e, j, hrun, hshort, hstored⟩ :=
    receiveAll_of_awaits (m := message ⟨#[7, 8]⟩) hcanonical rfl hlisted hi rfl rfl hnew List.not_mem_nil
  obtain rfl := hshort rfl (by decide)
  obtain ⟨-, -, hj⟩ := hstored nofun
  have hgranted : Unhindered (a.receiveAll (.new (.ofBytes b)) 2).1 := by
    rw [hrun, receiveAll_of_terminator hj]
    exact unhindered_singleton _ _
  have hfuel : wanted.length < 2 := by rw [hwanted]; decide
  exact ⟨hlearned, b, hb, (hstores _ _ 2 (Source.steady_ofBytes b) rfl hbytes hfuel hgranted).1⟩

/-- A record of another message names the file of the two bytes. The node declares that other message, is sent the two
bytes, and answers that it has them. They are still lacking then, and so it goes in every round. -/
theorem duplicate_of_foreign_record :
    let declared := Declaration.ofKnown foreignNode.store.messages.keys 8
    let outbox := [pairMessage]
    foreignNode.store.size = 1 ∧ declared.encode.size ≤ Frame.maxLength ∧
      (∀ m ∈ outbox, m.Sendable emptyFiles.disk) ∧ outbox.filter (declared.wants ·.contentKey) = outbox ∧
      (∃ b, Message.batch emptyFiles.disk 2 outbox = .ok b ∧
        foreignNode.receiveAll (.new (.ofBytes b)) 2 = ([(pair, .ok .duplicate)], .ok (), foreignNode)) ∧
      ¬ foreignNode.Synchronises declared outbox emptyFiles.disk 2 := by
  intro declared outbox
  have hwanted : outbox.filter (declared.wants ·.contentKey) = outbox := by decide +kernel
  have hc : pair.Canonical := made_pair.sound.canonical (by decide) (by decide)
  have hread : Body.read (.inline ⟨#[7, 8]⟩) emptyFiles.disk = .ok ⟨#[7, 8]⟩ := rfl
  obtain ⟨b, hb, hstream⟩ := Message.bytes_of_read hc.sound rfl fits_pair chunkHashes_pair hread 2 true
  have hbatch : Message.batch emptyFiles.disk 2 outbox = .ok b := Message.batch_singleton hb
  have hi := Inbox.awaits_new (Source.steady_ofBytes b) rfl hstream (ByteArray.append_empty (b := b)).symm
  have hlisted := ((Chunk.chunkHashes_eq_ok_iff rfl).mp chunkHashes_pair).2
  obtain ⟨j, hreceive, hj⟩ := receive_of_known (a := foreignNode) hc rfl hlisted hi isKnown_foreignNode
  have hrun : foreignNode.receiveAll (.new (.ofBytes b)) 2 = ([(pair, .ok .duplicate)], .ok (), foreignNode) := by
    rw [receiveAll_of_receive hreceive, receiveAll_of_terminator hj]
  refine ⟨rfl, by decide +kernel, List.forall_mem_singleton.mpr (sendable_pairMessage _), hwanted,
    ⟨b, hbatch, hrun⟩, fun hsync => ?_⟩
  have hstores := hsync.stores
  simp only [hwanted] at hstores
  obtain ⟨b', hb', hstored⟩ := hstores (List.cons_ne_nil _ _)
  obtain rfl : b' = b := Except.ok.inj (hb'.symm.trans hbatch)
  have hgranted : Unhindered (foreignNode.receiveAll (.new (.ofBytes b')) 2).1 := by
    rw [hrun]
    exact unhindered_singleton pair .duplicate
  have hanswer := (hstored (.ofBytes b') ByteArray.empty 2 (Source.steady_ofBytes b') rfl ByteArray.append_empty.symm
    (by decide) hgranted).1.stored
  rw [hrun] at hanswer
  obtain ⟨body, hbody⟩ := List.forall_mem_singleton.mp hanswer
  cases body <;> cases hbody

/-- A node that got all its messages from others has no record that could be in the way of a round. -/
theorem synchronises_of_reaches (hs : a.store = MemoryStore.empty) (hr : Reaches a b)
    (hknown : known.Perm b.store.messages.keys) (hpos : 0 < b.store.size) (hcap : b.store.size ≤ cap)
    (hfits : (Declaration.ofKnown known cap).encode.size ≤ Frame.maxLength) (hout : ∀ m ∈ outbox, m.Sendable d)
    (hkeys : (outbox.map (·.contentKey)).Nodup) (threshold : Nat) :
    b.Synchronises (Declaration.ofKnown known cap) outbox d threshold := by
  have hlearned := (Declaration.sound_ofKnown known cap).learned hfits
  have hunclaimed := unclaimed_of_reaches hs hr hout
  exact synchronises_of_wants hlearned (wants_ofKnown_iff hknown hpos hcap) hout hkeys hunclaimed threshold

end Assembler
end ChunkRelay
