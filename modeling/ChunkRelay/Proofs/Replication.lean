import ChunkRelay.Proofs.Intake
import ChunkRelay.Proofs.Outbound
import ChunkRelay.Proofs.Placement

/-! Messages on their way from node to node. Each node takes a message in and sends on its own record of it,
from memory or from a file as it keeps the body, and the record of every node is that of the first. The way ends
at a node that takes the message for one that it has, as it does where a record of another message names its file. -/
namespace ChunkRelay

open PacketFeed

/-- What a body is, with its file on this disk if it has one. -/
def Body.read (b : Body) (d : Disk) : Except IoError Bytes :=
  match b with
  | .inline content => .ok content
  | .file path => d.read path

/-- The bytes that a session is written as. -/
def Session.bytes {φ : Type} [PacketFeed φ] (s : Session φ) : Except TransferError Bytes :=
  let (result, _, w) := s.writeTo Sink.empty
  result.map fun _ => w.accepted

/-- The bytes that send a message, with its body from memory or from a file on this disk. -/
def Message.bytes (m : Message) (d : Disk) (threshold : Nat) (last : Bool) : Except TransferError Bytes :=
  match m.body with
  | .inline content => (Session.ofBytes m content threshold last).bind Session.bytes
  | .file path => (Session.ofFile m d path threshold last).bind Session.bytes

/-- A message that can be sent with its body from this disk: it was made from a header that lists the hashes of
its body, that fits a frame and that decoding takes as it is. -/
inductive Message.Sendable (d : Disk) : Message → Prop
  | ofHeader {h : Header} {body : Body} {content : Bytes} : h.Made → h.endOfStream = false → h.mime ≠ "" →
      h.signature ≠ some ByteArray.empty → h.encode.size ≤ Frame.maxLength →
      (Source.ofBytes content).chunkHashes h.blockSize = .ok h.hashes → body.read d = .ok content →
      Sendable d (.ofHeader h body)

/-- Takes in the session that a source begins with, and looks up its record. -/
def Assembler.takeIn {δ : Type} [Datastore δ] (a : Assembler δ) (s : Source) : Option (Message × Assembler δ) :=
  match a.receive (Inbox.new s) with
  | (.ok (some (h, .ok _)), b, _) =>
    match Datastore.get? h.contentKey b.store with
    | (.ok (some m), d) => some (m, { b with store := d })
    | _ => none
  | _ => none

/-- A node, and the stream that it gets a message on. -/
structure Hop (δ : Type) where
  /-- The longest payload that the sender wants to be kept in memory. -/
  threshold : Nat
  last : Bool
  /-- What stands on the stream after the message. -/
  rest : Bytes
  grant : Nat → Nat
  grant_pos : ∀ i, 0 < grant i
  node : Assembler δ

namespace Hop

variable {δ : Type}

def source (x : Hop δ) (b : Bytes) : Source := ⟨b ++ x.rest, x.grant, none, 0⟩

theorem steady_source (x : Hop δ) (b : Bytes) : (x.source b).Steady := ⟨rfl, fun i _ => x.grant_pos i⟩

end Hop

/-- Sends a message along nodes, each of which sends on the record that it has by then. The first sender has
its files on the disk `d`. -/
def Message.relay {δ : Type} [Datastore δ] (m : Message) (d : Disk) :
    List (Hop δ) → Option (List (Message × Assembler δ))
  | [] => some []
  | x :: l =>
    (m.bytes d x.threshold x.last).toOption.bind fun b =>
      (x.node.takeIn (x.source b)).bind fun (n, a) => (n.relay a.files.disk l).map ((n, a) :: ·)

/-! One message on one stream. -/

/-- Listed packets are written in full, if they and their header fit frames. -/
theorem Session.bytes_of_listed {φ : Type} [PacketFeed φ] {packets r : φ} {l : List Sequence}
    (hd : Drains packets l r) {h : Header} (hh : h.encode.size ≤ Frame.maxLength) (hl : Listed 0 h.hashes l)
    (hp : ∀ p ∈ l, p.encode.size ≤ Frame.maxLength) (last : Bool) :
    ∃ b, (withPackets h packets last).bytes = .ok b ∧ Packet.Stream (packetsOf h last l) b := by
  obtain ⟨b, hstream, hwrite⟩ :=
    writeTo_of_drains (Verified.drains_of_listed hd hl) hh hp (w := Sink.empty) ⟨rfl, rfl⟩ last
  refine ⟨b, ?_, hstream⟩
  rw [bytes, hwrite, ← Sink.accepted_grow_empty b]
  rfl

variable {h : Header} {content : Bytes}

/-- A record whose body can be read and has the hashes that it lists is sent. -/
theorem Message.bytes_of_read (hs : h.Sound) (he : h.endOfStream = false) (hfits : h.encode.size ≤ Frame.maxLength)
    (hhashes : (Source.ofBytes content).chunkHashes h.blockSize = .ok h.hashes) {body : Body} {d : Disk}
    (hread : body.read d = .ok content) (threshold : Nat) (last : Bool) :
    ∃ b, (Message.ofHeader h body).bytes d threshold last = .ok b ∧
      Packet.Stream (Session.packetsOf { h with toDisk := Session.storedOnDisk threshold content.size } last
        (Chunk.packets content h.blockSize.toNat)) b := by
  have hsize := hs.checkSize he
  obtain ⟨hcount, hlisted⟩ := (Chunk.chunkHashes_eq_ok_iff hsize).mp hhashes
  have hpackets : ∀ p ∈ Chunk.packets content h.blockSize.toNat, p.encode.size ≤ Frame.maxLength :=
    fun p hp => Chunk.encode_le_of_mem_packets hsize hp
  rw [← h.size_encode_toDisk (Session.storedOnDisk threshold content.size)] at hfits
  cases body with
  | inline b =>
    obtain rfl : b = content := Except.ok.inj hread
    obtain ⟨c, hc, hstream⟩ := Session.bytes_of_listed (drains_list _) hfits hlisted hpackets last
    refine ⟨c, ?_, hstream⟩
    change (Session.ofBytes _ b threshold last).bind Session.bytes = .ok c
    rw [(Session.ofBytes_eq_ok_iff hs he).mpr ⟨hcount, rfl⟩, Except.bind, hc]
  | file path =>
    obtain ⟨r, hr⟩ := ChunkReader.drains_packets hsize hcount
    obtain ⟨c, hc, hstream⟩ := Session.bytes_of_listed hr hfits hlisted hpackets last
    refine ⟨c, ?_, hstream⟩
    change (Session.ofFile _ d path threshold last).bind Session.bytes = .ok c
    rw [Session.ofFile_of_read hs he hread, Except.bind, hc]

namespace Assembler

variable {δ : Type} [Datastore δ] {a b : Assembler δ} {held : δ → Hash → Option Message}

/-- An assembler that holds nothing under the key of a content and can take it in: its datastore does not know
it and serves a record of it, and it can have its file if it needs one. -/
structure Ready (a : Assembler δ) (h : Header) (content : Bytes) : Prop where
  unknown : ∃ b, a.isKnown h.contentKey (a.files.pathFor h) = (.ok false, b) ∧
    ∀ body, Datastore.Serves b.store (.ofHeader h body)
  accepts : h.toDisk = true ∨ a.threshold < content.size → a.files.Accepts (a.files.pathFor h) content

/-- What a session brings is kept, in memory or in a file, and its record can be had. -/
theorem record_of_ready {σ : Type} [PacketFeed σ] (hd : Datastore.Lawful held) (hm : h.Made)
    (he : h.endOfStream = false) {packets : σ} {q : List Sequence} {v : Verified σ}
    (hr : Drains (Verified.new h packets) q v) (hready : a.Ready h (Sequence.content q)) (last : Bool) :
    ∃ body o c s d, a.assemble (Session.withPackets h packets last) = (.ok o, c, s) ∧
      Datastore.get? h.contentKey c.store = (.ok (some (.ofHeader h body)), d) ∧
      body.read c.files.disk = .ok (Sequence.content q) := by
  obtain ⟨b, hk, hserves⟩ := hready.unknown
  by_cases hbig : h.toDisk = true ∨ a.threshold < (Sequence.content q).size
  · obtain ⟨c, s, d, hass, hg, hread⟩ :=
      file_of_new hd hm hr he hk (hserves _) hbig (hready.accepts hbig) last
    exact ⟨_, _, c, s, d, hass, hg, hread⟩
  · obtain ⟨hdisk, hsize⟩ := not_or.mp hbig
    obtain ⟨c, s, d, hass, hg, -⟩ :=
      inline_of_new hd hr he hk (hserves _) (by simpa using hdisk) (Nat.not_lt.mp hsize) last
    exact ⟨_, _, c, s, d, hass, hg, rfl⟩

/-- A session that a stream begins with is taken in, and there is a record of it with the content that its
packets carry. -/
theorem takeIn_of_stream (hd : Datastore.Lawful held) (hm : h.Made) (hc : h.Canonical) (he : h.endOfStream = false)
    {q : List Sequence} (hq : Listed 0 h.hashes q) (hcontent : Sequence.content q = content)
    (hready : a.Ready h content) {last : Bool} {b r : Bytes} (hb : Packet.Stream (Session.packetsOf h last q) b)
    {s : Source} (hs : s.Steady) (hpos : s.pos = 0) (hbytes : s.bytes = b ++ r) :
    ∃ body c, a.takeIn s = some (.ofHeader h body, c) ∧ body.read c.files.disk = .ok content := by
  subst hcontent
  have hi := Inbox.awaits_new hs hpos hb hbytes
  obtain ⟨j, t, hnext, hdrain, -, -⟩ := Outgoing.receive_of_awaits hc he hq hi
  have hv : Drains (Verified.new h j) q t.packets := Session.drains_packets hdrain rfl
  obtain ⟨body, o, c, u, d, hass, hg, hread⟩ := record_of_ready hd hm he hv hready h.endOfStream
  have hreceive : a.receive (Inbox.new s) = (.ok (some (h, .ok o)), c, u.packets.inner) := by
    simp only [receive, hnext, Session.inbound, hass]
  refine ⟨body, { c with store := d }, ?_, hread⟩
  simp only [takeIn, hreceive, hg]

/-- A session with a content that the node takes for known is answered as a duplicate, and read to its end. -/
theorem receive_of_known (hc : h.Canonical) (he : h.endOfStream = false) {q : List Sequence}
    (hq : Listed 0 h.hashes q) {i : Inbox} {l : List Packet} {rest : Bytes}
    (hi : i.Awaits 0 (.header h :: (q.map .sequence ++ l)) rest)
    (hk : a.isKnown h.contentKey (a.files.pathFor h) = (.ok true, b)) :
    ∃ j, a.receive i = (.ok (some (h, .ok .duplicate)), b, j) ∧ j.Awaits 0 l rest := by
  obtain ⟨j, t, hnext, hdrain, -, hrest⟩ := Outgoing.receive_of_awaits hc he hq hi
  have hv : Drains (Verified.new h j) q t.packets := Session.drains_packets hdrain rfl
  obtain ⟨s, hass⟩ := duplicate_of_known hv he hk h.endOfStream
  refine ⟨s.packets.inner, ?_, ?_⟩
  · simp only [receive, hnext, Session.inbound, hass]
  · rwa [packets_of_assemble hv hass]

end Assembler

namespace Message

variable {δ : Type} [Datastore δ] {held : δ → Hash → Option Message}

/-- One hop: the node has the record of the message, wherever it keeps the body. -/
theorem takeIn_of_read (hd : Datastore.Lawful held) (hc : h.Canonical) (he : h.endOfStream = false)
    (hfits : h.encode.size ≤ Frame.maxLength)
    (hhashes : (Source.ofBytes content).chunkHashes h.blockSize = .ok h.hashes) {x : Hop δ}
    (hready : x.node.Ready { h with toDisk := Session.storedOnDisk x.threshold content.size } content)
    {body : Body} {d : Disk} (hread : body.read d = .ok content) :
    ∃ b body' a, (ofHeader h body).bytes d x.threshold x.last = .ok b ∧
      x.node.takeIn (x.source b) = some (.ofHeader h body', a) ∧ body'.read a.files.disk = .ok content := by
  have hs := hc.sound
  have hsize := hs.checkSize he
  obtain ⟨-, hlisted⟩ := (Chunk.chunkHashes_eq_ok_iff hsize).mp hhashes
  have hcontent := Chunk.content_packets content (Chunk.pos_of_checkSize hsize)
  have hm : ({ h with toDisk := Session.storedOnDisk x.threshold content.size } : Header).Made :=
    .built (hs.build_draft he body _)
  obtain ⟨b, hb, hstream⟩ := bytes_of_read hs he hfits hhashes hread x.threshold x.last
  obtain ⟨body', a, htaken, hread'⟩ := Assembler.takeIn_of_stream hd hm (hc.setToDisk _) he hlisted hcontent hready
    hstream (x.steady_source b) rfl rfl
  exact ⟨b, body', a, hb, htaken, hread'⟩

/-- A message goes along any number of nodes, and each of them has a record that says what the first one
said, with a body of the same bytes. -/
theorem relay_of_ready (hd : Datastore.Lawful held) (hm : h.Made) (he : h.endOfStream = false) (hmime : h.mime ≠ "")
    (hsignature : h.signature ≠ some ByteArray.empty) (hfits : h.encode.size ≤ Frame.maxLength)
    (hhashes : (Source.ofBytes content).chunkHashes h.blockSize = .ok h.hashes) {l : List (Hop δ)}
    (hready : ∀ x ∈ l, x.node.Ready { h with toDisk := Session.storedOnDisk x.threshold content.size } content)
    {body : Body} {d : Disk} (hread : body.read d = .ok content) :
    ∃ stored, (ofHeader h body).relay d l = some stored ∧ stored.length = l.length ∧
      ∀ y ∈ stored, y.1 = { ofHeader h body with body := y.1.body } ∧
        y.1.body.read y.2.files.disk = .ok content := by
  have hc := hm.sound.canonical hmime hsignature
  -- the header stays the same from hop to hop; the body and the disk that it may be on do not
  induction l generalizing body d with
  | nil => exact ⟨[], rfl, rfl, fun y hy => absurd hy List.not_mem_nil⟩
  | cons x l ih =>
    obtain ⟨b, body', a, hb, htaken, hread'⟩ :=
      takeIn_of_read hd hc he hfits hhashes (hready x List.mem_cons_self) hread
    obtain ⟨stored, hrelay, hlength, hstored⟩ := ih (fun y hy => hready y (List.mem_cons_of_mem x hy)) hread'
    refine ⟨(ofHeader h body', a) :: stored, ?_, by rw [List.length_cons, hlength, List.length_cons], ?_⟩
    · simp only [relay, hb, Except.toOption, Option.bind_some, htaken, hrelay, Option.map_some]
    · intro y hy
      rcases List.mem_cons.mp hy with rfl | hy
      · exact ⟨rfl, hread'⟩
      · exact hstored y hy

/-- From memory to a file, and from there to memory. -/
theorem relay_of_two :
    let d : Header.Draft :=
      { application := some "chat", blockSize := some 4, hashes := [Hash.chunk 0 ⟨#[7, 8]⟩] }
    let node : Assembler MemoryStore := ⟨.empty, ⟨.ofWorkDir ⟨#["node"]⟩, "", "user", 0, 0⟩, 16⟩
    let hop (threshold : Nat) : Hop MemoryStore :=
      ⟨threshold, true, ByteArray.empty, fun _ => 1, fun _ => Nat.one_pos, node⟩
    ∃ stored, (ofHeader d.header (.inline ⟨#[7, 8]⟩)).relay node.files.disk [hop 0, hop 16] = some stored ∧
      stored.length = 2 ∧ ∀ y ∈ stored,
        y.1 = { ofHeader d.header (.inline ⟨#[7, 8]⟩) with body := y.1.body } ∧
          y.1.body.read y.2.files.disk = .ok ⟨#[7, 8]⟩ := by
  intro d node hop
  have hm : d.header.Made := .built (d := d) rfl
  have hplain : Path.Plain d.header.storageName := Header.plain_storageName rfl hm.clean
  have hname : node.files.disk.FreeName d.header.storageName :=
    ⟨hplain, Header.storageName_ne rfl hm.clean rfl rfl, Header.storageName_ne rfl hm.clean rfl rfl,
      by decide +kernel, by decide +kernel, by decide +kernel⟩
  have hpart : node.files.disk.FreeName (node.files.partName d.header.storageName) :=
    ⟨FileStore.plain_partName node.files hplain.no_slash, (FileStore.partName_ne_dots node.files _).1,
      (FileStore.partName_ne_dots node.files _).2, by decide +kernel, by decide +kernel, by decide +kernel⟩
  have hready (toDisk : Bool) : node.Ready { d.header with toDisk } ⟨#[7, 8]⟩ := by
    refine ⟨⟨node, rfl, fun body => MemoryStore.serves _ _⟩, fun _ => ?_⟩
    have haccepts := FileStore.accepts_of_freeName hname hpart ⟨#[7, 8]⟩
    rwa [← Path.join_empty hplain] at haccepts
  have hhashes : (Source.ofBytes ⟨#[7, 8]⟩).chunkHashes d.header.blockSize = .ok d.header.hashes :=
    Source.chunkHashes_of_le rfl (by decide) (by decide)
  have hall : ∀ x ∈ [hop 0, hop 16],
      x.node.Ready { d.header with toDisk := Session.storedOnDisk x.threshold 2 } ⟨#[7, 8]⟩ :=
    List.forall_mem_cons.mpr ⟨hready _, List.forall_mem_singleton.mpr (hready _)⟩
  exact relay_of_ready MemoryStore.lawful hm rfl (by decide) (by decide) (by decide +kernel) hhashes hall rfl

/-- A node that takes the message for known answers it as a duplicate, and its store is left as it was asked. -/
theorem receive_of_known (hc : h.Canonical) (he : h.endOfStream = false) (hfits : h.encode.size ≤ Frame.maxLength)
    (hhashes : (Source.ofBytes content).chunkHashes h.blockSize = .ok h.hashes) {x : Hop δ} {a : Assembler δ}
    (hk : x.node.isKnown h.contentKey (x.node.files.pathFor h) = (.ok true, a)) {body : Body} {d : Disk}
    (hread : body.read d = .ok content) :
    ∃ b j, (ofHeader h body).bytes d x.threshold x.last = .ok b ∧
      x.node.receive (.new (x.source b)) =
        (.ok (some ({ h with toDisk := Session.storedOnDisk x.threshold content.size }, .ok .duplicate)), a, j) := by
  have hsize := hc.sound.checkSize he
  obtain ⟨-, hlisted⟩ := (Chunk.chunkHashes_eq_ok_iff hsize).mp hhashes
  obtain ⟨b, hb, hstream⟩ := bytes_of_read hc.sound he hfits hhashes hread x.threshold x.last
  have hi := Inbox.awaits_new (x.steady_source b) rfl hstream rfl
  have hcanonical : ({ h with toDisk := Session.storedOnDisk x.threshold content.size } : Header).Canonical :=
    hc.setToDisk _
  obtain ⟨j, hreceive, -⟩ := Assembler.receive_of_known hcanonical he hlisted hi hk
  exact ⟨b, j, hb, hreceive⟩

/-- A message goes no further than to a node that takes it for known and has no record under its key. -/
theorem relay_of_known (hc : h.Canonical) (he : h.endOfStream = false) (hfits : h.encode.size ≤ Frame.maxLength)
    (hhashes : (Source.ofBytes content).chunkHashes h.blockSize = .ok h.hashes) {x : Hop δ} {a : Assembler δ}
    (hk : x.node.isKnown h.contentKey (x.node.files.pathFor h) = (.ok true, a))
    {r : δ} (hget : Datastore.get? h.contentKey a.store = (.ok none, r)) {body : Body} {d : Disk}
    (hread : body.read d = .ok content) (l : List (Hop δ)) : (ofHeader h body).relay d (x :: l) = none := by
  obtain ⟨b, j, hb, hreceive⟩ := receive_of_known hc he hfits hhashes hk hread
  have htaken : x.node.takeIn (x.source b) = none := by
    have hget' : Datastore.get?
        ({ h with toDisk := Session.storedOnDisk x.threshold content.size } : Header).contentKey a.store =
          (.ok none, r) := hget
    simp only [Assembler.takeIn, hreceive, hget']
  simp only [relay, hb, Except.toOption, Option.bind_some, htaken, Option.bind_none]

end Message

namespace Assembler

theorem chunkHashes_pair : (Source.ofBytes ⟨#[7, 8]⟩).chunkHashes pair.blockSize = .ok pair.hashes :=
  (Chunk.chunkHashes_eq_ok_iff rfl).mpr ⟨by decide, .cons rfl rfl (.cons rfl rfl .nil)⟩

theorem fits_pair : pair.encode.size ≤ Frame.maxLength := by decide +kernel

theorem sendable_pairMessage (d : Disk) : pairMessage.Sendable d :=
  .ofHeader made_pair rfl (by decide) (by decide) fits_pair chunkHashes_pair rfl

/-- A node that has one message, which has no chunks and whose body is said to be in the file of the two bytes. -/
def foreignNode : Assembler MemoryStore :=
  { emptyNode 2 with
    store := MemoryStore.empty.add (.ofHeader { pair with hashes := [] } (.file (emptyFiles.pathFor pair))) }

theorem get?_foreignNode : foreignNode.store.messages.get? pair.contentKey = none := by decide +kernel

theorem isKnown_foreignNode :
    foreignNode.isKnown pair.contentKey (foreignNode.files.pathFor pair) = (.ok true, foreignNode) := by
  have hpath : Path.names (foreignNode.files.pathFor pair) ∈ foreignNode.store.paths := List.mem_singleton.mpr rfl
  rw [isKnown_eq, decide_eq_true (.inr hpath)]

end Assembler

namespace Message

open Assembler

/-- The node lacks the two bytes, and could keep them in memory or in a file. But it says that it has them, and has
no record of them after that. -/
theorem unrecorded_of_foreign_path :
    let x : Hop MemoryStore := ⟨2, true, ByteArray.empty, fun _ => 1, fun _ => Nat.one_pos, foreignNode⟩
    pairMessage.Sendable emptyFiles.disk ∧ x.node.store.messages.get? pair.contentKey = none ∧
      x.node.files.Free (x.node.files.pathFor pair) ∧ pairMessage.relay emptyFiles.disk [x] = none ∧
        ∃ b j, pairMessage.bytes emptyFiles.disk x.threshold x.last = .ok b ∧
          x.node.receive (.new (x.source b)) = (.ok (some (pair, .ok .duplicate)), x.node, j) := by
  intro x
  have hc : pair.Canonical := made_pair.sound.canonical (by decide) (by decide)
  have hget : Datastore.get? pair.contentKey x.node.store = (.ok none, x.node.store) :=
    congrArg (fun m => (Except.ok m, x.node.store)) get?_foreignNode
  have hread : Body.read (.inline ⟨#[7, 8]⟩) emptyFiles.disk = .ok ⟨#[7, 8]⟩ := rfl
  have hrelay := relay_of_known (x := x) hc rfl fits_pair chunkHashes_pair isKnown_foreignNode hget hread []
  obtain ⟨b, j, hb, hreceive⟩ :=
    receive_of_known (x := x) hc rfl fits_pair chunkHashes_pair isKnown_foreignNode hread
  exact ⟨sendable_pairMessage _, get?_foreignNode, free_pair, hrelay, b, j, hb, hreceive⟩

end Message
end ChunkRelay
