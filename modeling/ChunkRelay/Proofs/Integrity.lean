import ChunkRelay.Proofs.Chunking
import ChunkRelay.Proofs.Verification
import ChunkRelay.Transfer.Assembler

/-! Integrity of assembly. Of what a feed delivers, a sink gets the leading chunks of the body that the
header was made for and nothing else, and all of them exactly when the delivery is honest. -/
namespace ChunkRelay

open PacketFeed

/-- A sink and a count once a packet is written. -/
def Sink.accept (x : Sink × Nat) (p : Sequence) : Sink × Nat := (x.1.grow p.bytes, x.2 + p.bytes.size)

theorem Sink.foldl_accept (l : List Sequence) (w : Sink) (n : Nat) :
    l.foldl accept (w, n) = (w.grow (Sequence.content l), n + (Sequence.content l).size) := by
  induction l generalizing w n with
  | nil => simp
  | cons p l ih => simp [accept, ih, Nat.add_assoc]

/-- What a run brings is what the sink accepts, and the run's end is the result. -/
theorem Verified.writeTo_of_runs {σ : Type} [PacketFeed σ] {h : Header} {packets : σ}
    {l : List Sequence} {e : Option TransferError} {v : Verified σ}
    (hr : Runs (Verified.new h packets) l e v) {w : Sink} (hw : w.Unfailing) :
    Verified.writeTo h packets w =
      (e.elim (.ok (Sequence.content l).size) .error, w.grow (Sequence.content l)) := by
  have hf := length_lt_fuel hr
  simp only [writeTo]
  rw [forEach_of_runs (g := Sink.accept) (I := fun x => x.1.Unfailing) ?_ hr hw 0 hf, Sink.foldl_accept]
  · cases e with
    | none =>
      have hflush := Sink.flush_eq (hw.grow (Sequence.content l))
      simp only [Option.elim, hflush, Nat.zero_add]
    | some e => rfl
  · intro p s x hx
    simp only [Sink.push_eq hx]
    exact ⟨rfl, hx.grow p.bytes⟩

/-- The number and the bytes of a packet. -/
def Sequence.chunk (p : Sequence) : Chunk := ⟨p.number, p.bytes⟩

namespace Chunk

def ofDelivery? : Delivery → Option Chunk
  | .ok p => some p.chunk
  | .error _ => none

/-- The chunks up to the first one in whose place something else is delivered, or nothing at all. -/
def honestRun (chunks : List Chunk) (items : List Delivery) : List Chunk :=
  ((chunks.zip items).takeWhile fun (c, d) => ofDelivery? d = some c).map Prod.fst

/-- Other bytes than the chunk's with the chunk's hash. -/
def Collides (c : Chunk) (b : Bytes) : Prop := b ≠ c.data ∧ Hash.chunk c.number b = c.hash

/-- In no place is something delivered that collides with the chunk of that place. -/
def Uncollided (chunks : List Chunk) (items : List Delivery) : Prop :=
  ∀ (i : Nat) (p : Sequence) (c : Chunk), items[i]? = some (.ok p) → chunks[i]? = some c →
    ¬ c.Collides p.bytes

theorem Uncollided.head {c : Chunk} {chunks : List Chunk} {p : Sequence} {items : List Delivery}
    (h : Uncollided (c :: chunks) (.ok p :: items)) : ¬ c.Collides p.bytes := h 0 p c rfl rfl

theorem Uncollided.tail {c : Chunk} {chunks : List Chunk} {d : Delivery} {items : List Delivery}
    (h : Uncollided (c :: chunks) (d :: items)) : Uncollided chunks items :=
  fun i p c' hp hc' => h (i + 1) p c' (by simpa using hp) (by simpa using hc')

@[simp] theorem honestRun_nil_left (items : List Delivery) : honestRun [] items = [] := by
  simp [honestRun]

@[simp] theorem honestRun_nil_right (chunks : List Chunk) : honestRun chunks [] = [] := by
  simp [honestRun]

theorem honestRun_cons_of_eq {c : Chunk} {d : Delivery} (h : ofDelivery? d = some c)
    (chunks : List Chunk) (items : List Delivery) :
    honestRun (c :: chunks) (d :: items) = c :: honestRun chunks items := by
  simp [honestRun, h]

theorem honestRun_cons_of_ne {c : Chunk} {d : Delivery} (h : ofDelivery? d ≠ some c)
    (chunks : List Chunk) (items : List Delivery) : honestRun (c :: chunks) (d :: items) = [] := by
  simp [honestRun, h]

theorem honestRun_eq_self {chunks : List Chunk} {items : List Delivery}
    (h : items.map ofDelivery? = chunks.map some) : honestRun chunks items = chunks := by
  induction chunks generalizing items with
  | nil => simp
  | cons c chunks ih =>
    cases items with
    | nil => simp at h
    | cons d items =>
      obtain ⟨hd, hrest⟩ := List.cons.inj h
      rw [honestRun_cons_of_eq hd, ih hrest]

end Chunk

namespace Verified

theorem check_eq_of_chunk {σ : Type} {v : Verified σ} {c : Chunk} {rest : List Hash}
    (hr : v.remaining = c.hash :: rest) (hn : c.number = UInt32.ofNat v.received) {p : Sequence}
    (hp : p.chunk = c) : v.check p = .ok rest := by
  refine check_eq_ok_iff.mpr ⟨c.hash, hr, ?_, ?_⟩
  · rw [← hn, ← hp]
    rfl
  · rw [← hp]
    rfl

theorem check_ne_ok_of_chunk {σ : Type} {v : Verified σ} {c : Chunk} {rest : List Hash}
    (hr : v.remaining = c.hash :: rest) (hn : c.number = UInt32.ofNat v.received) {p : Sequence}
    (hp : p.chunk ≠ c) (hc : ¬ c.Collides p.bytes) : ∃ e, v.check p = .error e := by
  cases hv : v.check p with
  | error e => exact ⟨e, rfl⟩
  | ok rest' =>
    obtain ⟨hash, hr', hnum, hh⟩ := check_eq_ok_iff.mp hv
    have hnumber : p.number = c.number := hnum.trans hn.symm
    have hhash : p.hash = c.hash := by
      rw [hr] at hr'
      rw [hh, (List.cons.inj hr').1]
    refine absurd ⟨fun hb => hp ?_, ?_⟩ hc
    · rw [Sequence.chunk, hnumber, hb]
    · rw [← hhash, Sequence.hash, hnumber]

/-- Checking a delivery against the chunks from number `k` on lets the honest ones through, and ends
without a failure when the delivery is those chunks. -/
theorem runs_of_uncollided {b : Bytes} {size k m : Nat} {items : List Delivery}
    (hc : Chunk.Uncollided (Chunk.run b size k m) items) :
    ∃ l e v,
      Runs (⟨items, (Chunk.run b size k m).map Chunk.hash, k, false⟩ : Verified (List Delivery)) l e v ∧
      l.map Sequence.chunk = Chunk.honestRun (Chunk.run b size k m) items ∧
      (e = none ↔ items.map Chunk.ofDelivery? = (Chunk.run b size k m).map some) := by
  induction m generalizing k items with
  | zero =>
    cases items with
    | nil => exact ⟨[], none, _, runs_nil_iff.mpr rfl, by simp, by simp⟩
    | cons d items =>
      cases d with
      | error e => exact ⟨[], some e, _, runs_nil_iff.mpr rfl, by simp, by simp⟩
      | ok p => exact ⟨[], some _, _, runs_nil_iff.mpr rfl, by simp, by simp⟩
  | succ m ih =>
    rw [Chunk.run_succ] at hc ⊢
    generalize hchunk : Chunk.mk (UInt32.ofNat k) (b.slice (k * size) size) = c at hc ⊢
    have hn : c.number = UInt32.ofNat k := by rw [← hchunk]
    cases items with
    | nil => exact ⟨[], some _, _, runs_nil_iff.mpr rfl, by simp, by simp⟩
    | cons d items =>
      cases d with
      | error e =>
        have hne : Chunk.ofDelivery? (.error e) ≠ some c := by simp [Chunk.ofDelivery?]
        refine ⟨[], some e, _, runs_nil_iff.mpr rfl, ?_, by simp [hne]⟩
        rw [Chunk.honestRun_cons_of_ne hne, List.map_nil]
      | ok p =>
        by_cases hp : p.chunk = c
        · obtain ⟨l, e, v, hr, hl, he⟩ := ih hc.tail
          have heq : Chunk.ofDelivery? (.ok p) = some c := by rw [Chunk.ofDelivery?, hp]
          refine ⟨p :: l, e, v, runs_cons_iff.mpr ⟨_, ?_, hr⟩, ?_, by simp [heq, he]⟩
          · exact next_eq_ok_iff.mpr
              ⟨rfl, rfl, check_eq_ok_iff.mp (check_eq_of_chunk rfl hn hp), rfl, rfl⟩
          · rw [Chunk.honestRun_cons_of_eq heq, List.map_cons, hl, hp]
        · have hne : Chunk.ofDelivery? (.ok p) ≠ some c := fun h => hp (Option.some.inj h)
          obtain ⟨e, he⟩ := check_ne_ok_of_chunk (v := ⟨.ok p :: items,
            c.hash :: (Chunk.run b size (k + 1) m).map Chunk.hash, k, false⟩) rfl hn hp hc.head
          refine ⟨[], some e, _, runs_nil_iff.mpr (by simp [next, PacketFeed.next, he]; rfl), ?_, by simp [hne]⟩
          rw [Chunk.honestRun_cons_of_ne hne, List.map_nil]

/-- A header that was made for a body lets exactly the body through. The sink has the whole of it if the
delivery is its chunks in order, and otherwise what stands before the first thing that is not. -/
theorem writeTo_of_chunkHashes {s : Source} (hs : s.Steady) (hpos : s.pos = 0) {size : UInt32}
    {h : Header} (hh : s.chunkHashes size = .ok h.hashes) {items : List Delivery}
    (hc : Chunk.Uncollided (Chunk.split s.bytes size.toNat) items) {w : Sink} (hw : w.Unfailing) :
    (items.map Chunk.ofDelivery? = (Chunk.split s.bytes size.toNat).map some →
      Verified.writeTo h items w = (.ok s.bytes.size, w.grow s.bytes)) ∧
    (items.map Chunk.ofDelivery? ≠ (Chunk.split s.bytes size.toNat).map some →
      ∃ e, Verified.writeTo h items w = (.error e,
        w.grow (Bytes.concat ((Chunk.honestRun (Chunk.split s.bytes size.toNat) items).map Chunk.data)))) := by
  have hsize : Chunk.checkSize size = .ok () := by
    cases hcheck : Chunk.checkSize size with
    | ok u => rfl
    | error e => simp [Source.chunkHashes, hcheck] at hh
  have hhashes : h.hashes = (Chunk.split s.bytes size.toNat).map Chunk.hash := by
    rw [Source.chunkHashes_eq hs hpos hsize] at hh
    split at hh
    · exact (Except.ok.inj hh).symm
    · cases hh
  rw [Chunk.split_eq_run] at hc
  obtain ⟨l, e, v, hr, hl, he⟩ := runs_of_uncollided hc
  rw [← Chunk.split_eq_run] at hr hl he
  have hcontent : Sequence.content l =
      Bytes.concat ((Chunk.honestRun (Chunk.split s.bytes size.toNat) items).map Chunk.data) := by
    rw [← hl, List.map_map]
    rfl
  rw [← hhashes] at hr
  have hwrite := writeTo_of_runs (h := h) hr hw
  rw [hcontent] at hwrite
  constructor
  · intro heq
    have hall : Chunk.honestRun (Chunk.split s.bytes size.toNat) items = Chunk.split s.bytes size.toNat :=
      Chunk.honestRun_eq_self heq
    rw [hall, Chunk.concat_split _ (Chunk.pos_of_checkSize hsize), he.mpr heq] at hwrite
    exact hwrite
  · intro hne
    cases e with
    | none => exact absurd (he.mp rfl) hne
    | some e => exact ⟨e, hwrite⟩

theorem writeTo_of_broken_delivery :
    ∃ e, Verified.writeTo
        { Header.terminator with hashes := (Chunk.split ⟨#[7, 8, 9]⟩ (2 : UInt32).toNat).map Chunk.hash }
        ([.ok (Sequence.ofChunk 0 ⟨#[7, 8]⟩), .error .abandoned] : List Delivery) Sink.empty =
      (.error e, Sink.empty.grow ⟨#[7, 8]⟩) := by
  have hhashes : (Source.ofBytes ⟨#[7, 8, 9]⟩).chunkHashes 2 =
      .ok ((Chunk.split ⟨#[7, 8, 9]⟩ (2 : UInt32).toNat).map Chunk.hash) := by
    rw [Source.chunkHashes_eq (Source.steady_ofBytes _) rfl (by rfl), if_pos (by decide)]
    rfl
  have hc : Chunk.Uncollided (Chunk.split ⟨#[7, 8, 9]⟩ (2 : UInt32).toNat)
      [.ok (Sequence.ofChunk 0 ⟨#[7, 8]⟩), .error .abandoned] := by
    intro i p c hp hchunk
    cases i with
    | zero =>
      cases hp
      cases hchunk
      exact fun h => h.1 (by decide)
    | succ i => cases i <;> simp at hp
  obtain ⟨e, he⟩ := (writeTo_of_chunkHashes (Source.steady_ofBytes ⟨#[7, 8, 9]⟩) rfl
    (h := { Header.terminator with hashes := (Chunk.split ⟨#[7, 8, 9]⟩ (2 : UInt32).toNat).map Chunk.hash })
    hhashes hc (w := Sink.empty) ⟨rfl, rfl⟩).2 (by decide)
  have hrun : Bytes.concat ((Chunk.honestRun (Chunk.split ⟨#[7, 8, 9]⟩ (2 : UInt32).toNat)
      [.ok (Sequence.ofChunk 0 ⟨#[7, 8]⟩), .error .abandoned]).map Chunk.data) = ⟨#[7, 8]⟩ := by decide
  refine ⟨e, he.trans ?_⟩
  rw [← hrun]
  rfl

end Verified
end ChunkRelay
