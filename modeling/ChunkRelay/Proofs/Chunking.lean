import ChunkRelay.Proofs.Stream
import ChunkRelay.Transfer.Chunk

/-! A body and its chunks. Put together they are the body again, and a source that hands the body out in
whatever pieces is hashed as its chunks are. -/
namespace ChunkRelay
namespace Chunk

/-- The chunks of a body, each told by its place. -/
def split (b : Bytes) (size : Nat) : List Chunk :=
  (List.range (count b.size size)).map fun i => ⟨UInt32.ofNat i, b.slice (i * size) size⟩

/-- The chunks of `b` from number `k` on, `m` of them. -/
def run (b : Bytes) (size k m : Nat) : List Chunk :=
  (List.range' k m).map fun i => ⟨UInt32.ofNat i, b.slice (i * size) size⟩

theorem split_eq_run (b : Bytes) (size : Nat) : split b size = run b size 0 (count b.size size) := by
  rw [split, run, List.range_eq_range']

@[simp] theorem run_zero (b : Bytes) (size k : Nat) : run b size k 0 = [] := rfl

theorem run_succ (b : Bytes) (size k m : Nat) :
    run b size k (m + 1) = ⟨UInt32.ofNat k, b.slice (k * size) size⟩ :: run b size (k + 1) m := by
  simp [run, List.range'_succ]

/-- A chunk is there when the body goes on at its place. -/
theorem lt_count_iff {n size k : Nat} (hs : 0 < size) : k < count n size ↔ k * size < n := by
  rw [count, Nat.lt_iff_add_one_le, Nat.le_div_iff_mul_le hs, Nat.succ_mul]
  omega

theorem count_le {n size : Nat} (hs : 0 < size) : count n size ≤ n := by
  have hn : ¬ n < count n size := by
    rw [lt_count_iff hs]
    exact Nat.not_lt.mpr (Nat.le_mul_of_pos_right n hs)
  omega

theorem concat_run (b : Bytes) (size k m : Nat) :
    Bytes.concat ((run b size k m).map Chunk.data) = b.slice (k * size) (m * size) := by
  induction m generalizing k with
  | zero => simp [Bytes.slice]
  | succ m ih =>
    rw [run_succ, List.map_cons, Bytes.concat_cons, ih, Nat.succ_mul k, Bytes.slice_append_slice,
      Nat.succ_mul m, Nat.add_comm size]

/-- There are chunks enough for the body. -/
theorem le_count_mul {n size : Nat} (hs : 0 < size) : n ≤ count n size * size := by
  have hn : ¬ count n size < count n size := Nat.lt_irrefl _
  rw [lt_count_iff hs] at hn
  omega

theorem concat_split (b : Bytes) {size : Nat} (hs : 0 < size) :
    Bytes.concat ((split b size).map Chunk.data) = b := by
  have hend := le_count_mul (n := b.size) hs
  rw [split_eq_run, concat_run, Nat.zero_mul, Bytes.slice]
  apply ByteArray.ext
  rw [ByteArray.data_extract, Array.extract_eq_self_iff, ByteArray.size_data]
  omega

theorem pos_of_checkSize {size : UInt32} (h : checkSize size = .ok ()) : 0 < size.toNat := by
  have hne : size ≠ 0 := by
    rintro rfl
    cases h
  exact Nat.pos_of_ne_zero fun h0 => hne (UInt32.toNat_inj.mp h0)

theorem count_of_le {n size : Nat} (hn : 0 < n) (hle : n ≤ size) : count n size = 1 := by
  have hs : 0 < size := Nat.lt_of_lt_of_le hn hle
  have hzero : 0 < count n size := by rwa [lt_count_iff hs, Nat.zero_mul]
  have hone : ¬ 1 < count n size := by
    rw [lt_count_iff hs, Nat.one_mul]
    exact Nat.not_lt.mpr hle
  omega

theorem split_of_le {b : Bytes} {size : Nat} (hb : 0 < b.size) (hle : b.size ≤ size) : split b size = [⟨0, b⟩] := by
  have hslice : b.slice 0 size = b := by
    apply ByteArray.ext
    rw [Bytes.slice, ByteArray.data_extract, Array.extract_eq_self_iff, ByteArray.size_data]
    omega
  rw [split_eq_run, count_of_le hb hle, run_succ, run_zero, Nat.zero_mul, hslice]
  rfl

/-- Where chunk `k` of a body of `n` bytes begins, or the end of the body if it is shorter. -/
def offset (n size k : Nat) : Nat := min (k * size) n

theorem offset_zero (n size : Nat) : offset n size 0 = 0 := by simp [offset]

theorem offset_succ (n size k : Nat) : offset n size (k + 1) = min n (offset n size k + size) := by
  simp only [offset, Nat.succ_mul]
  omega

/-- A chunk begins at its place. -/
theorem offset_of_lt {n size k : Nat} (hs : 0 < size) (hk : k < count n size) : offset n size k = k * size := by
  rw [lt_count_iff hs] at hk
  rw [offset]
  omega

/-- There is nothing behind the last chunk. -/
theorem offset_of_le {n size k : Nat} (hs : 0 < size) (hk : count n size ≤ k) : offset n size k = n := by
  have hall := le_count_mul (n := n) hs
  have hmul := Nat.mul_le_mul_right size hk
  rw [offset]
  omega

/-- A chunk holds a byte. -/
theorem size_slice_pos {b : Bytes} {size k : Nat} (hs : 0 < size) (hk : k < count b.size size) :
    (b.slice (k * size) size).size ≠ 0 := by
  rw [lt_count_iff hs] at hk
  rw [Bytes.size_slice_eq]
  omega

end Chunk

namespace BodyReader

variable {b : Bytes} {size k : Nat}

theorem pull_end (hs : 0 < size) (hk : Chunk.count b.size size ≤ k) (number : UInt32) :
    (BodyReader.mk b size (Chunk.offset b.size size k) number).pull =
      (none, ⟨b, size, Chunk.offset b.size size k, number⟩) := by
  simp [pull, Chunk.offset_of_le hs hk]

theorem pull_chunk (hs : 0 < size) (hk : k < Chunk.count b.size size) :
    (BodyReader.mk b size (Chunk.offset b.size size k) (UInt32.ofNat k)).pull =
      (some ⟨UInt32.ofNat k, b.slice (k * size) size⟩,
        ⟨b, size, Chunk.offset b.size size (k + 1), UInt32.ofNat (k + 1)⟩) := by
  have hlt := (Chunk.lt_count_iff hs).mp hk
  have hnext : UInt32.ofNat k + 1 = UInt32.ofNat (k + 1) := by simp
  have hslice : b.extract (k * size) (min b.size (k * size + size)) = b.slice (k * size) size := by
    apply ByteArray.ext
    rw [Bytes.slice, ByteArray.data_extract, ByteArray.data_extract, Array.extract_eq_extract_right,
      ByteArray.size_data]
    omega
  rw [Chunk.offset_succ, Chunk.offset_of_lt hs hk]
  simp only [pull, Nat.not_le.mpr hlt, if_false, hnext, hslice]

/-- The chunks that are left are put behind those that were cut. -/
theorem collect_eq (hs : 0 < size) {m fuel : Nat} (acc : Array Chunk) (hm : Chunk.count b.size size - k = m)
    (hf : m ≤ fuel) :
    (BodyReader.mk b size (Chunk.offset b.size size k) (UInt32.ofNat k)).collect acc fuel =
      acc.toList ++ Chunk.run b size k m := by
  induction m generalizing k acc fuel with
  | zero =>
    cases fuel with
    | zero => simp [collect]
    | succ fuel => simp [collect, pull_end hs (show Chunk.count b.size size ≤ k by omega)]
  | succ m ih =>
    cases fuel with
    | zero => cases hf
    | succ fuel =>
      have hrest := ih (k := k + 1) (acc.push ⟨UInt32.ofNat k, b.slice (k * size) size⟩) (by omega)
        (Nat.le_of_succ_le_succ hf)
      simp only [collect, pull_chunk hs (show k < Chunk.count b.size size by omega), hrest, Chunk.run_succ,
        Array.toList_push, List.append_assoc, List.singleton_append]

end BodyReader

namespace Chunk

/-- A body in memory is cut into its chunks, unless there are more of them than numbers. -/
theorem ofBody_eq {size : UInt32} (hs : checkSize size = .ok ()) (b : Bytes) :
    ofBody b size =
      if count b.size size.toNat ≤ maxCount then .ok (split b size.toNat) else .error .tooManyChunks := by
  have hpos := pos_of_checkSize hs
  by_cases hcount : count b.size size.toNat ≤ maxCount
  · have hall := BodyReader.collect_eq (k := 0) hpos #[] (Nat.sub_zero _) (count_le (n := b.size) hpos)
    rw [offset_zero, ← split_eq_run, List.nil_append] at hall
    simp only [ofBody, BodyReader.new, hs, Nat.not_lt.mpr hcount, if_false, if_pos hcount, Except.map]
    exact congrArg Except.ok hall
  · simp [ofBody, BodyReader.new, hs, Nat.lt_of_not_le hcount, hcount, Except.map]

end Chunk

/-- What a source gives is what stands next in it. -/
theorem Source.take_slice {s : Source} (hs : s.Steady) (n : Nat) :
    s.take n = (.ok (s.bytes.slice s.pos n), s.advance (min n s.rest.size)) := by
  rw [take_eq hs, slice_pos]

/-- Where the chunk after one begins. -/
theorem Source.pos_advance_chunk {s : Source} {size k : Nat} (hp : s.pos = Chunk.offset s.bytes.size size k) :
    (s.advance (min size s.rest.size)).pos = Chunk.offset s.bytes.size size (k + 1) := by
  rw [Chunk.offset_succ, pos_advance, size_rest, ← hp]
  have hle : s.pos ≤ s.bytes.size := by
    rw [hp, Chunk.offset]
    omega
  omega

namespace ChunkReader

theorem take_source (s : Source) (n : Nat) : ByteSource.take n s = s.take n := rfl

theorem pull_end {s : Source} (hs : s.Steady) {size : UInt32} (hsize : 0 < size.toNat) {k : Nat}
    (hp : s.pos = Chunk.offset s.bytes.size size.toNat k) (hk : Chunk.count s.bytes.size size.toNat ≤ k) :
    (ChunkReader.mk s size k false).pull = (none, ⟨s.advance (min size.toNat s.rest.size), size, k, true⟩) := by
  have hend : s.bytes.size ≤ s.pos := Nat.le_of_eq (hp.trans (Chunk.offset_of_le hsize hk)).symm
  simp [pull, take_source, Source.take_slice hs, Bytes.slice_eq_empty hend]

theorem pull_chunk {s : Source} (hs : s.Steady) {size : UInt32} (hsize : 0 < size.toNat) {k : Nat}
    (hp : s.pos = Chunk.offset s.bytes.size size.toNat k) (hk : k < Chunk.count s.bytes.size size.toNat) :
    (ChunkReader.mk s size k false).pull =
        if k < Chunk.maxCount then
          (some (.ok ⟨UInt32.ofNat k, s.bytes.slice (k * size.toNat) size.toNat⟩),
            ⟨s.advance (min size.toNat s.rest.size), size, k + 1, false⟩)
        else (some (.error (.policy .tooManyChunks)),
          ⟨s.advance (min size.toNat s.rest.size), size, k, true⟩) := by
  rw [Chunk.offset_of_lt hsize hk] at hp
  simp only [pull, take_source, Source.take_slice hs, hp, Chunk.size_slice_pos hsize hk, Bool.false_eq_true,
    if_false]

end ChunkReader

namespace Source

theorem hashChunks_eq {s : Source} (hs : s.Steady) {size : Nat} (hsize : 0 < size) {m fuel : Nat}
    (acc : Array Hash) (hm : Chunk.count s.bytes.size size - acc.size = m)
    (hp : s.pos = Chunk.offset s.bytes.size size acc.size) (hk : acc.size ≤ Chunk.maxCount) (hf : m < fuel) :
    s.hashChunks size acc fuel =
      if acc.size + m ≤ Chunk.maxCount then
        .ok (acc.toList ++ (Chunk.run s.bytes size acc.size m).map Chunk.hash)
      else .error (.policy .tooManyChunks) := by
  induction m generalizing s acc fuel with
  | zero =>
    cases fuel with
    | zero => cases hf
    | succ fuel =>
      have hend : s.bytes.size ≤ s.pos := Nat.le_of_eq (hp.trans (Chunk.offset_of_le hsize (by omega))).symm
      simp [hashChunks, take_slice hs, Bytes.slice_eq_empty hend, hk]
  | succ m ih =>
    have hlt : acc.size < Chunk.count s.bytes.size size := by omega
    have hpos := hp.trans (Chunk.offset_of_lt hsize hlt)
    cases fuel with
    | zero => cases hf
    | succ fuel =>
      simp only [hashChunks, take_slice hs, hpos, Chunk.size_slice_pos hsize hlt, if_false]
      by_cases hmax : acc.size < Chunk.maxCount
      · have hrest := ih (hs.advance (min size s.rest.size))
          (acc.push (Hash.chunk (UInt32.ofNat acc.size) (s.bytes.slice (acc.size * size) size)))
          (by rw [bytes_advance, Array.size_push]; omega)
          (by rw [Array.size_push]; exact pos_advance_chunk hp) (by rw [Array.size_push]; exact hmax)
          (Nat.lt_of_succ_lt_succ hf)
        rw [if_pos hmax, hrest, Array.size_push, Array.toList_push, bytes_advance, Chunk.run_succ,
          List.map_cons, List.append_assoc, Nat.add_assoc, Nat.add_comm 1]
        rfl
      · rw [if_neg hmax, if_neg (by omega)]

/-- The hashes of a source are those of its chunks, unless there are more of them than numbers. -/
theorem chunkHashes_eq {s : Source} (hs : s.Steady) (hp : s.pos = 0) {size : UInt32}
    (hsize : Chunk.checkSize size = .ok ()) :
    s.chunkHashes size =
      if Chunk.count s.bytes.size size.toNat ≤ Chunk.maxCount then
        .ok ((Chunk.split s.bytes size.toNat).map Chunk.hash)
      else .error (.policy .tooManyChunks) := by
  have hpos := Chunk.pos_of_checkSize hsize
  have hcount := Chunk.count_le (n := s.bytes.size) hpos
  have h := hashChunks_eq hs hpos #[] (Nat.sub_zero _) (hp.trans (Chunk.offset_zero _ _).symm) (Nat.zero_le _)
    (show Chunk.count s.bytes.size size.toNat < s.bytes.size + 1 by omega)
  simpa [chunkHashes, hsize, Chunk.split_eq_run] using h

end Source

/-- A body that fits one chunk has the hash of that chunk. -/
theorem Source.chunkHashes_of_le {b : Bytes} {size : UInt32} (hs : Chunk.checkSize size = .ok ()) (hb : 0 < b.size)
    (hle : b.size ≤ size.toNat) : (ofBytes b).chunkHashes size = .ok [Hash.chunk 0 b] := by
  have hbytes : (ofBytes b).bytes = b := rfl
  rw [chunkHashes_eq (steady_ofBytes b) rfl hs, hbytes, Chunk.count_of_le hb hle, if_pos (by decide),
    Chunk.split_of_le hb hle]
  rfl

end ChunkRelay
