import ChunkRelay.Proofs.Chunking

/-! What it is to be cut into chunks. A body is cut in one way, and whoever cuts it cuts it so: a reader of
the body in memory, a reader of a source that hands it out in whatever pieces, and the hashing of a source.
From a source that breaks come the chunks that are whole before the break. -/
namespace ChunkRelay

/-- What `n` calls of `next` bring, one after another. -/
def draws {α σ : Type} (next : σ → Option α × σ) : Nat → σ → List (Option α)
  | 0, _ => []
  | n + 1, s => (next s).1 :: draws next n (next s).2

/-- After its end an iterator brings nothing more. -/
theorem draws_of_ended {α σ : Type} {next : σ → Option α × σ} {s : σ} (h : next s = (none, s)) (n : Nat) :
    draws next n s = List.replicate n none := by
  induction n with
  | zero => rfl
  | succ n ih => rw [draws, h, ih, List.replicate_succ]

namespace Chunk

/-- The chunks of a body: in their order they are numbered from zero and put together the body, each of them
has the chunk size, and only the last may be shorter, but not empty. -/
structure Cut (b : Bytes) (size : Nat) (l : List Chunk) : Prop where
  content : Bytes.concat (l.map data) = b
  numbers : ∀ i (h : i < l.length), l[i].number.toNat = i
  full : ∀ i (h : i + 1 < l.length), l[i].data.size = size
  last : ∀ i (h : i + 1 = l.length), 0 < l[i].data.size ∧ l[i].data.size ≤ size

@[simp] theorem length_split (b : Bytes) (size : Nat) : (split b size).length = count b.size size := by simp [split]

theorem getElem_split {b : Bytes} {size i : Nat} (h : i < (split b size).length) :
    (split b size)[i] = ⟨UInt32.ofNat i, b.slice (i * size) size⟩ := by
  simp [split]

theorem cut_split {b : Bytes} {size : Nat} (hs : 0 < size) (hcount : count b.size size ≤ maxCount) :
    Cut b size (split b size) where
  content := concat_split b hs
  numbers i h := by
    rw [getElem_split]
    rw [length_split] at h
    exact UInt32.toNat_ofNat_of_lt' (Nat.lt_of_lt_of_le h hcount)
  full i h := by
    rw [length_split, lt_count_iff hs, Nat.succ_mul] at h
    rw [getElem_split, Bytes.size_slice_eq]
    omega
  last i h := by
    have hi : i < count b.size size := by rw [length_split] at h; omega
    rw [lt_count_iff hs] at hi
    rw [getElem_split, Bytes.size_slice_eq]
    omega

variable {b : Bytes} {size : Nat} {l : List Chunk}

/-- Chunks of which only the last may be shorter stand where multiples of the size are. -/
theorem data_eq_slice (hfull : ∀ i (h : i + 1 < l.length), l[i].data.size = size)
    (hlast : ∀ i (h : i + 1 = l.length), l[i].data.size ≤ size) {i : Nat} (h : i < l.length) :
    l[i].data = (Bytes.concat (l.map data)).slice (i * size) size := by
  induction l generalizing i with
  | nil => cases h
  | cons c l ih =>
    have hrest : ∀ (j : Nat) (hj : j < l.length), l[j].data = (Bytes.concat (l.map data)).slice (j * size) size :=
      fun j hj => ih (fun i hi => hfull (i + 1) (Nat.succ_lt_succ hi))
        (fun i hi => hlast (i + 1) (congrArg Nat.succ hi)) hj
    rw [List.map_cons, Bytes.concat_cons]
    cases i with
    | zero =>
      rw [List.getElem_cons_zero, Nat.zero_mul, Bytes.slice, Nat.zero_add]
      cases l with
      | nil =>
        have hle : c.data.size ≤ size := hlast 0 rfl
        rw [List.map_nil, Bytes.concat_nil, ByteArray.append_empty]
        apply ByteArray.ext
        rw [ByteArray.data_extract, eq_comm, Array.extract_eq_self_iff, ByteArray.size_data]
        omega
      | cons d l =>
        have hc : c.data.size = size := hfull 0 (Nat.succ_lt_succ (Nat.zero_lt_succ _))
        rw [← hc, ByteArray.extract_append_size_left, ByteArray.extract_zero_size]
    | succ i =>
      have hi : i < l.length := Nat.lt_of_succ_lt_succ h
      have hc : c.data.size = size := hfull 0 (by rw [List.length_cons]; omega)
      have hplace : (i + 1) * size = c.data.size + i * size := by
        rw [Nat.succ_mul, hc]
        omega
      rw [List.getElem_cons_succ, hrest i hi, hplace, Bytes.slice, Bytes.slice, Nat.add_assoc,
        ByteArray.extract_append_size_add]

theorem size_concat_le (h : ∀ c ∈ l, c.data.size ≤ size) : (Bytes.concat (l.map data)).size ≤ l.length * size := by
  induction l with
  | nil => simp
  | cons c l ih =>
    have hc := h c List.mem_cons_self
    have hl := ih fun d hd => h d (List.mem_cons_of_mem c hd)
    rw [List.map_cons, Bytes.concat_cons, ByteArray.size_append, List.length_cons, Nat.succ_mul]
    omega

namespace Cut

theorem size_bounds (h : Cut b size l) (hs : 0 < size) {i : Nat} (hi : i < l.length) :
    0 < l[i].data.size ∧ l[i].data.size ≤ size := by
  by_cases hlast : i + 1 = l.length
  · exact h.last i hlast
  · rw [h.full i (by omega)]
    exact ⟨hs, Nat.le_refl _⟩

theorem data_eq (h : Cut b size l) {i : Nat} (hi : i < l.length) : l[i].data = b.slice (i * size) size := by
  rw [data_eq_slice h.full (fun i hi => (h.last i hi).2) hi, h.content]

/-- There are as many chunks as the size of the body asks for. -/
theorem length_eq (h : Cut b size l) (hs : 0 < size) : l.length = count b.size size := by
  -- One more would hold no byte, and without the last the chunks would be too small for the body.
  have hge : ¬ count b.size size < l.length := by
    intro hi
    have hpos := (h.size_bounds hs hi).1
    have hend := le_count_mul (n := b.size) hs
    rw [h.data_eq hi, Bytes.size_slice_eq] at hpos
    omega
  have hle : ¬ l.length < count b.size size := by
    have hsize : (Bytes.concat (l.map data)).size ≤ l.length * size := size_concat_le fun c hc => by
      obtain ⟨i, hi, rfl⟩ := List.mem_iff_getElem.mp hc
      exact (h.size_bounds hs hi).2
    rw [h.content] at hsize
    rw [lt_count_iff hs]
    omega
  omega

/-- A body is cut in one way. -/
theorem eq_split (h : Cut b size l) (hs : 0 < size) : l = split b size := by
  apply List.ext_getElem
  · rw [h.length_eq hs, length_split]
  · intro i hi hi'
    have hnumber : UInt32.ofNat i = l[i].number :=
      (congrArg UInt32.ofNat (h.numbers i hi)).symm.trans UInt32.ofNat_toNat
    rw [getElem_split, hnumber, ← h.data_eq hi]

end Cut

theorem cut_iff (hs : 0 < size) (hcount : count b.size size ≤ maxCount) : Cut b size l ↔ l = split b size := by
  constructor
  · exact fun h => h.eq_split hs
  · rintro rfl
    exact cut_split hs hcount

end Chunk

/-! The readers. -/

/-- A reader of a body brings the chunks that are left, then nothing. -/
theorem BodyReader.draws_run {b : Bytes} {size : Nat} (hs : 0 < size) {k m : Nat}
    (hm : Chunk.count b.size size - k = m) (n : Nat) :
    draws BodyReader.pull (m + n) ⟨b, size, Chunk.offset b.size size k, UInt32.ofNat k⟩ =
      (Chunk.run b size k m).map some ++ List.replicate n none := by
  induction m generalizing k with
  | zero =>
    rw [Nat.zero_add, Chunk.run_zero, List.map_nil, List.nil_append]
    exact draws_of_ended (pull_end hs (by omega) _) n
  | succ m ih =>
    rw [Nat.succ_add, draws, pull_chunk hs (by omega), ih (by omega), Chunk.run_succ, List.map_cons,
      List.cons_append]

namespace ChunkReader

theorem draws_of_done (s : Source) (size : UInt32) (k n : Nat) :
    draws pull n (ChunkReader.mk s size k true) = List.replicate n none :=
  draws_of_ended (by simp [pull]) n

/-- A reader of a source brings the chunks that are left, then nothing. -/
theorem draws_run {s : Source} (hs : s.Steady) {size : UInt32} (hsize : 0 < size.toNat) {k m : Nat}
    (hp : s.pos = Chunk.offset s.bytes.size size.toNat k) (hm : Chunk.count s.bytes.size size.toNat - k = m)
    (hmax : k + m ≤ Chunk.maxCount) (n : Nat) :
    draws pull (m + n) (ChunkReader.mk s size k false) =
      (Chunk.run s.bytes size.toNat k m).map (fun c => some (.ok c)) ++ List.replicate n none := by
  induction m generalizing s k with
  | zero =>
    rw [Nat.zero_add, Chunk.run_zero, List.map_nil, List.nil_append]
    cases n with
    | zero => rfl
    | succ n => rw [draws, pull_end hs hsize hp (by omega), draws_of_done, List.replicate_succ]
  | succ m ih =>
    have hc := pull_chunk hs hsize hp (by omega)
    rw [if_pos (by omega)] at hc
    rw [Nat.succ_add, draws, hc,
      ih (hs.advance _) (Source.pos_advance_chunk hp) (by rw [Source.bytes_advance]; omega) (by omega),
      Source.bytes_advance, Chunk.run_succ, List.map_cons, List.cons_append]

end ChunkReader

/-! Sources that break. -/

/-- A source that hands out its bytes up to the `f`-th and then fails. -/
structure Source.Breaks (s : Source) (f : Nat) (e : IoError) : Prop where
  broken : s.breakAt = some (f, e)
  within : f ≤ s.bytes.size
  grants : ∀ i < f, 0 < s.grant i

namespace Source.Breaks

variable {s : Source} {f : Nat} {e : IoError}

theorem advance (h : s.Breaks f e) (n : Nat) : (s.advance n).Breaks f e := ⟨h.broken, h.within, h.grants⟩

theorem read_of_le (h : s.Breaks f e) (hp : f ≤ s.pos) (n : Nat) : s.read n = (.error e, s) := by
  simp [read, h.broken, hp]

theorem read_of_lt (h : s.Breaks f e) (hp : s.pos < f) {n : Nat} (hn : 0 < n) :
    ∃ k, s.read n = (.ok (s.bytes.slice s.pos k), s.advance k) ∧ 0 < k ∧ k ≤ n ∧ s.pos + k ≤ f := by
  have hg := h.grants s.pos hp
  have hw := h.within
  have ha : s.available = min (min (s.grant s.pos) (s.bytes.size - s.pos)) (f - s.pos) := by
    simp [available, h.broken]
  refine ⟨min n s.available, by simp [read, h.broken, Nat.not_le.mpr hp, Source.advance], ?_, by omega, by omega⟩
  omega

/-- The bytes asked for come if they stand before the break, else the failure does. -/
theorem fill_eq (h : s.Breaks f e) {n fuel : Nat} (acc : Bytes) (hp : s.pos ≤ f) (hf : n < fuel) :
    (s.pos + n ≤ f → s.fill n acc fuel = (.ok (acc ++ s.bytes.slice s.pos n), s.advance n)) ∧
      (f < s.pos + n → ∃ t, s.fill n acc fuel = (.error e, t)) := by
  induction fuel generalizing s n acc with
  | zero => cases hf
  | succ fuel ih =>
    unfold fill
    rcases Nat.eq_zero_or_pos n with rfl | hn
    · exact ⟨fun _ => by simp [Bytes.slice], fun hlt => absurd hlt (by omega)⟩
    · rw [if_neg (Nat.ne_of_gt hn)]
      by_cases hlt : s.pos < f
      · obtain ⟨k, hr, hk, hkn, hkf⟩ := h.read_of_lt hlt hn
        have hw := h.within
        have hsize : (s.bytes.slice s.pos k).size = k := by
          rw [Bytes.size_slice_eq]
          omega
        obtain ⟨hok, herror⟩ := ih (h.advance k) (acc ++ s.bytes.slice s.pos k) hkf (show n - k < fuel by omega)
        simp only [hr, hsize, if_neg (Nat.ne_of_gt hk)]
        constructor
        · intro hle
          rw [hok (by rw [pos_advance]; omega), bytes_advance, pos_advance, ByteArray.append_assoc,
            Bytes.slice_append_slice, advance_advance, Nat.add_sub_cancel' hkn]
        · intro hgt
          exact herror (by rw [pos_advance]; omega)
      · rw [h.read_of_le (Nat.not_lt.mp hlt)]
        exact ⟨fun hle => absurd hle (by omega), fun _ => ⟨s, rfl⟩⟩

theorem take_of_le (h : s.Breaks f e) {n : Nat} (hn : s.pos + n ≤ f) :
    s.take n = (.ok (s.bytes.slice s.pos n), s.advance n) := by
  rw [take, (h.fill_eq _ (by omega) (Nat.lt_succ_self n)).1 hn, ByteArray.empty_append]

theorem take_of_lt (h : s.Breaks f e) (hp : s.pos ≤ f) {n : Nat} (hn : f < s.pos + n) :
    ∃ t, s.take n = (.error e, t) :=
  (h.fill_eq _ hp (Nat.lt_succ_self n)).2 hn

end Source.Breaks

section Breaks

variable {s : Source} {f : Nat} {e : IoError}

/-- A reader of a source that breaks brings the chunks that are whole before the break, then the failure, then
nothing. -/
theorem ChunkReader.draws_of_breaks (hs : s.Breaks f e) {size : UInt32} (hsize : 0 < size.toNat) {k m : Nat}
    (hp : s.pos = k * size.toNat) (hle : s.pos + m * size.toNat ≤ f) (hlt : f < s.pos + (m + 1) * size.toNat)
    (hmax : k + m ≤ Chunk.maxCount) (n : Nat) :
    draws pull (m + 1 + n) (ChunkReader.mk s size k false) =
      (Chunk.run s.bytes size.toNat k m).map (fun c => some (.ok c)) ++
        some (.error (.io e)) :: List.replicate n none := by
  induction m generalizing s k with
  | zero =>
    obtain ⟨t, ht⟩ := hs.take_of_lt (n := size.toNat) (by omega) (by omega)
    have hpull : (ChunkReader.mk s size k false).pull = (some (.error (.io e)), ⟨t, size, k, true⟩) := by
      simp [pull, take_source, ht]
    rw [Nat.zero_add, Nat.add_comm, draws, hpull, draws_of_done, Chunk.run_zero, List.map_nil, List.nil_append]
  | succ m ih =>
    rw [Nat.succ_mul] at hle hlt
    have hne : (s.bytes.slice (k * size.toNat) size.toNat).size ≠ 0 := by
      have hw := hs.within
      rw [Bytes.size_slice_eq]
      omega
    have hpull : (ChunkReader.mk s size k false).pull =
        (some (.ok ⟨UInt32.ofNat k, s.bytes.slice (k * size.toNat) size.toNat⟩),
          ⟨s.advance size.toNat, size, k + 1, false⟩) := by
      have htake := hs.take_of_le (n := size.toNat) (by omega)
      simp only [pull, take_source, htake, hp, hne, Bool.false_eq_true, if_false,
        if_pos (show k < Chunk.maxCount by omega)]
    have hplace : (s.advance size.toNat).pos = (k + 1) * size.toNat := by
      rw [Source.pos_advance, hp, Nat.succ_mul]
    have hrest := ih (hs.advance size.toNat) hplace (by rw [Source.pos_advance]; omega)
      (by rw [Source.pos_advance]; omega) (by omega)
    rw [show m + 1 + 1 + n = m + 1 + n + 1 by omega, draws, hpull, hrest, Source.bytes_advance, Chunk.run_succ,
      List.map_cons, List.cons_append]

/-- Hashing a source that breaks fails as the source does. -/
theorem Source.hashChunks_of_breaks (hs : s.Breaks f e) {size : Nat} (hsize : 0 < size) {m fuel : Nat}
    (acc : Array Hash) (hle : s.pos + m * size ≤ f) (hlt : f < s.pos + (m + 1) * size)
    (hmax : acc.size + m ≤ Chunk.maxCount) (hf : m < fuel) : s.hashChunks size acc fuel = .error (.io e) := by
  induction m generalizing s acc fuel with
  | zero =>
    cases fuel with
    | zero => cases hf
    | succ fuel =>
      obtain ⟨t, ht⟩ := hs.take_of_lt (n := size) (by omega) (by omega)
      simp only [hashChunks, ht]
  | succ m ih =>
    cases fuel with
    | zero => cases hf
    | succ fuel =>
      rw [Nat.succ_mul] at hle hlt
      have hne : (s.bytes.slice s.pos size).size ≠ 0 := by
        have hw := hs.within
        rw [Bytes.size_slice_eq]
        omega
      simp only [hashChunks, hs.take_of_le (n := size) (by omega), hne, if_false,
        if_pos (show acc.size < Chunk.maxCount by omega)]
      exact ih (hs.advance size) _ (by rw [pos_advance]; omega) (by rw [pos_advance]; omega)
        (by rw [Array.size_push]; omega) (Nat.lt_of_succ_lt_succ hf)

end Breaks

namespace Chunk

theorem checkSize_of_le {size : UInt32} (hpos : 0 < size) (hmax : size ≤ maxBlockSize) : checkSize size = .ok () := by
  have hne : size ≠ 0 := by
    rintro rfl
    exact UInt32.lt_irrefl 0 hpos
  rw [checkSize, if_neg hne, if_neg (UInt32.not_lt.mpr hmax)]

theorem take_split {b : Bytes} {size j : Nat} (hj : j ≤ count b.size size) : (split b size).take j = run b size 0 j := by
  rw [split, ← List.map_take, List.take_range, Nat.min_eq_left hj, run, List.range_eq_range']

/-- The readers agree with the definition. A body is cut into chunks in one way. Its reader in memory brings
these chunks and no more; so does the reader of every source that hands the body out, in whatever pieces, and
the hashes of the source are theirs. From a source that breaks after `f` bytes come the first `f / size` of
them, then the failure, then nothing more, and it has no hashes. -/
theorem readers_agree {b : Bytes} {size : UInt32} (hpos : 0 < size) (hmax : size ≤ maxBlockSize)
    (hcount : count b.size size.toNat ≤ maxCount) :
    ∃ l : List Chunk, (∀ l', Cut b size.toNat l' ↔ l' = l) ∧
      (ofBody b size = .ok l ∧ ∃ r, BodyReader.new b size = .ok r ∧
        ∀ n, draws BodyReader.pull (l.length + n) r = l.map some ++ List.replicate n none) ∧
      (∀ s : Source, s.Steady → s.bytes = b → s.pos = 0 →
        s.chunkHashes size = .ok (l.map hash) ∧ ∃ r, ChunkReader.new s size = .ok r ∧
          ∀ n, draws ChunkReader.pull (l.length + n) r =
            l.map (fun c => some (.ok c)) ++ List.replicate n none) ∧
      ∀ (s : Source) (f : Nat) (e : IoError), s.Breaks f e → s.bytes = b → s.pos = 0 →
        s.chunkHashes size = .error (.io e) ∧ f / size.toNat ≤ l.length ∧ ∃ r, ChunkReader.new s size = .ok r ∧
          ∀ n, draws ChunkReader.pull (f / size.toNat + 1 + n) r =
            (l.take (f / size.toNat)).map (fun c => some (.ok c)) ++
              some (.error (.io e)) :: List.replicate n none := by
  have hcheck := checkSize_of_le hpos hmax
  have hs := pos_of_checkSize hcheck
  refine ⟨split b size.toNat, fun l' => cut_iff hs hcount, ⟨?_, ⟨b, size.toNat, 0, 0⟩, ?_, fun n => ?_⟩, ?_, ?_⟩
  · rw [ofBody_eq hcheck, if_pos hcount]
  · simp only [BodyReader.new, hcheck, if_neg (Nat.not_lt.mpr hcount)]
  · have hrun := BodyReader.draws_run (k := 0) hs (Nat.sub_zero (count b.size size.toNat)) n
    rw [offset_zero] at hrun
    rw [length_split, split_eq_run]
    exact hrun
  · rintro s hsteady rfl hstart
    refine ⟨?_, ⟨s, size, 0, false⟩, by simp [ChunkReader.new, hcheck, Except.map], fun n => ?_⟩
    · rw [Source.chunkHashes_eq hsteady hstart hcheck, if_pos hcount]
    · rw [length_split, split_eq_run]
      exact ChunkReader.draws_run hsteady hs (hstart.trans (offset_zero _ _).symm) (Nat.sub_zero _)
        (by rwa [Nat.zero_add]) n
  · rintro s f e hbreaks rfl hstart
    -- The chunks that end before the break are chunks of the body.
    have hle : f / size.toNat * size.toNat ≤ f := Nat.div_mul_le_self f size.toNat
    have hlt : f < (f / size.toNat + 1) * size.toNat := (Nat.div_lt_iff_lt_mul hs).mp (Nat.lt_succ_self _)
    have hwhole : f / size.toNat ≤ count s.bytes.size size.toNat := by
      apply Nat.div_le_of_le_mul
      rw [Nat.mul_comm]
      exact Nat.le_trans hbreaks.within (le_count_mul hs)
    have hfuel : f / size.toNat ≤ s.bytes.size := Nat.le_trans (Nat.div_le_self _ _) hbreaks.within
    refine ⟨?_, ?_, ⟨s, size, 0, false⟩, by simp [ChunkReader.new, hcheck, Except.map], fun n => ?_⟩
    · simp only [Source.chunkHashes, hcheck]
      exact Source.hashChunks_of_breaks hbreaks hs #[] (m := f / size.toNat) (by omega) (by omega)
        (by simpa using Nat.le_trans hwhole hcount) (Nat.lt_succ_of_le hfuel)
    · rwa [length_split]
    · rw [take_split hwhole]
      exact ChunkReader.draws_of_breaks hbreaks hs (by omega) (by omega) (by omega) (by omega) n

/-- Five bytes, from memory, byte after byte from a source, and from one that breaks after three of them. -/
theorem readers_agree_of_five :
    (0 : UInt32) < 2 ∧ (2 : UInt32) ≤ maxBlockSize ∧ count 5 2 ≤ maxCount ∧
      ∃ l, Cut ⟨#[1, 2, 3, 4, 5]⟩ 2 l ∧ ofBody ⟨#[1, 2, 3, 4, 5]⟩ 2 = .ok l ∧
        (⟨⟨#[1, 2, 3, 4, 5]⟩, fun _ => 1, none, 0⟩ : Source).chunkHashes 2 = .ok (l.map hash) ∧
        (⟨⟨#[1, 2, 3, 4, 5]⟩, fun _ => 1, some (3, .isDirectory), 0⟩ : Source).chunkHashes 2 =
          .error (.io .isDirectory) := by
  have hpos : (0 : UInt32) < 2 := by decide
  have hmax : (2 : UInt32) ≤ maxBlockSize := by decide
  have hcount : count 5 2 ≤ maxCount := by decide
  obtain ⟨l, hcut, ⟨hbody, -⟩, hsteady, hbreaks⟩ := readers_agree (b := ⟨#[1, 2, 3, 4, 5]⟩) hpos hmax hcount
  refine ⟨hpos, hmax, hcount, l, (hcut l).mpr rfl, hbody, ?_, ?_⟩
  · exact (hsteady _ ⟨rfl, fun _ _ => Nat.one_pos⟩ rfl rfl).1
  · exact (hbreaks _ 3 .isDirectory ⟨rfl, by decide, fun _ _ => Nat.one_pos⟩ rfl rfl).1

end Chunk
end ChunkRelay
