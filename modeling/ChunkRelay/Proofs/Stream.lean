import ChunkRelay.Stream.Sink
import ChunkRelay.Stream.Source

/-! Byte strings as parts put together, and what is read from a source that does not break: the bytes
asked for, however few of them each read hands out. A sink that does not fail takes what it is given. -/
namespace ChunkRelay
namespace Bytes

theorem foldl_append (l : List Bytes) (acc : Bytes) :
    l.foldl (· ++ ·) acc = acc ++ l.foldl (· ++ ·) ByteArray.empty := by
  induction l generalizing acc with
  | nil => simp
  | cons b r ih =>
    rw [List.foldl_cons, List.foldl_cons, ih, ih (ByteArray.empty ++ b)]
    simp [ByteArray.append_assoc]

@[simp] theorem concat_nil : concat [] = ByteArray.empty := rfl

@[simp] theorem concat_cons (b : Bytes) (l : List Bytes) : concat (b :: l) = b ++ concat l := by
  rw [concat, List.foldl_cons, foldl_append]
  simp [concat]

@[simp] theorem concat_append (l m : List Bytes) : concat (l ++ m) = concat l ++ concat m := by
  induction l with
  | nil => simp
  | cons b r ih => simp [ih, ByteArray.append_assoc]

theorem concat_flatMap {α : Type} (f : α → List Bytes) (l : List α) :
    concat (l.flatMap f) = concat (l.map fun a => concat (f a)) := by
  induction l with
  | nil => rfl
  | cons a l ih => rw [List.flatMap_cons, concat_append, ih, List.map_cons, concat_cons]

theorem size_le_size_concat {b : Bytes} {l : List Bytes} (h : b ∈ l) : b.size ≤ (concat l).size := by
  induction l with
  | nil => cases h
  | cons c l ih =>
    rw [concat_cons, ByteArray.size_append]
    rcases List.mem_cons.mp h with rfl | h
    · omega
    · have hrest := ih h
      omega

theorem length_le_size_concat {l : List Bytes} (h : ∀ b ∈ l, 0 < b.size) : l.length ≤ (concat l).size := by
  induction l with
  | nil => simp
  | cons b l ih =>
    have hb := h b List.mem_cons_self
    have hrest := ih fun c hc => h c (List.mem_cons_of_mem b hc)
    rw [concat_cons, ByteArray.size_append, List.length_cons]
    omega

theorem slice_append_slice (b : Bytes) (i k n : Nat) :
    b.slice i k ++ b.slice (i + k) n = b.slice i (k + n) := by
  simp only [slice, ByteArray.extract_append_extract]
  congr 1 <;> omega

theorem slice_eq_empty {b : Bytes} {i : Nat} (h : b.size ≤ i) (n : Nat) : b.slice i n = ByteArray.empty := by
  rw [slice, ByteArray.extract_eq_empty_iff]
  omega

theorem size_slice_eq (b : Bytes) (i n : Nat) : (b.slice i n).size = min n (b.size - i) := by
  simp only [slice, ByteArray.size_extract]
  omega

theorem foldl_loop {β : Type} (f : β → UInt8 → β) (b : Bytes) (i j : Nat) (acc : β) (hij : i + j = b.size) :
    Id.run (ByteArray.foldlM.loop (m := Id) (fun x y => pure (f x y)) b b.size (Nat.le_refl _) i j acc) =
      (b.data.toList.drop j).foldl f acc := by
  induction i generalizing j acc with
  | zero =>
    have h : b.data.toList.drop j = [] := drop_toList_of_le (by omega)
    unfold ByteArray.foldlM.loop
    simp [h, show ¬ j < b.size by omega]
  | succ i ih =>
    have hj : j < b.size := by omega
    unfold ByteArray.foldlM.loop
    rw [drop_toList hj]
    simp only [hj, dif_pos, List.foldl_cons]
    exact ih (j + 1) _ (by omega)

theorem foldl_eq {β : Type} (f : β → UInt8 → β) (b : Bytes) (acc : β) :
    b.foldl f acc = b.data.toList.foldl f acc := by
  have h := foldl_loop f b b.size 0 acc (by omega)
  simpa [ByteArray.foldl, ByteArray.foldlM] using h

end Bytes

namespace Source

/-- A source that never breaks and whose reads hand out something before the end. -/
structure Steady (s : Source) : Prop where
  unbroken : s.breakAt = none
  grants : ∀ i < s.bytes.size, 0 < s.grant i

/-- The bytes that are not read yet. -/
def rest (s : Source) : Bytes := s.bytes.extract s.pos s.bytes.size

def advance (s : Source) (n : Nat) : Source := { s with pos := s.pos + n }

@[simp] theorem bytes_advance (s : Source) (n : Nat) : (s.advance n).bytes = s.bytes := rfl

@[simp] theorem pos_advance (s : Source) (n : Nat) : (s.advance n).pos = s.pos + n := rfl

@[simp] theorem advance_zero (s : Source) : s.advance 0 = s := rfl

@[simp] theorem advance_advance (s : Source) (m n : Nat) : (s.advance m).advance n = s.advance (m + n) := by
  simp [advance, Nat.add_assoc]

theorem Steady.advance {s : Source} (h : s.Steady) (n : Nat) : (s.advance n).Steady := ⟨h.unbroken, h.grants⟩

theorem steady_ofBytes (b : Bytes) : (ofBytes b).Steady := ⟨rfl, fun _ h => Nat.zero_lt_of_lt h⟩

@[simp] theorem size_rest (s : Source) : s.rest.size = s.bytes.size - s.pos := by
  simp [rest, ByteArray.size_extract]

theorem rest_of_start {s : Source} (h : s.pos = 0) : s.rest = s.bytes := by
  rw [rest, h, ByteArray.extract_zero_size]

theorem rest_advance (s : Source) (n : Nat) : (s.advance n).rest = s.rest.extract n s.rest.size := by
  simp only [rest, bytes_advance, pos_advance, ByteArray.extract_extract, ByteArray.size_extract]
  congr 1
  omega

theorem slice_pos (s : Source) (n : Nat) : s.bytes.slice s.pos n = s.rest.extract 0 n := by
  apply ByteArray.ext
  simp only [Bytes.slice, rest, ByteArray.extract_extract, ByteArray.data_extract, Nat.add_zero]
  rw [Array.extract_eq_extract_right, ByteArray.size_data]
  omega

theorem read_eq {s : Source} (hs : s.Steady) (n : Nat) :
    ∃ k, s.read n = (.ok (s.bytes.slice s.pos k), s.advance k) ∧ k ≤ n ∧
      (s.bytes.slice s.pos k).size = k ∧ (k = 0 → n = 0 ∨ s.bytes.size ≤ s.pos) := by
  have hg := hs.grants s.pos
  refine ⟨min n s.available, by simp only [read, hs.unbroken, advance], Nat.min_le_left .., ?_, ?_⟩
  · simp only [Bytes.size_slice_eq, available, hs.unbroken]
    omega
  · simp only [available, hs.unbroken]
    omega

theorem fill_eq {s : Source} (hs : s.Steady) {n fuel : Nat} (acc : Bytes) (hf : n < fuel) :
    s.fill n acc fuel = (.ok (acc ++ s.bytes.slice s.pos n), s.advance (min n s.rest.size)) := by
  induction fuel generalizing s n acc with
  | zero => cases hf
  | succ fuel ih =>
    unfold fill
    by_cases hn : n = 0
    · simp [hn, Bytes.slice]
    · obtain ⟨k, hr, hk, hsize, hzero⟩ := read_eq hs n
      simp only [hn, if_false, hr, hsize]
      by_cases hk0 : k = 0
      · have hend : s.bytes.size ≤ s.pos := (hzero hk0).resolve_left hn
        simp [hk0, Bytes.slice_eq_empty hend, hend]
      · have hrest := ih (hs.advance k) (acc ++ s.bytes.slice s.pos k) (show n - k < fuel by omega)
        rw [Bytes.size_slice_eq] at hsize
        simp only [hk0, if_false, hrest, bytes_advance, pos_advance, advance_advance, size_rest,
          ByteArray.append_assoc, Bytes.slice_append_slice]
        rw [show k + (n - k) = n by omega,
          show k + min (n - k) (s.bytes.size - (s.pos + k)) = min n (s.bytes.size - s.pos) by omega]

theorem take_eq {s : Source} (hs : s.Steady) (n : Nat) :
    s.take n = (.ok (s.rest.extract 0 n), s.advance (min n s.rest.size)) := by
  rw [take, fill_eq hs _ (Nat.lt_succ_self n), slice_pos, ByteArray.empty_append]

/-- What stands first in a source is what is taken from it. -/
theorem take_append {s : Source} (hs : s.Steady) {b r : Bytes} (h : s.rest = b ++ r) :
    s.take b.size = (.ok b, s.advance b.size) ∧ (s.advance b.size).rest = r := by
  have hmin : min b.size (b ++ r).size = b.size := by
    rw [ByteArray.size_append]
    omega
  constructor
  · rw [take_eq hs, h, ByteArray.extract_append_size_left, ByteArray.extract_zero_size, hmin]
  · rw [rest_advance, h, ByteArray.extract_append_eq_right rfl ByteArray.size_append]

end Source

namespace Sink

/-- A sink that has room for everything and can always be flushed. -/
structure Unfailing (w : Sink) : Prop where
  limit_eq : w.limit = none
  flushError_eq : w.flushError = none

/-- The sink with more accepted. -/
def grow (w : Sink) (b : Bytes) : Sink := { w with accepted := w.accepted ++ b }

@[simp] theorem grow_empty (w : Sink) : w.grow ByteArray.empty = w := by simp [grow]

@[simp] theorem grow_grow (w : Sink) (a b : Bytes) : (w.grow a).grow b = w.grow (a ++ b) := by
  simp [grow, ByteArray.append_assoc]

theorem accepted_grow_empty (b : Bytes) : (empty.grow b).accepted = b := ByteArray.empty_append

theorem Unfailing.grow {w : Sink} (hw : w.Unfailing) (b : Bytes) : (w.grow b).Unfailing :=
  ⟨hw.limit_eq, hw.flushError_eq⟩

theorem push_eq {w : Sink} (hw : w.Unfailing) (b : Bytes) :
    ByteSink.push b w = (.ok (), w.grow b) := by
  change w.push b = _
  simp [push, room, hw.limit_eq, grow]

theorem flush_eq {w : Sink} (hw : w.Unfailing) : ByteSink.flush w = (.ok (), w) := by
  change w.flush = _
  simp [flush, hw.flushError_eq]

end Sink
end ChunkRelay
