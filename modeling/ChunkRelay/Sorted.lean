/-! Finite maps as lists of pairs in strictly ascending order of keys. -/
namespace ChunkRelay

structure SortedMap (κ ν : Type) [LT κ] where
  entries : List (κ × ν)
  sorted : entries.Pairwise fun a b => a.1 < b.1

namespace SortedMap

theorem ext [LT κ] {a b : SortedMap κ ν} (h : a.entries = b.entries) : a = b := by
  cases a; cases b; cases h; rfl

instance [LT κ] [DecidableEq κ] [DecidableEq ν] : DecidableEq (SortedMap κ ν) := fun a b =>
  if h : a.entries = b.entries then isTrue (ext h) else isFalse fun e => h (e ▸ rfl)

variable {κ ν : Type} [LT κ] [DecidableLT κ]

def insertEntry (k : κ) (v : ν) : List (κ × ν) → List (κ × ν)
  | [] => [(k, v)]
  | (k', v') :: r =>
    if k' < k then (k', v') :: insertEntry k v r
    else if k < k' then (k, v) :: (k', v') :: r
    else (k', v) :: r

omit [DecidableLT κ] in
theorem pairwise_cons_lt [Trans (α := κ) (· < ·) (· < ·) (· < ·)] {k k' : κ} {v v' : ν}
    {r : List (κ × ν)} (h : k < k') (hr : ((k', v') :: r).Pairwise fun a b => a.1 < b.1) :
    ((k, v) :: (k', v') :: r).Pairwise fun a b => a.1 < b.1 := by
  refine List.pairwise_cons.mpr ⟨fun a ha => ?_, hr⟩
  rcases List.mem_cons.mp ha with rfl | ha
  · exact h
  · exact Trans.trans h ((List.pairwise_cons.mp hr).1 a ha)

theorem mem_insertEntry {k : κ} {v : ν} {l : List (κ × ν)} {a : κ × ν} (h : a ∈ insertEntry k v l) :
    a.1 = k ∨ ∃ b ∈ l, a.1 = b.1 := by
  induction l with
  | nil => exact .inl (by simp_all [insertEntry])
  | cons b r ih =>
    obtain ⟨k', v'⟩ := b
    simp only [insertEntry] at h
    split at h
    · rcases List.mem_cons.mp h with rfl | h
      · exact .inr ⟨(k', v'), by simp, rfl⟩
      · exact (ih h).imp_right fun ⟨b, hb, e⟩ => ⟨b, List.mem_cons_of_mem _ hb, e⟩
    · split at h
      · rcases List.mem_cons.mp h with rfl | h
        · exact .inl rfl
        · exact .inr ⟨a, h, rfl⟩
      · rcases List.mem_cons.mp h with rfl | h
        · exact .inr ⟨(k', v'), by simp, rfl⟩
        · exact .inr ⟨a, List.mem_cons_of_mem _ h, rfl⟩

theorem pairwise_insertEntry [Trans (α := κ) (· < ·) (· < ·) (· < ·)] (k : κ) (v : ν)
    {l : List (κ × ν)} (h : l.Pairwise fun a b => a.1 < b.1) :
    (insertEntry k v l).Pairwise fun a b => a.1 < b.1 := by
  induction l with
  | nil => simp [insertEntry]
  | cons b r ih =>
    obtain ⟨k', v'⟩ := b
    have hc := List.pairwise_cons.mp h
    simp only [insertEntry]
    split
    · next hk =>
      refine List.pairwise_cons.mpr ⟨fun a ha => ?_, ih hc.2⟩
      rcases mem_insertEntry ha with e | ⟨b, hb, e⟩
      · exact e ▸ hk
      · exact e ▸ hc.1 b hb
    · split
      · next hk => exact pairwise_cons_lt hk h
      · exact List.pairwise_cons.mpr ⟨hc.1, hc.2⟩

def empty : SortedMap κ ν := ⟨[], .nil⟩

/-- Adds an entry, or replaces the value that the key had. -/
def insert [Trans (α := κ) (· < ·) (· < ·) (· < ·)] (m : SortedMap κ ν) (k : κ) (v : ν) : SortedMap κ ν :=
  ⟨insertEntry k v m.entries, pairwise_insertEntry k v m.sorted⟩

/-- Of two entries with one key the later counts. -/
def ofList [Trans (α := κ) (· < ·) (· < ·) (· < ·)] (l : List (κ × ν)) : SortedMap κ ν :=
  l.foldl (fun m a => m.insert a.1 a.2) empty

def erase [DecidableEq κ] (m : SortedMap κ ν) (k : κ) : SortedMap κ ν :=
  ⟨m.entries.filter fun a => a.1 ≠ k, m.sorted.filter _⟩

/-- An entry with its value changed, if it is that of the key. -/
def change [DecidableEq κ] (k : κ) (f : ν → ν) (a : κ × ν) : κ × ν := if a.1 = k then (a.1, f a.2) else a

omit [LT κ] [DecidableLT κ] in
@[simp] theorem change_fst [DecidableEq κ] (k : κ) (f : ν → ν) (a : κ × ν) : (change k f a).1 = a.1 := by
  simp only [change]; split <;> rfl

/-- The value of a key changed, if the key has one. -/
def modify [DecidableEq κ] (m : SortedMap κ ν) (k : κ) (f : ν → ν) : SortedMap κ ν :=
  ⟨m.entries.map (change k f), List.pairwise_map.mpr (m.sorted.imp fun h => by simpa using h)⟩

def get? [DecidableEq κ] (m : SortedMap κ ν) (k : κ) : Option ν :=
  (m.entries.find? fun a => a.1 = k).map (·.2)

def contains [DecidableEq κ] (m : SortedMap κ ν) (k : κ) : Bool := m.entries.any fun a => a.1 = k

def keys (m : SortedMap κ ν) : List κ := m.entries.map (·.1)

def isEmpty (m : SortedMap κ ν) : Bool := m.entries.isEmpty

end SortedMap
end ChunkRelay
