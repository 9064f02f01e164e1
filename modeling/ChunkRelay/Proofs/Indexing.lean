import ChunkRelay.Proofs.Consistency
import ChunkRelay.Proofs.Datastores

/-! The index of paths beside the messages. It tells whether a message has its body in the file at a path, but not how
many have: messages under different keys may share a path, and count as one. A message that is refused changes
nothing. -/
namespace ChunkRelay

/-- Two states of a datastore that answer every question alike. -/
structure Datastore.Alike {δ : Type} [Datastore δ] (d d' : δ) : Prop where
  countPath_eq (p : String) : (countPath p d').1 = (countPath p d).1
  hasKey_eq (k : Hash) : (hasKey k d').1 = (hasKey k d).1
  get?_eq (k : Hash) : (get? k d').1 = (get? k d).1
  known_eq : (known d').1 = (known d).1

theorem Datastore.Alike.refl {δ : Type} [Datastore δ] (d : δ) : Alike d d := ⟨fun _ => rfl, fun _ => rfl, fun _ => rfl, rfl⟩

namespace MemoryStore

/-- The messages that have their body in the file at a path. -/
def bodiesAt (s : MemoryStore) (p : String) : List Message :=
  (s.messages.entries.map (·.2)).filter fun m => m.path?.map Path.names = some (Path.names p)

/-- The index has the paths of the bodies in files and no others. -/
def Indexed (s : MemoryStore) : Prop := ∀ names, names ∈ s.paths ↔ ∃ p ∈ s.filePaths, Path.names p = names

/-- A store that is given messages one after another. -/
def persistAll (s : MemoryStore) (given : List Message) : MemoryStore :=
  given.foldl (fun s m => (Datastore.persist m s).2) s

variable {s t : MemoryStore} {m : Message} {given : List Message}

theorem persistAll_cons (s : MemoryStore) (m : Message) (given : List Message) :
    s.persistAll (m :: given) = persistAll (Datastore.persist m s).2 given := rfl

/-- What becomes of a message that a store is given. -/
inductive Persists (s : MemoryStore) (m : Message) : Bool → MemoryStore → Prop
  | added : s.messages.get? m.contentKey = none → Persists s m true (s.add m)
  | refused : (s.messages.get? m.contentKey).isSome → Persists s m false s

theorem persist_of_held (h : (s.messages.get? m.contentKey).isSome) : Datastore.persist m s = (.ok false, s) := by
  have hcontains : s.messages.contains m.contentKey = true := by rw [SortedMap.contains_eq, h]
  change (if s.messages.contains m.contentKey then (Except.ok false, s) else (.ok true, s.add m)) = _
  rw [hcontains, if_pos rfl]

theorem persists (s : MemoryStore) (m : Message) :
    ∃ b t, Datastore.persist m s = (.ok b, t) ∧ Persists s m b t := by
  cases hm : s.messages.get? m.contentKey with
  | none => exact ⟨true, s.add m, persist_of_new hm, .added hm⟩
  | some n =>
    have hheld : (s.messages.get? m.contentKey).isSome := Option.isSome_of_eq_some hm
    exact ⟨false, s, persist_of_held hheld, .refused hheld⟩

theorem eq_of_refused (h : Datastore.persist m s = (.ok false, t)) : t = s := by
  obtain ⟨b, u, hp, hu⟩ := s.persists m
  cases hp.symm.trans h
  cases hu
  rfl

/-! The index. -/

theorem mem_paths_add (s : MemoryStore) (m : Message) (names : List String) :
    names ∈ (s.add m).paths ↔ (∃ p, m.path? = some p ∧ Path.names p = names) ∨ names ∈ s.paths := by
  unfold add
  cases m.path? with
  | none => simp
  | some p => simp [eq_comm]

theorem indexed_empty : empty.Indexed := fun names => by simp [empty, filePaths, SortedMap.empty]

theorem Indexed.add (h : s.Indexed) (hnew : s.messages.get? m.contentKey = none) : (s.add m).Indexed := by
  intro names
  rw [mem_paths_add, h names]
  simp only [(perm_filePaths_add hnew).mem_iff, List.mem_append, Option.mem_toList, or_and_right, exists_or]

theorem Indexed.persist (h : s.Indexed) (m : Message) : (Datastore.persist m s).2.Indexed := by
  obtain ⟨b, t, hp, ht⟩ := s.persists m
  rw [hp]
  cases ht with
  | added hnew => exact h.add hnew
  | refused => exact h

theorem Indexed.persistAll (h : s.Indexed) (given : List Message) : (s.persistAll given).Indexed := by
  induction given generalizing s with
  | nil => exact h
  | cons m given ih => exact ih (h.persist m)

theorem bodiesAt_ne_nil_iff {p : String} :
    s.bodiesAt p ≠ [] ↔ ∃ q ∈ s.filePaths, Path.names q = Path.names p := by
  constructor
  · intro hne
    obtain ⟨m, hm⟩ := List.exists_mem_of_ne_nil _ hne
    obtain ⟨hmem, hnames⟩ := List.mem_filter.mp hm
    obtain ⟨a, ha, rfl⟩ := List.mem_map.mp hmem
    obtain ⟨q, hq, hnames⟩ := Option.map_eq_some_iff.mp (of_decide_eq_true hnames)
    exact ⟨q, List.mem_filterMap.mpr ⟨a, ha, hq⟩, hnames⟩
  · rintro ⟨q, hq, hnames⟩
    obtain ⟨a, ha, hpath⟩ := List.mem_filterMap.mp hq
    exact List.ne_nil_of_mem (List.mem_filter.mpr ⟨List.mem_map_of_mem ha, by simp [hpath, hnames]⟩)

/-- One is counted where there is any. -/
theorem Indexed.countPath_eq (h : s.Indexed) (p : String) :
    (Datastore.countPath p s).1 = .ok (min 1 (s.bodiesAt p).length) := by
  change Except.ok (if Path.names p ∈ s.paths then 1 else 0) = _
  have hindex : Path.names p ∈ s.paths ↔ s.bodiesAt p ≠ [] := (h _).trans bodiesAt_ne_nil_iff.symm
  by_cases hp : Path.names p ∈ s.paths
  · have hpos := List.length_pos_iff.mpr (hindex.mp hp)
    rw [if_pos hp, Nat.min_eq_left hpos]
  · have hnil : s.bodiesAt p = [] := Decidable.not_not.mp fun hne => hp (hindex.mpr hne)
    rw [if_neg hp, hnil]
    rfl

/-! The messages. -/

/-- A message that is held stays, and else the first one given under a key is held. -/
theorem get?_persistAll (s : MemoryStore) (given : List Message) (k : Hash) :
    (s.persistAll given).messages.get? k = (s.messages.get? k).or (given.find? (·.contentKey = k)) := by
  induction given generalizing s with
  | nil => simp [persistAll]
  | cons m given ih =>
    obtain ⟨b, t, hp, ht⟩ := s.persists m
    rw [persistAll_cons, hp, ih, List.find?_cons]
    cases ht with
    | added hnew =>
      rw [get?_add]
      by_cases hk : k = m.contentKey
      · subst hk
        simp [hnew]
      · simp [hk, Ne.symm hk]
    | refused hold =>
      by_cases hk : m.contentKey = k
      · subst hk
        obtain ⟨n, hn⟩ := Option.isSome_iff_exists.mp hold
        simp [hn]
      · simp [hk]

/-- What a store answers that has been given these messages: of those with one key it holds the first, one that it
refuses changes no answer, and the number of bodies in a file is told right up to one and no further. -/
structure Answers (given : List Message) (s : MemoryStore) : Prop where
  get?_eq (k : Hash) : (Datastore.get? k s).1 = .ok (given.find? (·.contentKey = k))
  refused {m : Message} {t : MemoryStore} : Datastore.persist m s = (.ok false, t) → Datastore.Alike s t
  refused_iff (m : Message) : (Datastore.persist m s).1 = .ok false ↔ ∃ n ∈ given, n.contentKey = m.contentKey
  countPath_eq (p : String) : (Datastore.countPath p s).1 = .ok (min 1 (s.bodiesAt p).length)
  exact_iff (p : String) :
    (Datastore.countPath p s).1 = .ok (s.bodiesAt p).length ↔ (s.bodiesAt p).length ≤ 1

/-- Whatever messages an empty store is given, with whatever keys and paths. -/
theorem answers_of_persistAll (given : List Message) : Answers given (empty.persistAll given) := by
  have hindexed := indexed_empty.persistAll given
  have hheld (k : Hash) : (empty.persistAll given).messages.get? k = given.find? (·.contentKey = k) :=
    (get?_persistAll empty given k).trans (Option.none_or ..)
  generalize empty.persistAll given = s at hindexed hheld
  refine ⟨fun k => congrArg Except.ok (hheld k), fun hp => ?_, fun m => ?_, hindexed.countPath_eq, fun p => ?_⟩
  · rw [eq_of_refused hp]
    exact .refl s
  · obtain ⟨b, t, hp, ht⟩ := s.persists m
    have hgiven : (s.messages.get? m.contentKey).isSome ↔ ∃ n ∈ given, n.contentKey = m.contentKey := by
      rw [hheld, List.find?_isSome]
      simp
    rw [hp, ← hgiven]
    cases ht with
    | added hnew => simp [hnew]
    | refused hold => simp [hold]
  · rw [hindexed.countPath_eq, Except.ok.injEq]
    omega

/-- A message of no chunks under a key of its own, with its body in a file. -/
def fileMessage (key : Hash) (p : String) : Message :=
  { Message.ofHeader ({ application := some "chat", blockSize := some 1 } : Header.Draft).header (.file p) with
    contentKey := key }

/-- Two messages with their body in one file count as one. -/
theorem countPath_of_shared_path :
    let s := empty.persistAll [fileMessage (Hash.of ⟨#[1]⟩) "cache/a", fileMessage (Hash.of ⟨#[2]⟩) "cache/a"]
    (s.bodiesAt "cache/a").length = 2 ∧ (Datastore.countPath "cache/a" s).1 = .ok 1 := by
  intro s
  have htwo : (s.bodiesAt "cache/a").length = 2 := by decide +kernel
  have hcount := (indexed_empty.persistAll _).countPath_eq (s := s) "cache/a"
  rw [htwo] at hcount
  exact ⟨htwo, hcount⟩

end MemoryStore
end ChunkRelay
