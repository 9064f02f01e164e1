import ChunkRelay.Proofs.Feed

/-! What checking lets through. The packets of a run are those that the header lists, in order and from
the first one on, and a session's state tells how its run ended. -/
namespace ChunkRelay

open PacketFeed

/-- The packets are numbered from `k` on, and the hashes are theirs, one each. -/
inductive Listed : Nat → List Hash → List Sequence → Prop
  | nil {k : Nat} : Listed k [] []
  | cons {k : Nat} {hash : Hash} {p : Sequence} {hashes : List Hash} {l : List Sequence} :
      p.number = UInt32.ofNat k → p.hash = hash → Listed (k + 1) hashes l →
      Listed k (hash :: hashes) (p :: l)

theorem Listed.length_eq {k : Nat} {hashes : List Hash} {l : List Sequence} (h : Listed k hashes l) :
    hashes.length = l.length := by
  induction h with
  | nil => rfl
  | cons _ _ _ ih => simp [ih]

theorem Listed.hashes_eq {k : Nat} {hashes : List Hash} {l : List Sequence} (h : Listed k hashes l) :
    hashes = l.map Sequence.hash := by
  induction h with
  | nil => rfl
  | cons _ hh _ ih => rw [List.map_cons, hh, ← ih]

/-- A packet has the number of its place and the hash that stands there. -/
theorem Listed.of_getElem? {k i : Nat} {hashes : List Hash} {l : List Sequence} {p : Sequence} (h : Listed k hashes l)
    (hp : l[i]? = some p) : p.number = UInt32.ofNat (k + i) ∧ hashes[i]? = some p.hash := by
  induction h generalizing i with
  | nil => cases hp
  | @cons k hash q hashes l hn hh _ ih =>
    cases i with
    | zero =>
      cases hp
      exact ⟨hn, congrArg some hh.symm⟩
    | succ i =>
      have hrest := ih hp
      rwa [Nat.add_assoc, Nat.add_comm 1] at hrest

/-- The hashes of blocks that are numbered from `k` on. -/
def Hash.ofBlocks (k : Nat) : List Bytes → List Hash
  | [] => []
  | b :: r => Hash.chunk (UInt32.ofNat k) b :: Hash.ofBlocks (k + 1) r

theorem Listed.ofBlocks_eq {k : Nat} {hashes : List Hash} {l : List Sequence} (h : Listed k hashes l) :
    Hash.ofBlocks k (l.map Sequence.bytes) = hashes := by
  induction h with
  | nil => rfl
  | cons hn hh _ ih => simp [Hash.ofBlocks, ih, ← hh, Sequence.hash, hn]

namespace Verified

variable {σ : Type} [PacketFeed σ]

@[simp] theorem next_eq (v : Verified σ) : PacketFeed.next v = v.next := rfl

omit [PacketFeed σ] in
theorem check_eq_ok_iff {v : Verified σ} {p : Sequence} {rest : List Hash} :
    v.check p = .ok rest ↔
      ∃ hash, v.remaining = hash :: rest ∧ p.number = UInt32.ofNat v.received ∧ p.hash = hash := by
  unfold check
  cases v.remaining with
  | nil => simp
  | cons hash hashes =>
    by_cases hn : p.number = UInt32.ofNat v.received
    · by_cases hh : p.hash = hash
      · simp [hn, hh]
      · have hne : hash ≠ p.hash := fun he => hh he.symm
        simp [hn, hh, hne]
    · simp [hn]

/-- A packet gets through when the feed has it, it is the one that is due, and nothing failed before. -/
theorem next_eq_ok_iff {v w : Verified σ} {p : Sequence} :
    v.next = (some (.ok p), w) ↔
      v.done = false ∧ PacketFeed.next v.inner = (some (.ok p), w.inner) ∧
        (∃ hash, v.remaining = hash :: w.remaining ∧ p.number = UInt32.ofNat v.received ∧ p.hash = hash) ∧
        w.received = v.received + 1 ∧ w.done = false := by
  rw [← check_eq_ok_iff]
  obtain ⟨f, remaining, received, done⟩ := w
  unfold next
  cases hd : v.done with
  | true => simp
  | false =>
    rcases hi : PacketFeed.next v.inner with ⟨_ | _ | q, s⟩
    · cases hr : v.remaining.isEmpty <;> simp
    · simp
    · cases hc : v.check q with
      | error e =>
        simp only [Bool.false_eq_true, if_false, hc, Prod.mk.injEq, Option.some.injEq, reduceCtorEq, false_and,
          Except.ok.injEq, true_and, false_iff]
        rintro ⟨⟨rfl, -⟩, hp, -⟩
        rw [hc] at hp
        cases hp
      | ok rest =>
        simp only [Bool.false_eq_true, if_false, hc, Prod.mk.injEq, Option.some.injEq, Except.ok.injEq, mk.injEq,
          true_and]
        constructor
        · rintro ⟨rfl, rfl, rfl, rfl, rfl⟩
          exact ⟨⟨rfl, rfl⟩, hc, rfl, rfl⟩
        · rintro ⟨⟨rfl, rfl⟩, hp, rfl, rfl⟩
          exact ⟨rfl, rfl, Except.ok.inj (hc.symm.trans hp), rfl, rfl⟩

/-- The packets that get through are listed first among the hashes that were left. -/
theorem listed_of_pulls {v w : Verified σ} {l : List Sequence} (h : Pulls v l w) :
    ∃ hashes, v.remaining = hashes ++ w.remaining ∧ Listed v.received hashes l := by
  induction h with
  | nil => exact ⟨[], rfl, .nil⟩
  | cons hn _ ih =>
    obtain ⟨-, -, ⟨hash, hr, hnum, hh⟩, hrec, -⟩ := next_eq_ok_iff.mp hn
    obtain ⟨hashes, hrest, hl⟩ := ih
    exact ⟨hash :: hashes, by simp [hr, hrest], .cons hnum hh (hrec ▸ hl)⟩

theorem not_done_of_pulls {v w : Verified σ} {l : List Sequence} (h : Pulls v l w)
    (hd : v.done = false) : w.done = false := by
  induction h with
  | nil => exact hd
  | cons hn _ ih => exact ih (next_eq_ok_iff.mp hn).2.2.2.2

theorem listed_of_drains {v w : Verified σ} {l : List Sequence} (h : Drains v l w)
    (hd : v.done = false) : Listed v.received v.remaining l := by
  obtain ⟨u, hp, hn⟩ := h
  obtain ⟨hashes, hr, hl⟩ := listed_of_pulls hp
  have hu := not_done_of_pulls hp hd
  have hempty : u.remaining = [] := by
    cases hrem : u.remaining with
    | nil => rfl
    | cons hash rest =>
      simp only [next_eq, next, hu] at hn
      rcases hi : PacketFeed.next u.inner with ⟨_ | _ | q, s⟩
      · simp [hi, hrem] at hn
      · simp [hi] at hn
      · cases hc : u.check q <;> simp [hi, hc] at hn
  rw [hr, hempty, List.append_nil]
  exact hl

/-- Pulling comes to an end or to a failure, whatever the feed. -/
theorem exists_runs (v : Verified σ) (hd : v.done = false) : ∃ l e w, Runs v l e w := by
  generalize hr : v.remaining = hashes
  induction hashes generalizing v with
  | nil =>
    rcases hi : PacketFeed.next v.inner with ⟨_ | e | q, s⟩
    · exact ⟨[], none, _, runs_nil_iff.mpr (by simp [next, hd, hi, hr]; rfl)⟩
    · exact ⟨[], some e, _, runs_nil_iff.mpr (by simp [next, hd, hi]; rfl)⟩
    · exact ⟨[], some (.overrun v.expected), _, runs_nil_iff.mpr (by simp [next, hd, hi, check, hr]; rfl)⟩
  | cons hash hashes ih =>
    rcases hi : PacketFeed.next v.inner with ⟨_ | e | q, s⟩
    · exact ⟨[], some (.truncated v.received v.expected), _,
        runs_nil_iff.mpr (by simp [next, hd, hi, hr]; rfl)⟩
    · exact ⟨[], some e, _, runs_nil_iff.mpr (by simp [next, hd, hi]; rfl)⟩
    · cases hc : v.check q with
      | error e => exact ⟨[], some e, _, runs_nil_iff.mpr (by simp [next, hd, hi, hc]; rfl)⟩
      | ok rest =>
        have hn : v.next = (some (.ok q), ⟨s, rest, v.received + 1, false⟩) := by simp [next, hd, hi, hc]
        obtain ⟨_, hrest, -⟩ := check_eq_ok_iff.mp hc
        obtain ⟨l, e, w, h⟩ := ih ⟨s, rest, v.received + 1, false⟩ rfl (by simp_all)
        exact ⟨q :: l, e, w, runs_cons_iff.mpr ⟨_, hn, h⟩⟩

/-- Listed packets get through, and the hashes after them are left. -/
theorem pulls_of_listed {f f' : σ} {l : List Sequence} (hf : Pulls f l f') {k : Nat}
    {hashes : List Hash} (hl : Listed k hashes l) (rest : List Hash) :
    Pulls (⟨f, hashes ++ rest, k, false⟩ : Verified σ) l ⟨f', rest, k + l.length, false⟩ := by
  induction hf generalizing k hashes with
  | nil => cases hl; exact .nil
  | cons hn _ ih =>
    cases hl with
    | cons hnum hh hl =>
      have hrest := ih hl
      rw [Nat.add_assoc, Nat.add_comm 1] at hrest
      exact .cons (next_eq_ok_iff.mpr ⟨rfl, hn, ⟨_, rfl, hnum, hh⟩, rfl, rfl⟩) hrest

theorem drains_of_listed {f f' : σ} {l : List Sequence} (hf : Drains f l f') {k : Nat}
    {hashes : List Hash} (hl : Listed k hashes l) :
    Drains (⟨f, hashes, k, false⟩ : Verified σ) l ⟨f', [], k + l.length, true⟩ := by
  obtain ⟨u, hp, hn⟩ := hf
  have hv := pulls_of_listed hp hl []
  rw [List.append_nil] at hv
  exact ⟨_, hv, by simp only [next_eq, next, hn]; rfl⟩

/-- What comes through a check is all that the feed has, if nothing fails. -/
theorem drains_inner {v w : Verified σ} {l : List Sequence} (h : Drains v l w) (hd : v.done = false) :
    Drains v.inner l w.inner := by
  obtain ⟨u, hp, hn⟩ := h
  have hu := not_done_of_pulls hp hd
  have hinner : Pulls v.inner l u.inner := by
    clear hn hu hd
    induction hp with
    | nil => exact .nil
    | cons hn _ ih => exact .cons (next_eq_ok_iff.mp hn).2.1 ih
  refine ⟨_, hinner, ?_⟩
  simp only [next_eq, next, hu] at hn
  rcases hi : PacketFeed.next u.inner with ⟨_ | _ | q, s⟩
  · by_cases hr : u.remaining.isEmpty
    · simp only [hi, hr] at hn
      cases hn
      rfl
    · simp [hi, hr] at hn
  · simp [hi] at hn
  · cases hc : u.check q <;> simp [hi, hc] at hn

/-- Every run fits in the fuel. -/
theorem length_lt_fuel {v w : Verified σ} {l : List Sequence} {e : Option TransferError}
    (h : Runs v l e w) : l.length < v.fuel := by
  obtain ⟨u, hp, -⟩ := h
  obtain ⟨hashes, hr, hl⟩ := listed_of_pulls hp
  have hlen := hl.length_eq
  simp only [fuel, hr, List.length_append]
  omega

end Verified

/-- The state that the end of a run leaves. -/
def SessionState.ofEnding : Option TransferError → SessionState
  | none => .completed
  | some e => .failed e.message

theorem SessionState.ofEnding_ne_unfinished (e : Option TransferError) : ofEnding e ≠ .unfinished := by
  cases e <;> simp [ofEnding]

namespace Session

variable {σ : Type}

theorem state_fail (s : Session σ) (e : TransferError) :
    (s.fail e).state = if s.state = .unfinished then .failed e.message else s.state := by
  by_cases hs : s.state = .unfinished <;> simp [fail, settle, isOpen, hs]

variable [PacketFeed σ]

@[simp] theorem next_eq (s : Session σ) : PacketFeed.next s = s.next := rfl

theorem next_eq_ok_iff {s t : Session σ} {p : Sequence} :
    s.next = (some (.ok p), t) ↔
      s.state = .unfinished ∧ s.packets.next = (some (.ok p), t.packets) ∧
        t = { s with packets := t.packets } := by
  obtain ⟨header, packets, last, state⟩ := s
  obtain ⟨header', packets', last', state'⟩ := t
  unfold next
  cases state with
  | unfinished =>
    rcases hn : packets.next with ⟨_ | _ | q, v⟩ <;> simp [isOpen]
    constructor
    · rintro ⟨rfl, rfl, rfl, rfl, rfl⟩
      exact ⟨⟨rfl, rfl⟩, rfl, rfl, rfl⟩
    · rintro ⟨⟨rfl, rfl⟩, rfl, rfl, rfl⟩
      exact ⟨rfl, rfl, rfl, rfl, rfl⟩
  | completed => simp [isOpen]
  | failed reason => simp [isOpen]

theorem pulls_of_verified {v w : Verified σ} {l : List Sequence} (h : Pulls v l w) (header : Header)
    (last : Bool) :
    Pulls (⟨header, v, last, .unfinished⟩ : Session σ) l ⟨header, w, last, .unfinished⟩ := by
  induction h with
  | nil => exact .nil
  | cons hn _ ih => exact .cons (next_eq_ok_iff.mpr ⟨rfl, hn, rfl⟩) ih

/-- A session runs as its packets do, and its state tells how that ended. -/
theorem runs_of_verified {v w : Verified σ} {l : List Sequence} {e : Option TransferError}
    (h : Runs v l e w) (header : Header) (last : Bool) :
    Runs (⟨header, v, last, .unfinished⟩ : Session σ) l e ⟨header, w, last, .ofEnding e⟩ := by
  obtain ⟨u, hp, hn⟩ := h
  refine ⟨_, pulls_of_verified hp header last, ?_⟩
  have hu : u.next = (e.map .error, w) := hn
  cases e <;> simp [next, isOpen, hu, settle, fail, SessionState.ofEnding]

theorem state_of_pulls {s t : Session σ} {l : List Sequence} (h : Pulls s l t) :
    t.state = s.state := by
  induction h with
  | nil => rfl
  | cons hn _ ih =>
    obtain ⟨-, -, ht⟩ := next_eq_ok_iff.mp hn
    rw [ih, ht]

theorem pulls_packets {s t : Session σ} {l : List Sequence} (h : Pulls s l t) :
    Pulls s.packets l t.packets := by
  induction h with
  | nil => exact .nil
  | cons hn _ ih => exact .cons (next_eq_ok_iff.mp hn).2.1 ih

/-- The packets of an open session run as it does. -/
theorem drains_packets {s s' : Session σ} {l : List Sequence} (h : Drains s l s')
    (hs : s.state = .unfinished) : Drains s.packets l s'.packets := by
  obtain ⟨t, hp, hn⟩ := h
  have ht : t.state = .unfinished := (state_of_pulls hp).trans hs
  refine ⟨t.packets, pulls_packets hp, ?_⟩
  simp only [next_eq, next, isOpen, ht, decide_true, if_true] at hn
  rw [Verified.next_eq]
  rcases hv : t.packets.next with ⟨_ | _ | q, v⟩
  · simp only [hv, settle, isOpen, decide_true, if_true, Prod.mk.injEq, Option.map_none, true_and] at hn
    rw [← hn]
    rfl
  · simp [hv] at hn
  · simp [hv] at hn

theorem length_lt_fuel {s s' : Session σ} {l : List Sequence} {e : Option TransferError}
    (h : Runs s l e s') : l.length < s.fuel := by
  obtain ⟨t, hp, -⟩ := h
  obtain ⟨hashes, hr, hl⟩ := Verified.listed_of_pulls (pulls_packets hp)
  have hlen := hl.length_eq
  simp only [fuel, Verified.fuel, hr, List.length_append]
  omega

end Session
end ChunkRelay
