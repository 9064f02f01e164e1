import ChunkRelay.Proofs.Integrity
import ChunkRelay.Proofs.Placement
import ChunkRelay.Proofs.Truncation

/-! One verdict on a stream. Whether its packets are counted, written, pulled through a session or taken in, and
whether their content is new or known, they are accepted or refused alike, and what they are refused for is what is
wrong with the first item that is not right. -/
namespace ChunkRelay

open PacketFeed

/-- Why a call failed, if it did. -/
def failure? {α : Type} : Except TransferError α → Option TransferError
  | .ok _ => none
  | .error e => some e

@[simp] theorem failure?_elim {α : Type} (e : Option TransferError) (a : α) :
    failure? (e.elim (.ok a) .error) = e := by
  cases e <;> rfl

namespace Header

/-- What is wrong with item `i` of a stream for the header, if anything is. -/
def fault? (h : Header) (i : Nat) : Delivery → Option TransferError
  | .error e => some e
  | .ok p =>
    if i = h.chunkCount then some (.overrun h.chunkCount)
    else if p.number ≠ UInt32.ofNat i then some (.outOfOrder (UInt32.ofNat i) p.number)
    else if h.hashes[i]? ≠ some p.hash then some (.integrity (UInt32.ofNat i))
    else none

/-- What is wrong with the first item that is not right, counted from `i` on, or that items are missing. -/
def firstFault? (h : Header) (i : Nat) : List Delivery → Option TransferError
  | [] => if i < h.chunkCount then some (.truncated i h.chunkCount) else none
  | d :: r => (h.fault? i d).or (h.firstFault? (i + 1) r)

/-- The packets that stand before the first item that is not right, counted from `i` on. -/
def upToFault (h : Header) (i : Nat) : List Delivery → List Sequence
  | [] => []
  | .error _ :: _ => []
  | .ok p :: r => if h.fault? i (.ok p) = none then p :: h.upToFault (i + 1) r else []

variable {h : Header} {i : Nat} {d : Delivery} {l : List Delivery} {e : TransferError}

theorem upToFault_of_fault (hd : h.fault? i d = some e) (l : List Delivery) : h.upToFault i (d :: l) = [] := by
  cases d with
  | error x => rfl
  | ok p => simp [upToFault, hd]

theorem fault?_eq_none_iff :
    h.fault? i d = none ↔ ∃ p, d = .ok p ∧ p.number = UInt32.ofNat i ∧ h.hashes[i]? = some p.hash := by
  cases d with
  | error e => simp [fault?]
  | ok p =>
    by_cases hi : i = h.chunkCount
    · have hnone : h.hashes[i]? = none := List.getElem?_eq_none (Nat.le_of_eq hi.symm)
      simp [fault?, hi.symm, hnone]
    · by_cases hn : p.number = UInt32.ofNat i <;> simp [fault?, hi, hn]

theorem lt_of_fault?_eq_none (hd : h.fault? i d = none) : i < h.chunkCount := by
  obtain ⟨p, -, -, hhash⟩ := fault?_eq_none_iff.mp hd
  exact (List.getElem?_eq_some_iff.mp hhash).1

/-- Nothing is wrong with any of the items, counted from `i` on. -/
def AllRight (h : Header) (i : Nat) (l : List Delivery) : Prop := ∀ j d, l[j]? = some d → h.fault? (i + j) d = none

theorem allRight_nil : h.AllRight i [] := nofun

theorem allRight_cons : h.AllRight i (d :: l) ↔ h.fault? i d = none ∧ h.AllRight (i + 1) l := by
  have hshift (j : Nat) : i + 1 + j = i + (j + 1) := by omega
  constructor
  · intro hall
    refine ⟨hall 0 d rfl, fun j c hc => ?_⟩
    rw [hshift]
    exact hall (j + 1) c hc
  · rintro ⟨hd, hl⟩ j c hc
    cases j with
    | zero =>
      cases hc
      exact hd
    | succ j =>
      rw [← hshift]
      exact hl j c hc

/-- Nothing is wrong exactly if there are as many items as there are to be, and each of them is right. -/
theorem firstFault?_eq_none_iff (hi : i ≤ h.chunkCount) :
    h.firstFault? i l = none ↔ i + l.length = h.chunkCount ∧ h.AllRight i l := by
  induction l generalizing i with
  | nil =>
    simp only [firstFault?, List.length_nil, Nat.add_zero, allRight_nil, and_true]
    split <;> simp <;> omega
  | cons d r ih =>
    rw [firstFault?, Option.or_eq_none_iff, allRight_cons, List.length_cons, ← Nat.add_assoc, Nat.add_right_comm]
    constructor
    · rintro ⟨hd, hr⟩
      obtain ⟨hlen, hrest⟩ := (ih (lt_of_fault?_eq_none hd)).mp hr
      exact ⟨hlen, hd, hrest⟩
    · rintro ⟨hlen, hd, hrest⟩
      exact ⟨hd, (ih (lt_of_fault?_eq_none hd)).mpr ⟨hlen, hrest⟩⟩

/-- What is wrong is wrong with an item that only right ones stand before, or it is that there are no more items. -/
theorem firstFault?_spec (hf : h.firstFault? i l = some e) :
    (∃ q d r, l = q ++ d :: r ∧ h.AllRight i q ∧ h.fault? (i + q.length) d = some e) ∨
      h.AllRight i l ∧ i + l.length < h.chunkCount ∧ e = .truncated (i + l.length) h.chunkCount := by
  induction l generalizing i with
  | nil =>
    unfold firstFault? at hf
    split at hf
    · rename_i hlt
      exact .inr ⟨allRight_nil, hlt, (Option.some.inj hf).symm⟩
    · cases hf
  | cons d r ih =>
    rw [firstFault?] at hf
    cases hd : h.fault? i d with
    | some x =>
      rw [hd] at hf
      cases hf
      exact .inl ⟨[], d, r, rfl, allRight_nil, hd⟩
    | none =>
      rw [hd, Option.none_or] at hf
      have hcount (k : Nat) : i + (k + 1) = i + 1 + k := by omega
      rcases ih hf with ⟨q, c, t, rfl, hq, hbad⟩ | ⟨hall, hlt, he⟩
      · refine .inl ⟨d :: q, c, t, rfl, allRight_cons.mpr ⟨hd, hq⟩, ?_⟩
        rwa [List.length_cons, hcount]
      · rw [List.length_cons, hcount]
        exact .inr ⟨allRight_cons.mpr ⟨hd, hall⟩, hlt, he⟩

/-- A packet that numbers can tell apart from all before it is the one that is listed under its number. -/
theorem verify_iff {p : Sequence} (hi : i < Chunk.maxCount) :
    p.number = UInt32.ofNat i ∧ h.hashes[i]? = some p.hash ↔ p.number.toNat = i ∧ p.verify h = true := by
  have hverify (hn : p.number.toNat = i) : p.verify h = true ↔ h.hashes[i]? = some p.hash := by
    unfold Sequence.verify hash?
    rw [hn]
    cases h.hashes[i]? <;> simp [eq_comm]
  constructor
  · rintro ⟨hn, hhash⟩
    have hnumber : p.number.toNat = i := by rw [hn, UInt32.toNat_ofNat_of_lt' hi]
    exact ⟨hnumber, (hverify hnumber).mpr hhash⟩
  · rintro ⟨hn, hp⟩
    refine ⟨?_, (hverify hn).mp hp⟩
    rw [← hn, UInt32.ofNat_toNat]

/-- The verdict that a stream deserves: that nothing is wrong, or what is. -/
structure Judges (h : Header) (items : List Delivery) (verdict : Option TransferError) : Prop where
  accepted_iff : verdict = none ↔ items.length = h.chunkCount ∧
    ∀ (i : Nat) (d : Delivery), items[i]? = some d →
      ∃ p : Sequence, d = .ok p ∧ p.number = UInt32.ofNat i ∧ h.hashes[i]? = some p.hash
  verified_iff : h.chunkCount ≤ Chunk.maxCount → (verdict = none ↔ items.length = h.chunkCount ∧
    ∀ (i : Nat) (d : Delivery), items[i]? = some d →
      ∃ p : Sequence, d = .ok p ∧ p.number.toNat = i ∧ p.verify h = true)
  refused : ∀ e, verdict = some e →
    (∃ q d r, items = q ++ d :: r ∧ h.AllRight 0 q ∧ h.fault? q.length d = some e) ∨
      h.AllRight 0 items ∧ items.length < h.chunkCount ∧ e = .truncated items.length h.chunkCount

theorem judges_firstFault? (h : Header) (l : List Delivery) : h.Judges l (h.firstFault? 0 l) := by
  have haccepted := firstFault?_eq_none_iff (l := l) (Nat.zero_le h.chunkCount)
  simp only [AllRight, Nat.zero_add] at haccepted
  refine ⟨?_, fun hmax => ?_, fun e he => ?_⟩
  · simp only [haccepted, fault?_eq_none_iff]
  · rw [haccepted]
    refine and_congr_right fun hlen => forall_congr' fun i => forall_congr' fun d => imp_congr_right fun hd => ?_
    have hi : i < Chunk.maxCount := by
      have hlt := (List.getElem?_eq_some_iff.mp hd).1
      omega
    rw [fault?_eq_none_iff]
    exact exists_congr fun p => and_congr_right fun _ => verify_iff hi
  · have hspec := firstFault?_spec he
    simpa only [Nat.zero_add] using hspec

end Header

namespace Verified

variable {σ : Type}

/-- A feed that brought the first `i` packets of the header. -/
def after (h : Header) (i : Nat) (f : σ) : Verified σ := ⟨f, h.hashes.drop i, i, false⟩

/-- A packet is refused for what is wrong with it. -/
theorem check_after {h : Header} {i : Nat} (hi : i ≤ h.chunkCount) (f : σ) (p : Sequence) :
    (after h i f).check p = (h.fault? i (.ok p)).elim (.ok (h.hashes.drop (i + 1))) .error := by
  rcases Nat.lt_or_eq_of_le hi with hlt | rfl
  · have hlisted : h.hashes[i]? = some h.hashes[i] := List.getElem?_eq_getElem hlt
    rw [after, List.drop_eq_getElem_cons hlt, check_cons, Sequence.refusal?, Header.fault?, if_neg (Nat.ne_of_lt hlt)]
    by_cases hn : p.number = UInt32.ofNat i
    · by_cases hh : p.hash = h.hashes[i]
      · simp [hn, hh, hlisted]
      · have hne : h.hashes[i] ≠ p.hash := fun he => hh he.symm
        simp [hn, hh, hne, hlisted]
    · simp [hn]
  · have hnone : h.hashes.drop h.chunkCount = [] := List.drop_length
    simp only [after, check, hnone, expected, Header.fault?, if_pos, List.length_nil, Nat.add_zero, Option.elim]

variable [PacketFeed σ]

/-- A pull brings the item, what is wrong with it, or that items are missing. -/
theorem next_after {h : Header} {i : Nat} (hi : i ≤ h.chunkCount) (f : σ) :
    (after h i f).next =
      match PacketFeed.next f with
      | (none, s) => (if i < h.chunkCount then some (.error (.truncated i h.chunkCount)) else none,
          { after h i s with done := true })
      | (some d, s) =>
        match h.fault? i d with
        | some e => (some (.error e), { after h i s with done := true })
        | none => (some d, after h (i + 1) s) := by
  have hopen : ¬ (after h i f).done = true := Bool.false_ne_true
  have hinner : PacketFeed.next (after h i f).inner = PacketFeed.next f := rfl
  have hexpected : (after h i f).expected = h.chunkCount := by
    simp only [expected, after, List.length_drop]
    exact Nat.add_sub_cancel' hi
  rw [next, if_neg hopen, hinner]
  rcases PacketFeed.next f with ⟨_ | e | p, s⟩
  · by_cases hlt : i < h.chunkCount
    · have hleft : (after h i f).remaining.isEmpty = false := by
        rw [Bool.eq_false_iff, ne_eq, List.isEmpty_iff, after, List.drop_eq_nil_iff]
        exact Nat.not_le.mpr hlt
      simp only [hleft, Bool.false_eq_true, if_false, hexpected, if_pos hlt]
      rfl
    · have hleft : (after h i f).remaining.isEmpty = true :=
        List.isEmpty_iff.mpr (List.drop_eq_nil_of_le (Nat.le_of_not_lt hlt))
      simp only [hleft, if_true, if_neg hlt]
      rfl
  · rfl
  · simp only [check_after hi]
    cases h.fault? i (.ok p) <;> rfl

/-- The packets of a stream run to the first item that is not right. -/
theorem eq_of_runs {h : Header} {i : Nat} {f : σ} {l : List Sequence} {e : Option TransferError} {w : Verified σ}
    (hr : Runs (after h i f) l e w) (hi : i ≤ h.chunkCount) {fuel : Nat} (hfuel : l.length < fuel) :
    l = h.upToFault i (collect fuel f).1 ∧ e = h.firstFault? i (collect fuel f).1 := by
  induction l generalizing i f fuel with
  | nil =>
    have hnext : (e.map .error, w) = (after h i f).next := (runs_nil_iff.mp hr).symm
    rw [next_after hi] at hnext
    cases fuel with
    | zero => cases hfuel
    | succ fuel =>
      rcases hf : PacketFeed.next f with ⟨_ | d, s⟩
      · simp only [hf, Prod.mk.injEq] at hnext
        simp only [collect, hf, Header.firstFault?, Header.upToFault, true_and]
        by_cases hlt : i < h.chunkCount
        · rw [if_pos hlt] at hnext ⊢
          cases e <;> cases hnext.1
          rfl
        · rw [if_neg hlt] at hnext ⊢
          cases e <;> cases hnext.1
          rfl
      · simp only [hf] at hnext
        cases hd : h.fault? i d with
        | some x =>
          simp only [hd, Prod.mk.injEq] at hnext
          cases e <;> cases hnext.1
          simp only [collect, hf, Header.firstFault?, hd, Option.some_or, Header.upToFault_of_fault hd, and_self]
        | none =>
          obtain ⟨p, rfl, -⟩ := Header.fault?_eq_none_iff.mp hd
          simp only [hd, Prod.mk.injEq] at hnext
          cases e <;> cases hnext.1
  | cons p l ih =>
    obtain ⟨t, hnext, hrest⟩ := runs_cons_iff.mp hr
    rw [next_eq, next_after hi] at hnext
    cases fuel with
    | zero => cases hfuel
    | succ fuel =>
      rcases hf : PacketFeed.next f with ⟨_ | d, s⟩
      · simp only [hf] at hnext
        split at hnext <;> cases hnext
      · cases hd : h.fault? i d with
        | some x => simp [hf, hd] at hnext
        | none =>
          simp only [hf, hd, Prod.mk.injEq, Option.some.injEq] at hnext
          obtain ⟨rfl, rfl⟩ := hnext
          obtain ⟨hl, he⟩ := ih hrest (Header.lt_of_fault?_eq_none hd) (Nat.lt_of_succ_lt_succ hfuel)
          simp only [collect, hf, Header.firstFault?, Header.upToFault, hd, Option.none_or, if_true, ← hl,
            true_and]
          exact he

end Verified

namespace Assembler

variable {σ δ : Type} [PacketFeed σ] [Datastore δ] {a b : Assembler δ} {h : Header} {f : σ}

/-- Where a payload is to be kept. -/
def bodyFor (a : Assembler δ) (h : Header) (content : Bytes) : Body :=
  if h.toDisk = true ∨ a.threshold < content.size then .file (a.files.pathFor h) else .inline content

/-- No storage fails that a stream of new content calls for. If its payload is wanted on disk or grows too long, its
part file can be made; if its packets are all right, that can be committed, and the message can be recorded. -/
structure Grants (a : Assembler δ) (h : Header) (f : σ) : Prop where
  file : ∀ l e v, Runs (Verified.new h f) l e v → h.toDisk = true ∨ a.threshold < (Sequence.content l).size →
    ∃ part files, a.files.createPart (a.files.pathFor h) = (.ok part, files) ∧
      (e = none → ∃ w files', (files.writePart part (Sequence.content l)).2.commit
        (files.writePart part (Sequence.content l)).1 = (.ok w, files'))
  record : ∀ l v, Drains (Verified.new h f) l v →
    ∃ stored d, Datastore.persist (.ofHeader h (a.bodyFor h (Sequence.content l))) a.store = (.ok stored, d)

/-- A stream of known content is taken in as its packets run. -/
theorem failure?_of_known (hk : a.isKnown h.contentKey (a.files.pathFor h) = (.ok true, b)) {l : List Sequence}
    {e : Option TransferError} {r : Except TransferError Outcome} {c : Assembler δ} {s : SessionState}
    (ht : Takes a h l e r c s) : failure? r = e := by
  cases ht with
  | ending _ => exact failure?_elim e _
  | known _ _ => exact failure?_elim e _
  | unanswered _ hk' => cases hk'.symm.trans hk
  | incomplete _ hk' => cases hk'.symm.trans hk
  | inline _ hk' => cases hk'.symm.trans hk
  | refused _ hk' => cases hk'.symm.trans hk
  | cut _ hk' => cases hk'.symm.trans hk
  | uncommitted _ hk' => cases hk'.symm.trans hk
  | file _ hk' => cases hk'.symm.trans hk

/-- So is a stream of new content, if no storage fails. -/
theorem failure?_of_new (hk : a.isKnown h.contentKey (a.files.pathFor h) = (.ok false, b)) (hg : b.Grants h f)
    {l : List Sequence} {e : Option TransferError} {v : Verified σ} (hr : Runs (Verified.new h f) l e v)
    {r : Except TransferError Outcome} {c : Assembler δ} {s : SessionState} (ht : Takes a h l e r c s) :
    failure? r = e := by
  obtain ⟨_, d₀, -, -, rfl⟩ := isKnown_eq_false hk
  -- a way through that a failing storage or another answer would open is closed by `hg` or `hk`
  cases ht with
  | ending _ => exact failure?_elim e _
  | unanswered _ hk' => cases hk'.symm.trans hk
  | known _ hk' => cases hk'.symm.trans hk
  | incomplete _ _ hx => rw [hx]; rfl
  | inline _ hk' hx hdisk hsize hp =>
    cases hk'.symm.trans hk
    subst hx
    obtain ⟨stored, d, hrecord⟩ := hg.record l v hr
    rw [bodyFor, if_neg (by simp [hdisk, Nat.not_lt.mpr hsize])] at hrecord
    cases stored <;> simp only [persistInline, hrecord] at hp <;> cases hp <;> rfl
  | refused _ hk' hbig hpart =>
    cases hk'.symm.trans hk
    obtain ⟨part, files, hmade, -⟩ := hg.file l e v hr hbig
    cases hpart.symm.trans hmade
  | cut _ _ hx => rw [hx]; rfl
  | uncommitted _ hk' hx hbig hpart hcommit =>
    cases hk'.symm.trans hk
    obtain ⟨part, files, hmade, hcommits⟩ := hg.file l e v hr hbig
    obtain ⟨w, files', hcommitted⟩ := hcommits hx
    cases hpart.symm.trans hmade
    cases hcommit.symm.trans hcommitted
  | file _ hk' hx hbig hpart hcommit hp =>
    cases hk'.symm.trans hk
    subst hx
    obtain ⟨stored, d, hrecord⟩ := hg.record l v hr
    rw [bodyFor, if_pos hbig] at hrecord
    cases stored <;> simp only [persistFile, hrecord] at hp <;> cases hp <;> rfl

/-- Whoever consumes a stream comes to one verdict on it: a count of its packets, a sink that takes everything, a
pull through a session, and an assembler that knows the content or stores it without a failure. -/
theorem consumers_agree {δ' : Type} [Datastore δ'] {a' b' : Assembler δ'} (f : σ) {w : Sink} (hw : w.Unfailing)
    (hnew : a.isKnown h.contentKey (a.files.pathFor h) = (.ok false, b)) (hg : b.Grants h f)
    (hknown : a'.isKnown h.contentKey (a'.files.pathFor h) = (.ok true, b')) :
    ∃ verdict, h.Judges (collect (h.chunkCount + 1) f).1 verdict ∧
      failure? (Verified.countAll h f) = verdict ∧ failure? (Verified.writeTo h f w).1 = verdict ∧
      failure? (drain (Session.inbound h f).fuel (Session.inbound h f)).1 = verdict ∧
      failure? (a.assemble (Session.inbound h f)).1 = verdict ∧
      failure? (a'.assemble (Session.inbound h f)).1 = verdict := by
  obtain ⟨l, e, v, hr⟩ := Verified.exists_runs (Verified.new h f) rfl
  have hfuel := Verified.length_lt_fuel hr
  have hafter : Runs (Verified.after h 0 f) l e v := hr
  have hverdict := (Verified.eq_of_runs hafter (Nat.zero_le _) hfuel).2
  have hsession : Runs (Session.inbound h f) l e ⟨h, v, h.endOfStream, .ofEnding e⟩ :=
    Session.runs_of_verified hr h h.endOfStream
  refine ⟨e, ?_, ?_, ?_, ?_, ?_, ?_⟩
  · rw [hverdict]
    exact h.judges_firstFault? _
  · rw [Verified.countAll, drain_of_runs hr hfuel, failure?_elim]
  · rw [Verified.writeTo_of_runs hr hw, failure?_elim]
  · rw [drain_of_runs hsession (Session.length_lt_fuel hsession), failure?_elim]
  · exact failure?_of_new hnew hg hr (takes_assemble a hr h.endOfStream _ _ _ rfl)
  · exact failure?_of_known hknown (takes_assemble a' hr h.endOfStream _ _ _ rfl)

/-- The two chunks the wrong way round. -/
def swapped : List Delivery := pairPackets.reverse.map .ok

theorem grants_emptyNode (t : Nat) (f : σ) : (emptyNode t).Grants pair f where
  file l _ _ _ _ := by
    have haccepts := free_pair.accepts (Sequence.content l)
    obtain ⟨part, files, w, files', hpart, hcommit, -⟩ := haccepts.commit made_pair rfl
    exact ⟨part, files, hpart, fun _ => ⟨w, files', hcommit⟩⟩
  record _ _ _ := ⟨_, _, MemoryStore.persist_of_new rfl⟩

/-- A node that has the two bytes already. -/
def pairNode : Assembler MemoryStore :=
  { emptyNode 2 with store := MemoryStore.empty.add (.ofHeader pair (.inline ⟨#[7, 8]⟩)) }

theorem isKnown_pairNode : pairNode.isKnown pair.contentKey (emptyFiles.pathFor pair) = (.ok true, pairNode) := by
  have hkey : (pairNode.store.messages.get? pair.contentKey).isSome := MemoryStore.isSome_add_iff.mpr (.inr rfl)
  rw [isKnown_eq, decide_eq_true (.inl hkey)]

/-- Everyone refuses the chunks for the first of them, which is not the one that is due. -/
theorem consumers_agree_on_swapped :
    failure? (Verified.countAll pair swapped) = some (.outOfOrder 0 1) ∧
      failure? (Verified.writeTo pair swapped Sink.empty).1 = some (.outOfOrder 0 1) ∧
      failure? (drain (Session.inbound pair swapped).fuel (Session.inbound pair swapped)).1 = some (.outOfOrder 0 1) ∧
      failure? ((emptyNode 2).assemble (Session.inbound pair swapped)).1 = some (.outOfOrder 0 1) ∧
      failure? (pairNode.assemble (Session.inbound pair swapped)).1 = some (.outOfOrder 0 1) := by
  obtain ⟨verdict, -, hcount, hagree⟩ := consumers_agree swapped (w := Sink.empty) ⟨rfl, rfl⟩
    (isKnown_emptyNode 2) (grants_emptyNode 2 swapped) isKnown_pairNode
  have hverdict : failure? (Verified.countAll pair swapped) = some (.outOfOrder 0 1) := rfl
  obtain rfl : verdict = some (.outOfOrder 0 1) := hcount.symm.trans hverdict
  exact ⟨hcount, hagree⟩

end Assembler
end ChunkRelay
