import ChunkRelay.Proofs.Cutting
import ChunkRelay.Proofs.Transport
import ChunkRelay.Proofs.Truncation
import ChunkRelay.Proofs.Verdicts

/-! Sources that break, next to their front, which ends where they break. Whatever the bytes are, a reader takes in the
same from both; only where the front ends too early, the failure of the source is what it returns. -/
namespace ChunkRelay

open PacketFeed

/-- What came of one step on two states: the same, and the states go on alike; or `broke` on the one where `ended` came
of the other. -/
inductive Torn {ρ σ : Type} (broke ended : ρ) (alike lost : σ → σ → Prop) : ρ × σ → ρ × σ → Prop
  | same {r : ρ} {s t : σ} : r ≠ ended → alike s t → Torn broke ended alike lost (r, s) (r, t)
  | torn {s t : σ} : lost s t → Torn broke ended alike lost (broke, s) (ended, t)

/-- What follows a torn step on the two states. -/
@[elab_as_elim] theorem Torn.elim {ρ σ : Type} {broke ended : ρ} {alike lost : σ → σ → Prop} {p q : ρ × σ}
    {motive : ρ × σ → ρ × σ → Prop} (h : Torn broke ended alike lost p q)
    (torn : ∀ s t, lost s t → motive (broke, s) (ended, t))
    (same : ∀ r s t, r ≠ ended → alike s t → motive (r, s) (r, t)) : motive p q := by
  cases h with
  | same hr hst => exact same _ _ _ hr hst
  | torn hst => exact torn _ _ hst

theorem Torn.of_right {ρ σ : Type} {broke ended r : ρ} {alike lost : σ → σ → Prop} {p : ρ × σ} {t : σ}
    (h : Torn broke ended alike lost p (r, t)) :
    ∃ s, p = (r, s) ∧ r ≠ ended ∧ alike s t ∨ p = (broke, s) ∧ r = ended ∧ lost s t := by
  cases h with
  | same hr hst => exact ⟨_, .inl ⟨rfl, hr, hst⟩⟩
  | torn hst => exact ⟨_, .inr ⟨rfl, rfl, hst⟩⟩

namespace Source

/-- The first `f` bytes of a source, which does not fail behind them. -/
def front (s : Source) (f : Nat) : Source := { s with bytes := s.bytes.extract 0 f, breakAt := none }

variable {s t : Source} {f n : Nat} {e : IoError}

@[simp] theorem front_advance (s : Source) (f n : Nat) : (s.advance n).front f = (s.front f).advance n := rfl

@[simp] theorem pos_front (s : Source) (f : Nat) : (s.front f).pos = s.pos := rfl

theorem Breaks.size_front (h : s.Breaks f e) : (s.front f).bytes.size = f := by
  have hw := h.within
  simp only [front, ByteArray.size_extract]
  omega

theorem Breaks.steady_front (h : s.Breaks f e) : (s.front f).Steady :=
  ⟨rfl, fun i hi => h.grants i (by rwa [h.size_front] at hi)⟩

/-- A source that has not broken yet, and its front. -/
structure Fronts (f : Nat) (e : IoError) (s t : Source) : Prop where
  breaks : s.Breaks f e
  pos_le : s.pos ≤ f
  eq_front : t = s.front f

theorem Fronts.advance (h : Fronts f e s t) (hn : s.pos + n ≤ f) : Fronts f e (s.advance n) (t.advance n) :=
  ⟨h.breaks.advance n, hn, by rw [h.eq_front, front_advance]⟩

/-- What stands before the break stands in the front. -/
theorem Fronts.slice_eq (h : Fronts f e s t) (hn : s.pos + n ≤ f) : t.rest.extract 0 n = s.bytes.slice s.pos n := by
  rw [h.eq_front, ← slice_pos]
  apply ByteArray.ext
  simp only [Bytes.slice, front, ByteArray.extract_extract, ByteArray.data_extract, Nat.zero_add, Nat.min_eq_left hn]

/-- A step that reads from a source, next to the same step on its front. -/
abbrev Tears {ε α : Type} (f : Nat) (e : IoError) (wrap : FramingError → ε) :
    Except ε α × Source → Except ε α × Source → Prop :=
  Torn (.error (wrap (.io e))) (.error (wrap .truncated)) (Fronts f e) fun _ _ => True

/-- What follows a step on a source that breaks and the step on its front. -/
@[elab_as_elim] theorem Tears.elim {ε α : Type} {wrap : FramingError → ε} {x y : Except ε α × Source}
    {motive : Except ε α × Source → Except ε α × Source → Prop} (h : Tears f e wrap x y)
    (torn : ∀ s t, motive (.error (wrap (.io e)), s) (.error (wrap .truncated), t))
    (error : ∀ z s t, z ≠ wrap .truncated → Fronts f e s t → motive (.error z, s) (.error z, t))
    (ok : ∀ a s t, Fronts f e s t → motive (.ok a, s) (.ok a, t)) : motive x y := by
  refine Torn.elim h (fun s t _ => torn s t) fun r s t hr hst => ?_
  cases r with
  | error z => exact error z s t (by simpa using hr) hst
  | ok a => exact ok a s t hst

end Source

open Source (Fronts Tears)

section Sources

variable {s t : Source} {f : Nat} {e : IoError}

theorem Frame.readExact_tears (h : Fronts f e s t) (n : Nat) :
    Tears f e id (readExact s n) (readExact t n) := by
  have hsteady : t.Steady := h.eq_front ▸ h.breaks.steady_front
  have hrest : t.rest.size = f - s.pos := by
    rw [h.eq_front, Source.size_rest, h.breaks.size_front, Source.pos_front]
  by_cases hn : s.pos + n ≤ f
  · have hread : readExact s n = (.ok (s.bytes.slice s.pos n), s.advance n) := by
      have hw := h.breaks.within
      have hsize : ¬ (s.bytes.slice s.pos n).size < n := by
        rw [Bytes.size_slice_eq]
        omega
      simp only [readExact, h.breaks.take_of_le hn, if_neg hsize]
    rw [hread, readExact_of_le hsteady (by omega), h.slice_eq hn]
    exact .same (by simp) (h.advance hn)
  · have hp := h.pos_le
    obtain ⟨u, hbroke⟩ := h.breaks.take_of_lt hp (Nat.lt_of_not_le hn)
    have hread : readExact s n = (.error (.io e), u) := by simp only [readExact, hbroke]
    rw [hread, readExact_of_short hsteady (by omega)]
    exact .torn trivial

theorem Frame.read_tears (h : Fronts f e s t) : Tears f e id (Frame.read s) (Frame.read t) := by
  unfold Frame.read
  refine (readExact_tears h 4).elim (fun _ _ => .torn trivial) (fun z _ _ hz h => .same (by simpa using hz) h)
    fun head s t h => ?_
  by_cases hlarge : (head.uint32LE 0).toNat > maxLength
  · simp only [if_pos hlarge]
    exact .same (by simp) h
  simp only [if_neg hlarge]
  refine (readExact_tears h _).elim (fun _ _ => .torn trivial) (fun z _ _ hz h => .same (by simpa using hz) h)
    fun payload s t h => ?_
  dsimp only
  refine (readExact_tears h 4).elim (fun _ _ => .torn trivial) (fun z _ _ hz h => .same (by simpa using hz) h)
    fun trailer s t h => .same ?_ h
  simp only [checked]
  split <;> simp

/-- Of a payload that arrived, decoding blames nothing but its shape. -/
theorem Packet.malformed_of_ofPayload {type : PacketType} {b : Bytes} {x : FramingError}
    (h : ofPayload type b = .error (.framing x)) : ∃ cause, x = .malformed cause := by
  have hread {α : Type} {d : Record.Decoder α} {next : α → Except PacketError Packet}
      (hd : ((d.run b).mapError fun e => PacketError.framing (.malformed e)) >>= next = .error (.framing x))
      (hnext : ∀ a, next a ≠ .error (.framing x)) :
      ∃ cause, x = .malformed cause := by
    cases hrun : d.run b with
    | error cause =>
      rw [hrun] at hd
      exact ⟨cause, (PacketError.framing.inj (Except.error.inj hd)).symm⟩
    | ok a =>
      rw [hrun] at hd
      exact absurd hd (hnext a)
  cases type with
  | blockHeader =>
    refine hread h fun raw hraw => ?_
    cases hmade : Header.ofRaw raw <;> rw [hmade] at hraw <;> cases hraw
  | blockSequence => exact hread h fun _ => by simp [pure, Except.pure]
  | identity =>
    refine hread h fun raw hraw => ?_
    cases hmade : IdentityPacket.ofRaw raw with
    | ok i =>
      rw [hmade] at hraw
      cases hraw
    | error cause =>
      rw [hmade] at hraw
      cases hraw
      cases raw with
      | ended => cases hmade
      | live name keys signature =>
        simp only [IdentityPacket.ofRaw] at hmade
        repeat' split at hmade
        all_goals cases hmade
  | declareHashes => exact hread h fun _ => by simp [pure, Except.pure]

theorem Packet.readTyped_tears (h : Fronts f e s t) :
    Tears f e PacketError.framing (readTyped s) (readTyped t) := by
  unfold readTyped
  refine (Frame.readExact_tears h 1).elim (fun _ _ => .torn trivial) (fun z _ _ hz h => .same (by simpa using hz) h)
    fun b s t h => ?_
  dsimp only
  cases hb : PacketType.ofByte (b.at0 0) with
  | error z =>
    refine .same (fun hz => ?_) h
    rw [PacketError.framing.inj (Except.error.inj hz)] at hb
    unfold PacketType.ofByte at hb
    split at hb <;> cases hb
  | ok type =>
    dsimp only
    unfold read
    refine (Frame.read_tears h).elim (fun _ _ => .torn trivial) (fun z _ _ hz h => .same (by simpa using hz) h)
      fun payload s t h => .same (fun hz => ?_) h
    obtain ⟨cause, hcause⟩ := malformed_of_ofPayload hz
    cases hcause

end Sources

/-! Feeds. -/

open TransferError (cutShort)

/-- The error where an end that comes too early is told as `x`. -/
def TransferError.retold (x e : TransferError) : TransferError := if e = cutShort then x else e

open TransferError (retold)

@[simp] theorem TransferError.retold_cutShort (x : TransferError) : retold x cutShort = x := if_pos rfl

theorem TransferError.retold_of_ne (x : TransferError) {e : TransferError} (h : e ≠ cutShort) : retold x e = e :=
  if_neg h

@[simp] theorem TransferError.retold_streamBroken (x : TransferError) : retold x .streamBroken = .streamBroken :=
  retold_of_ne x (by decide)

namespace PacketFeed

variable {σ : Type} [PacketFeed σ] {x : TransferError} {alike lost : σ → σ → Prop}

/-- Pulling one of two feeds comes to the same as pulling the other, or fails with `x` where that ends too early. -/
def Tears (x : TransferError) (alike lost : σ → σ → Prop) : Prop :=
  ∀ s t, alike s t →
    Torn (some (.error x)) (some (.error cutShort)) alike lost (PacketFeed.next s) (PacketFeed.next t)

/-- A run is torn at its end or not at all. -/
theorem Tears.runs (h : Tears x alike lost) {s t t' : σ} {l : List Sequence} {e : Option TransferError}
    (hst : alike s t) (ht : Runs t l e t') :
    ∃ s', Runs s l (e.map (retold x)) s' ∧ (alike s' t' ∨ lost s' t') := by
  induction l generalizing s t with
  | nil =>
    have hstep := h s t hst
    rw [runs_nil_iff.mp ht] at hstep
    obtain ⟨s', ⟨hs, hr, hend⟩ | ⟨hs, hr, hend⟩⟩ := hstep.of_right
    · refine ⟨s', runs_nil_iff.mpr (hs.trans ?_), .inl hend⟩
      cases e with
      | none => rfl
      | some z =>
        have hz : z ≠ cutShort := by simpa using hr
        rw [Option.map_some, Option.map_some, TransferError.retold_of_ne x hz, Option.map_some]
    · refine ⟨s', runs_nil_iff.mpr (hs.trans ?_), .inr hend⟩
      cases e with
      | none => cases hr
      | some z =>
        cases hr
        rw [Option.map_some, TransferError.retold_cutShort, Option.map_some]
  | cons p l ih =>
    obtain ⟨u, hn, hrun⟩ := runs_cons_iff.mp ht
    have hstep := h s t hst
    rw [hn] at hstep
    obtain ⟨s₁, ⟨hs, -, hsu⟩ | ⟨-, hr, -⟩⟩ := hstep.of_right
    · obtain ⟨s', hrun', hend⟩ := ih hsu hrun
      exact ⟨s', runs_cons_iff.mpr ⟨s₁, hs, hrun'⟩, hend⟩
    · cases hr

end PacketFeed

namespace Verified

variable {σ : Type} [PacketFeed σ] {x : TransferError} {alike lost : σ → σ → Prop}

omit [PacketFeed σ] in
/-- What checking finds wrong by itself is never an end of the bytes that comes too early. -/
theorem check_ne_cutShort (v : Verified σ) (p : Sequence) : v.check p ≠ .error cutShort := by
  unfold check
  split
  · nofun
  · dsimp only
    repeat' split
    all_goals nofun

/-- What is checked is torn as the feed below it is. -/
theorem tears (h : PacketFeed.Tears x alike lost) :
    PacketFeed.Tears x (fun v w : Verified σ => alike v.inner w.inner ∧ v = { w with inner := v.inner })
      fun v w => lost v.inner w.inner := by
  rintro ⟨f, _, _, _⟩ ⟨g, remaining, received, done⟩ ⟨hinner, heq⟩
  cases heq
  simp only [next_eq, next]
  cases done with
  | true => exact .same (by simp) ⟨hinner, rfl⟩
  | false =>
    refine (h f g hinner).elim (fun _ _ hend => .torn hend) fun r f' g' hr hend => ?_
    rcases r with _ | z | p
    · cases remaining with
      | nil => exact .same (by simp) ⟨hend, rfl⟩
      | cons hash rest => exact .same (by simp [cutShort]) ⟨hend, rfl⟩
    · exact .same hr ⟨hend, rfl⟩
    · have hcheck : (⟨f, remaining, received, false⟩ : Verified σ).check p =
          (⟨g, remaining, received, false⟩ : Verified σ).check p := rfl
      simp only [Bool.false_eq_true, if_false, hcheck]
      cases hp : (⟨g, remaining, received, false⟩ : Verified σ).check p with
      | error z =>
        refine .same (fun hz => check_ne_cutShort _ p (hp.trans ?_)) ⟨hend, rfl⟩
        rw [Except.error.inj (Option.some.inj hz)]
      | ok rest => exact .same (by simp) ⟨hend, rfl⟩

end Verified

/-! Inboxes. -/

/-- How a source that broke shows. -/
def TransferError.brokeWith (e : IoError) : TransferError := .packet (.framing (.io e))

open TransferError (brokeWith)

namespace Inbox

/-- Two inboxes of which the one has the front of the other's source, which has not broken yet. -/
structure Fronts (f : Nat) (e : IoError) (i j : Inbox) : Prop where
  source : Source.Fronts f e i.source j.source
  eq : j = { i with source := j.source }

/-- Two inboxes that have both lost their place. -/
structure Lost (i j : Inbox) : Prop where
  left : i.broken = true
  right : j.broken = true
  finished_eq : i.finished = j.finished

variable {f : Nat} {e : IoError} {i j : Inbox}

theorem readChunk_tears (h : Fronts f e i j) :
    Torn (.error (brokeWith e)) (.error cutShort) (Fronts f e) Lost i.readChunk j.readChunk := by
  obtain ⟨s, pending, broken, finished⟩ := i
  obtain ⟨t, _, _, _⟩ := j
  obtain ⟨hsource, heq⟩ := h
  cases heq
  unfold readChunk
  cases broken with
  | true => exact .same (by simp [cutShort]) ⟨hsource, rfl⟩
  | false =>
    simp only [Bool.false_eq_true, if_false]
    refine (Packet.readTyped_tears hsource).elim (fun _ _ => .torn ⟨rfl, rfl, rfl⟩)
      (fun z _ _ hz h => .same ?_ ⟨h, rfl⟩) fun p s t h => ?_
    · simpa [cutShort] using hz
    · cases p with
      | sequence p => exact .same (by simp) ⟨h, rfl⟩
      | header _ | identity _ | declare _ => exact .same (by simp [cutShort]) ⟨h, rfl⟩

theorem tears (f : Nat) (e : IoError) : PacketFeed.Tears (brokeWith e) (Fronts f e) Lost := by
  intro i j h
  have hpending : j.pending = i.pending := by rw [h.eq]
  simp only [PacketFeed.next, hpending]
  by_cases hnone : i.pending = 0
  · simp only [if_pos hnone]
    exact .same (by simp) h
  · simp only [if_neg hnone]
    refine (readChunk_tears h).elim (fun _ _ hend => .torn hend) fun d i' j' hd hend => .same ?_ hend
    exact fun hd' => hd (Option.some.inj hd')

theorem skip_tears (h : Fronts f e i j) (fuel : Nat) :
    Torn (.error (brokeWith e)) (.error cutShort) (Fronts f e) Lost (i.skip fuel) (j.skip fuel) := by
  induction fuel generalizing i j with
  | zero => exact .same (by simp) h
  | succ fuel ih =>
    have hpending : j.pending = i.pending := by rw [h.eq]
    simp only [skip, hpending]
    by_cases hnone : i.pending = 0
    · simp only [if_pos hnone]
      exact .same (by simp) h
    · simp only [if_neg hnone]
      refine (readChunk_tears h).elim (fun _ _ hend => .torn hend) fun d i' j' hd hend => ?_
      cases d with
      | error z => exact .same (by simpa using hd) hend
      | ok p => exact ih hend

theorem readHeader_tears (h : Fronts f e i j) :
    Torn (.error (brokeWith e)) (.error cutShort) (Fronts f e) Lost i.readHeader j.readHeader := by
  obtain ⟨s, pending, broken, finished⟩ := i
  obtain ⟨t, _, _, _⟩ := j
  obtain ⟨hsource, heq⟩ := h
  cases heq
  unfold readHeader
  refine (Packet.readTyped_tears hsource).elim (fun _ _ => .torn ⟨rfl, rfl, rfl⟩)
    (fun z _ _ hz h => .same ?_ ⟨h, rfl⟩) fun p s t h => ?_
  · simpa [cutShort] using hz
  · cases p with
    | header header =>
      by_cases hend : header.endOfStream
      · simp only [if_pos hend]
        exact .same (by simp) ⟨h, rfl⟩
      · simp only [if_neg hend]
        exact .same (by simp) ⟨h, rfl⟩
    | sequence _ | identity _ | declare _ => exact .same (by simp [cutShort]) ⟨h, rfl⟩

theorem nextHeader_tears (h : Fronts f e i j) :
    Torn (.error (brokeWith e)) (.error cutShort) (Fronts f e) Lost i.nextHeader j.nextHeader := by
  have hpending : j.pending = i.pending := by rw [h.eq]
  have hfinished : j.finished = i.finished := by rw [h.eq]
  simp only [nextHeader, hpending, hfinished]
  by_cases hdone : i.finished = true
  · simp only [if_pos hdone]
    exact .same (by simp) h
  · simp only [if_neg hdone]
    refine (skip_tears h i.pending).elim (fun _ _ hend => .torn hend) fun r i' j' hr hend => ?_
    cases r with
    | error z => exact .same (by simpa using hr) hend
    | ok u =>
      have hbroken : j'.broken = i'.broken := by rw [hend.eq]
      simp only [hbroken]
      by_cases hb : i'.broken = true
      · simp only [if_pos hb]
        exact .same (by simp [cutShort]) hend
      · simp only [if_neg hb]
        exact readHeader_tears hend

/-! What a reader is told. -/

/-- The errors among what a call and draining its session come to. -/
def errors : Except TransferError (Option Receipt) → List TransferError
  | .error e => [e]
  | .ok none => []
  | .ok (some r) => r.items.filterMap failure?

theorem errors_ended (h : Header) (q : List Sequence) (z : Option TransferError) (state : SessionState) :
    errors (.ok (some ⟨h, q.map .ok ++ z.toList.map .error, state⟩)) = z.toList := by
  cases z <;> simp [errors, failure?, List.filterMap_map, Function.comp_def]

theorem drainSession_of_lost (h : Lost i j) :
    errors i.drainSession.1 = (errors j.drainSession.1).map (retold (brokeWith e)) ∧
      Lost i.drainSession.2 j.drainSession.2 := by
  have hbroken {k : Inbox} (hk : k.broken = true) :
      k.drainSession = (if k.finished then .ok none else .error .streamBroken, k) := by
    cases hf : k.finished with
    | true => simp [drainSession, nextHeader, hf]
    | false => simp [drainSession, nextHeader_of_stuck ⟨hk, hf⟩]
  rw [hbroken h.left, hbroken h.right, h.finished_eq]
  refine ⟨?_, h⟩
  cases j.finished with
  | true => rfl
  | false => simp [errors]

theorem drainSession_of_fronts (h : Fronts f e i j) :
    errors i.drainSession.1 = (errors j.drainSession.1).map (retold (brokeWith e)) ∧
      (Fronts f e i.drainSession.2 j.drainSession.2 ∨ Lost i.drainSession.2 j.drainSession.2) := by
  have hstep := nextHeader_tears h
  rcases hj : j.nextHeader with ⟨r, j'⟩
  rw [hj] at hstep
  obtain ⟨i', ⟨hi, hr, hend⟩ | ⟨hi, rfl, hend⟩⟩ := hstep.of_right
  · rcases r with z | _ | header
    · have hz : z ≠ cutShort := by simpa using hr
      simp [drainSession, hi, hj, errors, TransferError.retold_of_ne _ hz, hend]
    · simp [drainSession, hi, hj, errors, hend]
    · obtain ⟨l, z, w, hrun⟩ := Verified.exists_runs (Verified.new header j') rfl
      have hnew : Fronts f e (Verified.new header i').inner (Verified.new header j').inner := hend
      obtain ⟨v, hrun', hlast⟩ := (Verified.tears (tears f e)).runs ⟨hnew, rfl⟩ hrun
      rw [drainSession_of_runs hj hrun, drainSession_of_runs hi hrun', errors_ended, errors_ended]
      exact ⟨by cases z <;> rfl, hlast.imp_left And.left⟩
  · simp [drainSession, hi, hj, errors, hend]

/-- From a source that breaks a reader is told of the same errors as from the front of it, but that of an end that
comes too early it is told as the failure of the source. -/
theorem errors_of_breaks {s : Source} (hs : s.Breaks f e) (hp : s.pos ≤ f) (calls : Nat) :
    (drainSessions calls (new s)).flatMap errors =
      ((drainSessions calls (new (s.front f))).flatMap errors).map (retold (brokeWith e)) := by
  have hstart : Fronts f e (new s) (new (s.front f)) := ⟨⟨hs, hp, rfl⟩, rfl⟩
  -- a call leaves the inboxes alike until one is torn, and after that both have lost their place
  suffices hall : ∀ i j, Fronts f e i j ∨ Lost i j → (drainSessions calls i).flatMap errors =
      ((drainSessions calls j).flatMap errors).map (retold (brokeWith e)) from hall _ _ (.inl hstart)
  induction calls with
  | zero => exact fun _ _ _ => rfl
  | succ n ih =>
    intro i j h
    have hstep : errors i.drainSession.1 = (errors j.drainSession.1).map (retold (brokeWith e)) ∧
        (Fronts f e i.drainSession.2 j.drainSession.2 ∨ Lost i.drainSession.2 j.drainSession.2) := by
      rcases h with h | h
      · exact drainSession_of_fronts h
      · exact (drainSession_of_lost h).imp_right .inr
    simp only [drainSessions, List.flatMap_cons, List.map_append, hstep.1, ih _ _ hstep.2]

end Inbox
end ChunkRelay
