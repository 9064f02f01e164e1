import ChunkRelay.Proofs.Assembly
import ChunkRelay.Proofs.Integrity

/-! The state that a session is left in, against what became of it. A session is completed when its
packets have come to their end, and a failure that comes after that no longer shows in its state. -/
namespace ChunkRelay

open PacketFeed

namespace Assembler

variable {σ δ : Type} [PacketFeed σ] [Datastore δ]

/-- Whether the packets of a session are all pulled and right, so that no failure of theirs, of the look
at the datastore or of a part file that cannot be made keeps the session from its end. -/
def exhausts (a : Assembler δ) (h : Header) (packets : σ) : Bool :=
  match Verified.writeTo h packets Sink.empty, a.isKnown h.contentKey (a.files.pathFor h) with
  | (.ok n, _), (.ok known, b) =>
    known || (!h.toDisk && n ≤ b.threshold) || (b.files.createPart (a.files.pathFor h)).1.toBool
  | _, _ => false

theorem exhausts_of_runs {a : Assembler δ} {h : Header} {packets : σ} {l : List Sequence}
    {e : Option TransferError} {v : Verified σ} (hr : Runs (Verified.new h packets) l e v) :
    a.exhausts h packets = (e.isNone &&
      match a.isKnown h.contentKey (a.files.pathFor h) with
      | (.ok known, b) => known || (!h.toDisk && (Sequence.content l).size ≤ b.threshold) ||
        (b.files.createPart (a.files.pathFor h)).1.toBool
      | (.error _, _) => false) := by
  rw [exhausts, Verified.writeTo_of_runs hr ⟨rfl, rfl⟩]
  rcases a.isKnown h.contentKey (a.files.pathFor h) with ⟨x | known, b⟩ <;> cases e <;> rfl

/-- A session that is taken in is left completed if the result is good, and failed with the text of the
result if it is not, except where the failure comes after the packets' end: there it is left completed. -/
theorem state_assemble (a : Assembler δ) (h : Header) (packets : σ) :
    (a.assemble (Session.inbound h packets)).2.2.state =
      match (a.assemble (Session.inbound h packets)).1 with
      | .ok _ => .completed
      | .error e => if a.exhausts h packets then .completed else .failed e.message := by
  obtain ⟨l, e, v, hr⟩ := Verified.exists_runs (Verified.new h packets) rfl
  rw [exhausts_of_runs hr]
  rcases hass : a.assemble (Session.inbound h packets) with ⟨r, c, u⟩
  have htakes := takes_assemble a hr h.endOfStream r c u hass
  generalize u.state = state at htakes ⊢
  cases htakes with
  | ending he => cases e <;> rfl
  | unanswered he hk => simp [hk]
  | known he hk => cases e <;> rfl
  | incomplete he hk hx hd hsize => simp [hx]
  | inline he hk hx hd hsize hp => cases r <;> simp [hk, hx, hd, hsize]
  | @refused b x files he hk hbig hpart =>
    have hinline : (!h.toDisk && decide ((Sequence.content l).size ≤ b.threshold)) = false := by
      rcases hbig with hd | hlt
      · simp [hd]
      · simp [Nat.not_le.mpr hlt]
    simp [hk, hinline, hpart, Except.toBool]
  | cut he hk hx hbig hpart => simp [hx]
  | uncommitted he hk hx hbig hpart hcommit => simp [hk, hx, hpart, Except.toBool]
  | file he hk hx hbig hpart hcommit hp => cases r <;> simp [hk, hx, hpart, Except.toBool]

/-- A store that takes nothing: the transfer fails, and the session is completed all the same. -/
theorem completed_of_rejected :
    let a : Assembler ConstantStore :=
      ⟨⟨.ok 0, .ok false, .error "disk full"⟩, ⟨.ofWorkDir ⟨#["node"]⟩, "cache", "user", 0, 0⟩, 16⟩
    let h : Header := { Header.terminator with application := "chat", blockSize := 4, endOfStream := false }
    let taken := a.assemble (Session.inbound h ([] : List Delivery))
    taken.1 = .error (.datastore "disk full") ∧
      taken.2.2.state ≠ .failed (TransferError.datastore "disk full").message := by
  intro a h taken
  have hstate : taken.2.2.state = .completed := rfl
  refine ⟨rfl, ?_⟩
  rw [hstate]
  exact SessionState.noConfusion

end Assembler
end ChunkRelay
