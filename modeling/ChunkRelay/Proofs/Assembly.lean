import ChunkRelay.Proofs.PartFiles
import ChunkRelay.Proofs.Verification
import ChunkRelay.Transfer.Assembler

/-! The steps of assembly in terms of the run of a session: what is gathered, what a part file gets, and
what the session is left as. -/
namespace ChunkRelay

namespace FileStore

/-- Writing packets one by one comes to writing their content. -/
theorem foldl_writePart (l : List Sequence) (files : FileStore) (p : PartFile) :
    l.foldl (fun x q => x.2.writePart x.1 q.bytes) (p, files) = files.writePart p (Sequence.content l) := by
  induction l generalizing files p with
  | nil => simp [writePart_empty]
  | cons q l ih =>
    rw [List.foldl_cons, Sequence.content_cons, ← writePart_writePart]
    exact ih _ _

end FileStore

namespace Assembler

open PacketFeed

variable {σ : Type} [PacketFeed σ]

/-- Gathering takes the whole run if that stays within the limit, and else stops at the first packet that
goes over it. -/
theorem gather_of_runs {s s' : Session σ} {l : List Sequence} {e : Option TransferError}
    (hr : Runs s l e s') {limit : Nat} {acc : Bytes} (hacc : acc.size ≤ limit) {fuel : Nat}
    (hf : l.length < fuel) :
    ((acc ++ Sequence.content l).size ≤ limit ∧
      gather limit acc fuel s = (e.elim (.ok (.complete (acc ++ Sequence.content l))) .error, s')) ∨
    (limit < (acc ++ Sequence.content l).size ∧
      ∃ l₁ l₂ t, l = l₁ ++ l₂ ∧ Pulls s l₁ t ∧ Runs t l₂ e s' ∧
        gather limit acc fuel s = (.ok (.overflow (acc ++ Sequence.content l₁)), t)) := by
  induction l generalizing s acc fuel with
  | nil =>
    have hn : s.next = (e.map .error, s') := runs_nil_iff.mp hr
    cases fuel with
    | zero => cases hf
    | succ fuel =>
      refine .inl ⟨by simpa using hacc, ?_⟩
      cases e <;> simp [gather, hn]
  | cons p l ih =>
    obtain ⟨t, hn, hrest⟩ := runs_cons_iff.mp hr
    rw [Session.next_eq] at hn
    cases fuel with
    | zero => cases hf
    | succ fuel =>
      by_cases hover : limit < (acc ++ p.bytes).size
      · refine .inr ⟨?_, [p], l, t, rfl, .cons hn .nil, hrest, ?_⟩
        · simp only [Sequence.content_cons, ByteArray.size_append] at hover ⊢
          omega
        · have hone : Sequence.content [p] = p.bytes := by simp
          rw [gather, hn, hone]
          exact if_pos hover
      · have hstep : gather limit acc (fuel + 1) s = gather limit (acc ++ p.bytes) fuel t := by
          rw [gather, hn]
          exact if_neg hover
        rw [hstep, Sequence.content_cons, ← ByteArray.append_assoc]
        rcases ih hrest (Nat.le_of_not_lt hover) (Nat.lt_of_succ_lt_succ hf) with h | h
        · exact .inl h
        · obtain ⟨hlt, l₁, l₂, u, hl, hp, hr', hg⟩ := h
          refine .inr ⟨hlt, p :: l₁, l₂, u, by rw [hl, List.cons_append], .cons hn hp, hr', ?_⟩
          rw [hg, Sequence.content_cons, ByteArray.append_assoc]

/-- A part file gets its start and the content of the run, and is committed if the run ends without a
failure. -/
theorem writeFile_of_runs {s s' : Session σ} {l : List Sequence} {e : Option TransferError}
    (hr : Runs s l e s') (files : FileStore) (path : String) (start : Bytes) :
    writeFile files path start s =
      match files.createPart path with
      | (.error x, files) => (.error (.storage x), files, s)
      | (.ok part, files) =>
        match e, files.writePart part (start ++ Sequence.content l) with
        | some x, (part, files) => (.error x, files.dropPart part, s')
        | none, (part, files) =>
          match files.commit part with
          | (.error x, files) => (.error (.storage x), files, s')
          | (.ok c, files) => (.ok c, files, s') := by
  unfold writeFile
  rcases files.createPart path with ⟨x | part, files⟩
  · rfl
  · have hf := Session.length_lt_fuel hr
    simp only []
    rw [forEach_of_runs (g := fun x q => x.2.writePart x.1 q.bytes) (I := fun _ => True) ?_ hr trivial 0 hf,
      FileStore.foldl_writePart, FileStore.writePart_writePart]
    · cases e with
      | none => rfl
      | some x => rfl
    · intro q t x _
      exact ⟨rfl, trivial⟩

variable {δ : Type} [Datastore δ]

/-- A content is new if the datastore has neither its key nor its path. -/
theorem isKnown_eq_false {a b : Assembler δ} {k : Hash} {p : String} (h : a.isKnown k p = (.ok false, b)) :
    ∃ d d', Datastore.hasKey k a.store = (.ok false, d) ∧ Datastore.countPath p d = (.ok 0, d') ∧
      b = { a with store := d' } := by
  unfold isKnown at h
  split at h
  · cases h
  · cases h
  · rename_i d hkey
    split at h
    · cases h
    · rename_i n d' hcount
      obtain ⟨hok, rfl⟩ := Prod.mk.inj h
      obtain rfl : n = 0 := by simpa using hok
      exact ⟨d, d', hkey, hcount, rfl⟩

/-- What taking in a session may come to: the result, the assembler, and the state of the session. Of the
session, its header and its run count: the packets `l`, and then its end or the failure `e`. -/
inductive Takes (a : Assembler δ) (h : Header) (l : List Sequence) (e : Option TransferError) :
    Except TransferError Outcome → Assembler δ → SessionState → Prop
  | ending : h.endOfStream = true → Takes a h l e (e.elim (.ok .endOfStream) .error) a (.ofEnding e)
  | unanswered {x : TransferError} {b : Assembler δ} : h.endOfStream = false →
      a.isKnown h.contentKey (a.files.pathFor h) = (.error x, b) →
      Takes a h l e (.error x) b (.failed x.message)
  | known {b : Assembler δ} : h.endOfStream = false →
      a.isKnown h.contentKey (a.files.pathFor h) = (.ok true, b) →
      Takes a h l e (e.elim (.ok .duplicate) .error) b (.ofEnding e)
  | incomplete {x : TransferError} {b : Assembler δ} : h.endOfStream = false →
      a.isKnown h.contentKey (a.files.pathFor h) = (.ok false, b) → e = some x →
      h.toDisk = false → (Sequence.content l).size ≤ b.threshold →
      Takes a h l e (.error x) b (.failed x.message)
  | inline {b c : Assembler δ} {r : Except TransferError Outcome} : h.endOfStream = false →
      a.isKnown h.contentKey (a.files.pathFor h) = (.ok false, b) → e = none →
      h.toDisk = false → (Sequence.content l).size ≤ b.threshold →
      b.persistInline h (Sequence.content l) = (r, c) → Takes a h l e r c .completed
  | refused {b : Assembler δ} {x : StorageError} {files : FileStore} : h.endOfStream = false →
      a.isKnown h.contentKey (a.files.pathFor h) = (.ok false, b) →
      (h.toDisk = true ∨ b.threshold < (Sequence.content l).size) →
      b.files.createPart (a.files.pathFor h) = (.error x, files) →
      Takes a h l e (.error (.storage x)) { b with files } (.failed (TransferError.storage x).message)
  | cut {x : TransferError} {b : Assembler δ} {part : PartFile} {files : FileStore} :
      h.endOfStream = false → a.isKnown h.contentKey (a.files.pathFor h) = (.ok false, b) → e = some x →
      (h.toDisk = true ∨ b.threshold < (Sequence.content l).size) →
      b.files.createPart (a.files.pathFor h) = (.ok part, files) →
      Takes a h l e (.error x)
        { b with
          files := (files.writePart part (Sequence.content l)).2.dropPart
            (files.writePart part (Sequence.content l)).1 }
        (.failed x.message)
  | uncommitted {b : Assembler δ} {part : PartFile} {files files' : FileStore} {x : StorageError} :
      h.endOfStream = false → a.isKnown h.contentKey (a.files.pathFor h) = (.ok false, b) → e = none →
      (h.toDisk = true ∨ b.threshold < (Sequence.content l).size) →
      b.files.createPart (a.files.pathFor h) = (.ok part, files) →
      (files.writePart part (Sequence.content l)).2.commit
        (files.writePart part (Sequence.content l)).1 = (.error x, files') →
      Takes a h l e (.error (.storage x)) { b with files := files' } .completed
  | file {b c : Assembler δ} {part : PartFile} {files files' : FileStore} {w : Commit}
      {r : Except TransferError Outcome} :
      h.endOfStream = false → a.isKnown h.contentKey (a.files.pathFor h) = (.ok false, b) → e = none →
      (h.toDisk = true ∨ b.threshold < (Sequence.content l).size) →
      b.files.createPart (a.files.pathFor h) = (.ok part, files) →
      (files.writePart part (Sequence.content l)).2.commit
        (files.writePart part (Sequence.content l)).1 = (.ok w, files') →
      { b with files := files' }.persistFile h (a.files.pathFor h) w = (r, c) → Takes a h l e r c .completed

omit [PacketFeed σ]

/-- The session once its result is known. -/
def settled (s : Session σ) : Except TransferError Outcome → Session σ
  | .error e => s.fail e
  | .ok _ => s.abandon

theorem state_settled {s : Session σ} (hs : s.state ≠ .unfinished) (r : Except TransferError Outcome) :
    (settled s r).state = s.state := by
  cases r <;> simp [settled, Session.abandon, Session.state_fail, hs]

variable [PacketFeed σ]

theorem takes_storeFile {a b : Assembler δ} {h : Header} {l : List Sequence} {e : Option TransferError}
    (he : h.endOfStream = false) (hk : a.isKnown h.contentKey (a.files.pathFor h) = (.ok false, b))
    (hbig : h.toDisk = true ∨ b.threshold < (Sequence.content l).size) {t s' : Session σ}
    {m : List Sequence} (hr : Runs t m e s') (hh : s'.header = h)
    (ht : t.state = .unfinished) (hs' : s'.state = .ofEnding e) {start : Bytes}
    (hc : start ++ Sequence.content m = Sequence.content l) :
    ∀ r c u, b.storeFile (a.files.pathFor h) start t = (r, c, u) →
      Takes a h l e r c (settled u r).state := by
  intro r c u hstore
  unfold storeFile at hstore
  rw [writeFile_of_runs hr, hc] at hstore
  rcases hpart : b.files.createPart (a.files.pathFor h) with ⟨x | part, files⟩
  · simp only [hpart, Prod.mk.injEq] at hstore
    obtain ⟨rfl, rfl, rfl⟩ := hstore
    simp only [settled, Session.state_fail, ht, if_true]
    exact .refused he hk hbig hpart
  · cases e with
    | some x =>
      simp only [hpart, Prod.mk.injEq] at hstore
      obtain ⟨rfl, rfl, rfl⟩ := hstore
      rw [state_settled (by simp [hs', SessionState.ofEnding]), hs']
      exact .cut he hk rfl hbig hpart
    | none =>
      rcases hcommit : (files.writePart part (Sequence.content l)).2.commit
          (files.writePart part (Sequence.content l)).1 with ⟨x | w, files'⟩
      · simp only [hpart, hcommit, Prod.mk.injEq] at hstore
        obtain ⟨rfl, rfl, rfl⟩ := hstore
        rw [state_settled (by simp [hs', SessionState.ofEnding]), hs']
        exact .uncommitted he hk rfl hbig hpart hcommit
      · simp only [hpart, hcommit, hh, Prod.mk.injEq] at hstore
        obtain ⟨hr, hc, rfl⟩ := hstore
        rw [state_settled (by simp [hs', SessionState.ofEnding]), hs']
        exact .file he hk rfl hbig hpart hcommit (Prod.ext hr hc)

theorem takes_storeSession {a : Assembler δ} {h : Header} {packets : σ} {l : List Sequence}
    {e : Option TransferError} {v : Verified σ} (hr : Runs (Verified.new h packets) l e v)
    (he : h.endOfStream = false) (last : Bool) :
    ∀ r c u, a.storeSession (Session.withPackets h packets last) = (r, c, u) →
      Takes a h l e r c (settled u r).state := by
  intro r c u hstore
  have hs : Runs (Session.withPackets h packets last) l e ⟨h, v, last, .ofEnding e⟩ :=
    Session.runs_of_verified hr h last
  have hf := Session.length_lt_fuel hs
  have hsettled := SessionState.ofEnding_ne_unfinished e
  have hheader : (Session.withPackets h packets last).header = h := rfl
  simp only [storeSession, hheader] at hstore
  rcases hk : a.isKnown h.contentKey (a.files.pathFor h) with ⟨x | known, b⟩
  · simp only [hk, Prod.mk.injEq] at hstore
    obtain ⟨rfl, rfl, rfl⟩ := hstore
    exact .unanswered he hk
  · cases known with
    | true =>
      have hdrain := drain_of_runs hs hf
      have hknown := Takes.known (l := l) (e := e) he hk
      cases e <;> simp only [hk, hdrain, Option.elim, Prod.mk.injEq] at hstore <;>
        obtain ⟨rfl, rfl, rfl⟩ := hstore <;> rw [state_settled hsettled] <;> exact hknown
    | false =>
      by_cases hd : h.toDisk
      · simp only [hk, hd, if_true] at hstore
        exact takes_storeFile he hk (.inl hd) hs rfl rfl rfl (by simp) r c u hstore
      · simp only [hk, hd] at hstore
        have hzero : ByteArray.empty.size ≤ b.threshold := Nat.zero_le _
        rcases gather_of_runs hs hzero hf with
          ⟨hsize, hg⟩ | ⟨hsize, l₁, l₂, t, hl, hp, hr', hg⟩
        · rw [ByteArray.empty_append] at hsize hg
          have hd : h.toDisk = false := by simpa using hd
          cases e with
          | some x =>
            simp only [hg, Option.elim, Bool.false_eq_true, if_false, Prod.mk.injEq] at hstore
            obtain ⟨rfl, rfl, rfl⟩ := hstore
            rw [state_settled hsettled]
            exact .incomplete he hk rfl hd hsize
          | none =>
            simp only [hg, Option.elim, Bool.false_eq_true, if_false, Prod.mk.injEq] at hstore
            obtain ⟨hr, hc, rfl⟩ := hstore
            rw [state_settled hsettled]
            exact .inline he hk rfl hd hsize (Prod.ext hr hc)
        · rw [ByteArray.empty_append] at hsize hg
          simp only [hg, Bool.false_eq_true, if_false] at hstore
          have ht : t.state = .unfinished := Session.state_of_pulls hp
          have hc : (ByteArray.empty ++ Sequence.content l₁) ++ Sequence.content l₂ = Sequence.content l := by
            rw [hl, Sequence.content_append, ByteArray.empty_append]
          exact takes_storeFile he hk (.inr hsize) hr' rfl ht rfl hc r c u hstore

/-- Taking in a session comes to one of the things above, by the run of its packets. -/
theorem takes_assemble (a : Assembler δ) {h : Header} {packets : σ} {l : List Sequence}
    {e : Option TransferError} {v : Verified σ} (hr : Runs (Verified.new h packets) l e v) (last : Bool) :
    ∀ r c u, a.assemble (Session.withPackets h packets last) = (r, c, u) → Takes a h l e r c u.state := by
  intro r c u hass
  have hheader : (Session.withPackets h packets last).header = h := rfl
  simp only [assemble, hheader] at hass
  by_cases he : h.endOfStream
  · have hs : Runs (Session.withPackets h packets last) l e ⟨h, v, last, .ofEnding e⟩ :=
      Session.runs_of_verified hr h last
    have hdrain := drain_of_runs hs (Session.length_lt_fuel hs)
    have hending := Takes.ending (a := a) (l := l) (e := e) he
    cases e <;> simp only [he, if_true, hdrain, Option.elim, Prod.mk.injEq] at hass <;>
      obtain ⟨rfl, rfl, rfl⟩ := hass <;> exact hending
  · have hfalse : h.endOfStream = false := by simpa using he
    rcases hstore : a.storeSession (Session.withPackets h packets last) with ⟨x | o, b, s⟩
    · simp only [he, hstore] at hass
      obtain ⟨rfl, rfl, rfl⟩ := hass
      exact takes_storeSession hr hfalse last _ _ _ hstore
    · simp only [he, hstore] at hass
      obtain ⟨rfl, rfl, rfl⟩ := hass
      exact takes_storeSession hr hfalse last _ _ _ hstore

variable {a b c : Assembler δ} {h : Header} {packets : σ} {l : List Sequence} {v : Verified σ}
  {r : Except TransferError Outcome}

/-- A payload that is new and short goes into the datastore. -/
theorem assemble_inline (hr : Drains (Verified.new h packets) l v) (he : h.endOfStream = false)
    (hk : a.isKnown h.contentKey (a.files.pathFor h) = (.ok false, b)) (hdisk : h.toDisk = false)
    (hsize : (Sequence.content l).size ≤ b.threshold)
    (hp : b.persistInline h (Sequence.content l) = (r, c)) (last : Bool) :
    ∃ s, a.assemble (Session.withPackets h packets last) = (r, c, s) := by
  have hshort : ¬ (h.toDisk = true ∨ b.threshold < (Sequence.content l).size) := by
    simp [hdisk, Nat.not_lt.mpr hsize]
  rcases hass : a.assemble (Session.withPackets h packets last) with ⟨r', c', s⟩
  have ht := takes_assemble a hr last r' c' s hass
  generalize s.state = state at ht
  cases ht with
  | ending heos => exact absurd heos (by simp [he])
  | unanswered _ hk' => cases hk'.symm.trans hk
  | known _ hk' => cases hk'.symm.trans hk
  | incomplete _ _ hx => cases hx
  | inline _ hk' _ _ _ hp' =>
    cases hk'.symm.trans hk
    cases hp'.symm.trans hp
    exact ⟨s, rfl⟩
  | refused _ hk' hbig =>
    cases hk'.symm.trans hk
    exact absurd hbig hshort
  | cut _ _ hx => cases hx
  | uncommitted _ hk' _ hbig =>
    cases hk'.symm.trans hk
    exact absurd hbig hshort
  | file _ hk' _ hbig =>
    cases hk'.symm.trans hk
    exact absurd hbig hshort

/-- A payload that is new and long, or is wanted on disk, goes into a file and then into the datastore. -/
theorem assemble_file (hr : Drains (Verified.new h packets) l v) (he : h.endOfStream = false)
    (hk : a.isKnown h.contentKey (a.files.pathFor h) = (.ok false, b))
    (hbig : h.toDisk = true ∨ b.threshold < (Sequence.content l).size) {part : PartFile} {files files' : FileStore}
    (hpart : b.files.createPart (a.files.pathFor h) = (.ok part, files)) {w : Commit}
    (hcommit : (files.writePart part (Sequence.content l)).2.commit
      (files.writePart part (Sequence.content l)).1 = (.ok w, files'))
    (hp : { b with files := files' }.persistFile h (a.files.pathFor h) w = (r, c)) (last : Bool) :
    ∃ s, a.assemble (Session.withPackets h packets last) = (r, c, s) := by
  rcases hass : a.assemble (Session.withPackets h packets last) with ⟨r', c', s⟩
  have ht := takes_assemble a hr last r' c' s hass
  generalize s.state = state at ht
  cases ht with
  | ending heos => exact absurd heos (by simp [he])
  | unanswered _ hk' => cases hk'.symm.trans hk
  | known _ hk' => cases hk'.symm.trans hk
  | incomplete _ _ hx => cases hx
  | inline _ hk' _ hdisk hsize =>
    cases hk'.symm.trans hk
    exact absurd hbig (by simp [hdisk, Nat.not_lt.mpr hsize])
  | refused _ hk' _ hpart' =>
    cases hk'.symm.trans hk
    cases hpart'.symm.trans hpart
  | cut _ _ hx => cases hx
  | uncommitted _ hk' _ _ hpart' hcommit' =>
    cases hk'.symm.trans hk
    cases hpart'.symm.trans hpart
    cases hcommit'.symm.trans hcommit
  | file _ hk' _ _ hpart' hcommit' hp' =>
    cases hk'.symm.trans hk
    cases hpart'.symm.trans hpart
    cases hcommit'.symm.trans hcommit
    cases hp'.symm.trans hp
    exact ⟨s, rfl⟩

end Assembler
end ChunkRelay
