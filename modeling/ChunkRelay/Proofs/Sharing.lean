import ChunkRelay.Proofs.Reading
import ChunkRelay.Proofs.Signing

/-! Identities that are shared. A call makes all its edits and signs what comes of them, or leaves everything as it
was, so what is held at any time carries the signature of the last call that succeeded. -/
namespace ChunkRelay
namespace Identity

/-! Edits one after another. -/

/-- The key that an edit is about. -/
def Edit.key : Edit → String
  | .insert k _ => k
  | .remove k => k

/-- The value that an edit leaves its key with. -/
def Edit.value? : Edit → Option Bytes
  | .insert _ v => some v
  | .remove _ => none

theorem Edit.get?_apply (keys : KeyMap) (e : Edit) (k : String) :
    (e.apply keys).get? k = if k = e.key then e.value? else keys.get? k := by
  cases e with
  | insert k' v => exact SortedMap.get?_insert keys k' v k
  | remove k' => exact SortedMap.get?_erase keys k' k

/-- The keys after some edits. -/
def edited (keys : KeyMap) (edits : List Edit) : KeyMap := edits.foldl (fun m e => e.apply m) keys

/-- Of the edits of one key the last one counts. -/
theorem get?_edited (keys : KeyMap) (edits : List Edit) (k : String) :
    (edited keys edits).get? k = (edits.findRev? (·.key = k)).elim (keys.get? k) Edit.value? := by
  rw [List.findRev?_eq_find?_reverse]
  induction edits generalizing keys with
  | nil => rfl
  | cons e edits ih =>
    have hrest : edited keys (e :: edits) = edited (e.apply keys) edits := rfl
    rw [hrest, ih, List.reverse_cons, List.find?_append, Edit.get?_apply]
    cases edits.reverse.find? (·.key = k) with
    | some x => rfl
    | none => by_cases hk : e.key = k <;> simp [hk, Ne.symm]

variable {i : Identity}

theorem edit_eq (i : Identity) (e : Edit) : i.edit e =
    if e.key = reservedKey then .error (.reservedKey reservedKey) else .ok { i with keys := e.apply i.keys } := by
  cases e with
  | insert k v =>
    by_cases hk : k = reservedKey <;> simp [edit, insert, Edit.key, Edit.apply, Except.map, hk]
  | remove k =>
    by_cases hk : k = reservedKey <;> simp [edit, remove, Edit.key, Edit.apply, Except.map, hk]

/-- Edits are made up to the first one of the reserved key, which stops them. -/
theorem foldlM_edit (i : Identity) (edits : List Edit) : edits.foldlM edit i =
    if ∃ e ∈ edits, e.key = reservedKey then .error (.reservedKey reservedKey)
    else .ok { i with keys := edited i.keys edits } := by
  induction edits generalizing i with
  | nil => simp [edited, pure, Except.pure]
  | cons e edits ih =>
    rw [List.foldlM_cons, edit_eq]
    by_cases he : e.key = reservedKey
    · simp [he, bind, Except.bind]
    · simp [he, bind, Except.bind, ih, edited]

theorem sign_eq (i : Identity) (secret : Bytes) : i.sign secret =
    (Keypair.ofSecret secret).map fun k => { i with signature := some (k.sign i.signedPayload) } := by
  unfold sign signWith
  cases Keypair.ofSecret secret <;> rfl

/-! Calls. -/

/-- A call on a shared identity: edits with a new signature, or a new signature alone. -/
inductive Call where
  | update (secret : Bytes) (edits : List Edit)
  | sign (secret : Bytes)

namespace Call

def secret : Call → Bytes
  | .update secret _ => secret
  | .sign secret => secret

def edits : Call → List Edit
  | .update _ edits => edits
  | .sign _ => []

/-- What a call makes of an identity, if it succeeds. -/
def apply (i : Identity) : Call → Except PacketError Identity
  | .update secret edits => i.update secret edits
  | .sign secret => (i.sign secret).mapError .key

/-- What a call answers, and the identity that is held after it. -/
def run (i : Identity) (c : Call) : Except PacketError Unit × Identity :=
  match c.apply i with
  | .ok j => (.ok (), j)
  | .error x => (.error x, i)

/-- What a call may come to. -/
inductive Outcome (i : Identity) (c : Call) : Except PacketError Unit → Identity → Prop
  | reserved : (∃ e ∈ c.edits, e.key = reservedKey) →
      Outcome i c (.error (.policy (.reservedKey reservedKey))) i
  | keyless {x : KeyError} : (¬ ∃ e ∈ c.edits, e.key = reservedKey) → Keypair.ofSecret c.secret = .error x →
      Outcome i c (.error (.key x)) i
  | done {k : Keypair} {j : Identity} : (¬ ∃ e ∈ c.edits, e.key = reservedKey) → Keypair.ofSecret c.secret = .ok k →
      j.name = i.name → j.keys = edited i.keys c.edits → j.signature = some (k.sign j.signedPayload) →
      Outcome i c (.ok ()) j

theorem run_outcome (i : Identity) (c : Call) : Outcome i c (c.run i).1 (c.run i).2 := by
  cases c with
  | update secret edits =>
    by_cases h : ∃ e ∈ edits, e.key = reservedKey
    · simp only [run, apply, Identity.update, foldlM_edit, if_pos h]
      exact .reserved h
    · simp only [run, apply, Identity.update, foldlM_edit, if_neg h, sign_eq]
      cases hk : Keypair.ofSecret secret with
      | error x => exact .keyless h hk
      | ok k => exact .done h hk rfl rfl rfl
  | sign secret =>
    have h : ¬ ∃ e ∈ (Call.sign secret).edits, e.key = reservedKey := by simp [edits]
    simp only [run, apply, sign_eq]
    cases hk : Keypair.ofSecret secret with
    | error x => exact .keyless h hk
    | ok k => exact .done h hk rfl rfl rfl

variable {c : Call} {r : Except PacketError Unit} {j : Identity}

theorem Outcome.name_eq (h : Outcome i c r j) : j.name = i.name := by
  cases h with
  | reserved => rfl
  | keyless => rfl
  | done _ _ hname => exact hname

theorem Outcome.answer_eq (h : Outcome i c r j) : r =
    if ∃ e ∈ c.edits, e.key = reservedKey then .error (.policy (.reservedKey reservedKey))
    else ((Keypair.ofSecret c.secret).map fun _ => ()).mapError .key := by
  cases h with
  | reserved hr => rw [if_pos hr]
  | keyless hr hk =>
    rw [if_neg hr, hk]
    rfl
  | done hr hk =>
    rw [if_neg hr, hk]
    rfl

theorem Outcome.eq_of_error {x : PacketError} (h : Outcome i c (.error x) j) : j = i := by
  cases h <;> rfl

theorem Outcome.of_ok (h : Outcome i c (.ok ()) j) : j.keys = edited i.keys c.edits ∧
    ∃ k, Keypair.ofSecret c.secret = .ok k ∧ j.signature = some (k.sign j.signedPayload) := by
  cases h with
  | done _ hk _ hkeys hsignature => exact ⟨hkeys, _, hk, hsignature⟩

end Call

/-- A call with what it answered and the identity that is held after it. -/
structure Event where
  call : Call
  answer : Except PacketError Unit
  identity : Identity

def event (i : Identity) (c : Call) : Event := ⟨c, (c.run i).1, (c.run i).2⟩

def run : List Call → Identity → List Event
  | [], _ => []
  | c :: calls, i => i.event c :: run calls (c.run i).2

/-- What is held after some calls on `i`. -/
def held (i : Identity) (past : List Event) : Identity := (past.getLast?.map Event.identity).getD i

/-- The last of the calls that succeeded. -/
def Latest (past : List Event) (x : Event) : Prop :=
  ∃ older newer, past = older ++ x :: newer ∧ x.answer = .ok () ∧ ∀ y ∈ newer, y.answer ≠ .ok ()

/-- How a call on the shared identity `i` stands among those before it. -/
structure Settled (i : Identity) (before : List Event) (e : Event) : Prop where
  answer_eq : e.answer =
    if ∃ x ∈ e.call.edits, x.key = reservedKey then .error (.policy (.reservedKey reservedKey))
    else ((Keypair.ofSecret e.call.secret).map fun _ => ()).mapError .key
  failed : ∀ x, e.answer = .error x → e.identity = held i before
  name_eq : e.identity.name = i.name
  keys_eq : e.answer = .ok () → e.identity.keys = edited (held i before).keys e.call.edits
  /-- The last edit of a key decides on its value. -/
  get?_eq : e.answer = .ok () → ∀ k, e.identity.get? k =
    (e.call.edits.findRev? (·.key = k)).elim ((held i before).get? k) Edit.value?
  /-- What is held is signed with the secret of the last call that succeeded. -/
  signed : ∀ x, Latest (before ++ [e]) x → ∃ k, Keypair.ofSecret x.call.secret = .ok k ∧
    e.identity.signature = some (k.sign e.identity.signedPayload) ∧
    (Ed25519.verify k.publicKey e.identity.signedPayload (k.sign e.identity.signedPayload) = true →
      e.identity.verify k.publicKey = true)

/-- What past calls on `i` leave. -/
structure Leaves (i : Identity) (past : List Event) (j : Identity) : Prop where
  held_eq : held i past = j
  name_eq : j.name = i.name
  signed : ∀ x, Latest past x → ∃ k, Keypair.ofSecret x.call.secret = .ok k ∧
    j.signature = some (k.sign j.signedPayload)

variable {j : Identity} {past : List Event} {x e : Event}

theorem leaves_nil (i : Identity) : Leaves i [] i := by
  refine ⟨rfl, rfl, ?_⟩
  rintro x ⟨older, newer, hpast, -⟩
  simp at hpast

/-- The last call to succeed is the last one of all, if that succeeded, and else the last one before it. -/
theorem Latest.of_append (h : Latest (past ++ [e]) x) :
    (e.answer = .ok () ∧ x = e) ∨ ((∃ y, e.answer = .error y) ∧ Latest past x) := by
  obtain ⟨older, newer, hpast, hx, hnewer⟩ := h
  rcases List.eq_nil_or_concat newer with rfl | ⟨newer, y, rfl⟩
  · obtain ⟨-, he⟩ := List.append_inj' hpast rfl
    cases he
    exact .inl ⟨hx, rfl⟩
  · rw [List.concat_eq_append, ← List.cons_append, ← List.append_assoc] at hpast
    obtain ⟨rfl, he⟩ := List.append_inj' hpast rfl
    cases he
    have hfailed : ∃ z, e.answer = .error z := by
      cases he : e.answer with
      | error z => exact ⟨z, rfl⟩
      | ok u => exact absurd he (hnewer e (by simp))
    exact .inr ⟨hfailed, older, newer, rfl, hx, fun y hy => hnewer y (by simp [hy])⟩

theorem Leaves.step (h : Leaves i past j) (c : Call) : Leaves i (past ++ [j.event c]) (c.run j).2 := by
  have ho := c.run_outcome j
  refine ⟨by simp [held, event], ho.name_eq.trans h.name_eq, fun x hx => ?_⟩
  rcases hx.of_append with ⟨hok, rfl⟩ | ⟨⟨y, hfailed⟩, hlatest⟩
  · have hanswer : (c.run j).1 = .ok () := hok
    rw [hanswer] at ho
    exact ho.of_ok.2
  · have hanswer : (c.run j).1 = .error y := hfailed
    rw [hanswer] at ho
    rw [ho.eq_of_error]
    exact h.signed x hlatest

theorem Leaves.settled (h : Leaves i past j) (c : Call) : Settled i past (j.event c) := by
  have ho := c.run_outcome j
  have hnext := h.step c
  refine ⟨ho.answer_eq, fun y hy => ?_, hnext.name_eq, fun hok => ?_, fun hok k => ?_, fun x hx => ?_⟩
  · have hanswer : (c.run j).1 = .error y := hy
    rw [hanswer] at ho
    rw [h.held_eq]
    exact ho.eq_of_error
  · have hanswer : (c.run j).1 = .ok () := hok
    rw [hanswer] at ho
    rw [h.held_eq]
    exact ho.of_ok.1
  · have hanswer : (c.run j).1 = .ok () := hok
    rw [hanswer] at ho
    have hkeys : (j.event c).identity.keys = edited j.keys c.edits := ho.of_ok.1
    rw [h.held_eq, get?, hkeys, get?_edited]
    rfl
  · obtain ⟨k, hk, hsignature⟩ := hnext.signed x hx
    refine ⟨k, hk, hsignature, fun hverify => ?_⟩
    have hsig : (j.event c).identity.signature = some (k.sign (j.event c).identity.signedPayload) := hsignature
    rw [verify, hsig]
    exact hverify

/-- Every call on a shared identity is all or nothing, whatever it asks for and whatever calls come before it, and
what is held after it is signed with the secret of the last call that succeeded. -/
theorem run_settled (i : Identity) (calls : List Call) :
    Throughout (fun before e _ => Settled i before e) (run calls i) :=
  ⟨Throughout.at_each_of_steps run event (fun i c => (c.run i).2) (fun _ => rfl) (fun _ _ _ => rfl)
    (Leaves i) (fun before e _ => Settled i before e) Leaves.step (fun h c _ => h.settled c) (leaves_nil i) calls⟩

end Identity
end ChunkRelay
