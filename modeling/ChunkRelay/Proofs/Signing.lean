import ChunkRelay.Proofs.Parsing
import ChunkRelay.Proofs.Identities
import ChunkRelay.Proofs.Names
import Mathlib.Algebra.GroupWithZero.Nat

/-! What signatures cover. The parts of a header, and the name and the keys of an identity, are signed as one
string of bytes that does not tell where one part ends and the next begins. It settles the parts where their
sizes are known but for one; it does not where bytes move from one part to another. -/
namespace ChunkRelay
namespace Bytes

variable {l m : List Bytes}

/-- As many parts of the same sizes, except perhaps in one place. -/
inductive Aligned : List Bytes → List Bytes → Prop
  | nil : Aligned [] []
  | apart {a b : Bytes} {l m : List Bytes} : l.map ByteArray.size = m.map ByteArray.size → Aligned (a :: l) (b :: m)
  | cons {a b : Bytes} {l m : List Bytes} : a.size = b.size → Aligned l m → Aligned (a :: l) (b :: m)

theorem Aligned.refl (l : List Bytes) : Aligned l l := by
  cases l with
  | nil => exact .nil
  | cons a l => exact .apart rfl

theorem size_concat (l : List Bytes) : (concat l).size = (l.map ByteArray.size).sum := by
  induction l with
  | nil => rfl
  | cons b l ih => rw [concat_cons, ByteArray.size_append, ih, List.map_cons, List.sum_cons]

theorem eq_of_concat_eq (hs : l.map ByteArray.size = m.map ByteArray.size) (h : concat l = concat m) : l = m := by
  induction l generalizing m with
  | nil => exact (List.map_eq_nil_iff.mp hs.symm).symm
  | cons a l ih =>
    cases m with
    | nil => cases hs
    | cons b m =>
      obtain ⟨hsize, hs⟩ := List.cons.inj hs
      rw [concat_cons, concat_cons, ByteArray.append_eq_append_iff_of_size_eq_left hsize] at h
      rw [h.1, ih hs h.2]

/-- Parts are known by what they are together if their sizes are known, one of them apart. -/
theorem Aligned.eq_of_concat_eq (ha : Aligned l m) (h : concat l = concat m) : l = m := by
  induction ha with
  | nil => rfl
  | @apart a b l m hs =>
    have hsize := congrArg ByteArray.size h
    simp only [size_concat, List.map_cons, List.sum_cons, hs, Nat.add_right_cancel_iff] at hsize
    rw [concat_cons, concat_cons, ByteArray.append_eq_append_iff_of_size_eq_left hsize] at h
    rw [h.1, Bytes.eq_of_concat_eq hs h.2]
  | cons hsize _ ih =>
    rw [concat_cons, concat_cons, ByteArray.append_eq_append_iff_of_size_eq_left hsize] at h
    rw [h.1, ih h.2]

theorem eq_iff_aligned (h : concat l = concat m) : l = m ↔ Aligned l m :=
  ⟨fun he => he ▸ .refl l, fun ha => ha.eq_of_concat_eq h⟩

/-- What is together the same is the same, or has bytes moved between at least two of its parts. -/
theorem concat_eq_iff : concat l = concat m ↔ l = m ∨ concat l = concat m ∧ ¬ Aligned l m := by
  constructor
  · intro h
    by_cases ha : Aligned l m
    · exact .inl (ha.eq_of_concat_eq h)
    · exact .inr ⟨h, ha⟩
  · rintro (rfl | h)
    · rfl
    · exact h.1

end Bytes

namespace Ed25519

variable {key m m' sig : Bytes}

/-- One signature for two messages. -/
structure Forged (key m m' sig : Bytes) : Prop where
  ne : m ≠ m'
  verifies : verify key m sig = true
  verifies' : verify key m' sig = true

/-- A signature holds for what it was made for, and for anything else only as a forgery. -/
theorem verify_iff (h : verify key m sig = true) : verify key m' sig = true ↔ m = m' ∨ Forged key m m' sig := by
  constructor
  · intro h'
    by_cases hm : m = m'
    · exact .inl hm
    · exact .inr ⟨hm, h, h'⟩
  · rintro (rfl | hf)
    · exact h
    · exact hf.verifies'

end Ed25519

theorem Hash.concat_inj {l m : List Hash} (h : concat l = concat m) : l = m := by
  have hsizes (l : List Hash) : (l.map (·.bytes)).map ByteArray.size = List.replicate l.length 32 := by
    rw [List.map_map, List.eq_replicate_iff]
    refine ⟨by simp, fun n hn => ?_⟩
    obtain ⟨x, -, rfl⟩ := List.mem_map.mp hn
    exact x.size_eq
  have hlength : l.length = m.length := by
    have hsize := congrArg ByteArray.size h
    rw [Header.size_concat_hashes, Header.size_concat_hashes] at hsize
    omega
  have hbytes := Bytes.eq_of_concat_eq (by rw [hsizes, hsizes, hlength]) h
  exact (List.map_inj_right fun _ _ => Hash.ext).mp hbytes

theorem Record.flag_inj {a b : Bool} (h : flag a = flag b) : a = b := by
  revert h
  cases a <;> cases b <;> decide

theorem Fingerprint.toWire_inj {fp fp' : Option String} (h : check fp = .ok ()) (h' : check fp' = .ok ())
    (he : toWire fp = toWire fp') : fp = fp' := by
  have hfp := ofWire_toWire h
  rw [he, ofWire_toWire h'] at hfp
  exact (Except.ok.inj hfp).symm

namespace Header

/-- What a signature is made for. -/
structure Signed where
  sender : Option String
  recipient : Option String
  application : String
  extension : String
  mime : String
  filename : String
  toDisk : Bool
  hashes : List Hash
  deriving DecidableEq

def Signed.parts (s : Signed) : List Bytes :=
  [Fingerprint.toWire s.sender, Fingerprint.toWire s.recipient, s.application.toUTF8, s.extension.toUTF8,
    s.mime.toUTF8, s.filename.toUTF8, Record.flag s.toDisk, Hash.concat s.hashes]

def signed (h : Header) : Signed :=
  ⟨h.sender, h.recipient, h.application, h.extension, h.mime, h.filename, h.toDisk, h.hashes⟩

/-- Whether the header goes with this signature. -/
def accepts (h : Header) (key sig : Bytes) : Bool := ({ h with signature := some sig } : Header).verify key

theorem accepts_eq (h : Header) (key sig : Bytes) : h.accepts key sig = Ed25519.verify key h.signedPayload sig := rfl

theorem signedPayload_eq (h : Header) : h.signedPayload = Bytes.concat h.signed.parts := rfl

/-- `k` is `h` with one field changed that a signature is made for. -/
inductive Rewritten (h : Header) : Header → Prop
  | sender (fp : Option String) : Rewritten h { h with sender := fp }
  | recipient (fp : Option String) : Rewritten h { h with recipient := fp }
  | application (name : String) : Rewritten h { h with application := name }
  | extension (ext : String) : Rewritten h { h with extension := ext }
  | mime (mime : String) : Rewritten h { h with mime := mime }
  | userFilename (name : Option String) : Rewritten h { h with userFilename := name }
  | toDisk (flag : Bool) : Rewritten h { h with toDisk := flag }
  | hashes (hashes : List Hash) : Rewritten h { h with hashes := hashes }

variable {h k : Header}

theorem Made.parts_inj (hh : h.Made) (hk : k.Made) : h.signed.parts = k.signed.parts ↔ h.signed = k.signed := by
  refine ⟨fun he => ?_, fun he => by rw [he]⟩
  simp only [Signed.parts, List.cons.injEq, and_true] at he
  obtain ⟨hsender, hrecipient, happlication, hextension, hmime, hfilename, hflag, hhashes⟩ := he
  have htext {s t : String} (hst : s.toUTF8 = t.toUTF8) : s = t := String.toByteArray_inj.mp hst
  have hdisk : h.toDisk = k.toDisk := Record.flag_inj hflag
  simp only [Header.signed, Signed.mk.injEq]
  exact ⟨Fingerprint.toWire_inj hh.sound.sender_ok hk.sound.sender_ok hsender,
    Fingerprint.toWire_inj hh.sound.recipient_ok hk.sound.recipient_ok hrecipient, htext happlication,
    htext hextension, htext hmime, htext hfilename, hdisk, Hash.concat_inj hhashes⟩

/-- A name that is made of the content is as long whatever the content is. -/
theorem size_storageName (h : Header) : h.storageName.toUTF8.size =
    if h.endOfStream then 0 else if h.extension.toUTF8.size = 0 then 64 else 65 + h.extension.toUTF8.size := by
  have hkey : h.contentKey.toHex.utf8ByteSize = 64 := by
    rw [Hash.toHex, Bytes.utf8ByteSize_toHex, h.contentKey.size_eq]
  have hdot : ".".utf8ByteSize = 1 := rfl
  simp only [String.toUTF8_eq_toByteArray, String.size_toByteArray, String.utf8ByteSize_eq_zero_iff, storageName]
  split
  · rfl
  split
  · exact hkey
  · simp only [String.utf8ByteSize_append, hkey, hdot]

theorem size_filename (h : Header) : h.filename.toUTF8.size =
    match h.userFilename with
    | some name => name.toUTF8.size
    | none =>
      if h.endOfStream then 0 else if h.extension.toUTF8.size = 0 then 64 else 65 + h.extension.toUTF8.size := by
  unfold filename
  cases h.userFilename with
  | some name => rfl
  | none => exact h.size_storageName

/-- The extension stands in the name as well, and there too it grows and shrinks. -/
theorem aligned_of_extension (h : Header) (ext : String)
    (he : h.signedPayload = ({ h with extension := ext } : Header).signedPayload) :
    Bytes.Aligned h.signed.parts ({ h with extension := ext } : Header).signed.parts := by
  have hsize := congrArg ByteArray.size he
  simp only [signedPayload_eq, Bytes.size_concat, Signed.parts, signed, size_filename, List.map_cons, List.sum_cons]
    at hsize
  have hext : h.extension.toUTF8.size = ext.toUTF8.size := by
    cases hu : h.userFilename with
    | some name =>
      simp only [hu] at hsize
      omega
    | none =>
      simp only [hu] at hsize
      split at hsize
      · omega
      · split at hsize <;> split at hsize <;> omega
  have hname : h.filename.toUTF8.size = ({ h with extension := ext } : Header).filename.toUTF8.size := by
    simp only [size_filename, hext]
  exact .cons rfl (.cons rfl (.cons rfl (.cons hext (.cons rfl (.cons hname (.apart rfl))))))

theorem Rewritten.aligned (hr : Rewritten h k) (he : h.signedPayload = k.signedPayload) :
    Bytes.Aligned h.signed.parts k.signed.parts := by
  cases hr with
  | sender => exact .apart rfl
  | recipient => exact .cons rfl (.apart rfl)
  | application => exact .cons rfl (.cons rfl (.apart rfl))
  | extension ext => exact aligned_of_extension h ext he
  | mime => exact .cons rfl (.cons rfl (.cons rfl (.cons rfl (.apart rfl))))
  | userFilename => exact .cons rfl (.cons rfl (.cons rfl (.cons rfl (.cons rfl (.apart rfl)))))
  | toDisk => exact .cons rfl (.cons rfl (.cons rfl (.cons rfl (.cons rfl (.cons rfl (.apart rfl))))))
  | hashes hashes =>
    have hname : h.filename.toUTF8.size = ({ h with hashes } : Header).filename.toUTF8.size := by
      rw [size_filename, size_filename]
    exact .cons rfl (.cons rfl (.cons rfl (.cons rfl (.cons rfl (.cons hname (.cons rfl (.apart rfl)))))))

/-- A signature that goes with one header goes with another one if that says the same, if bytes have moved
between at least two of its parts, or if the signature is a forgery. Where one field is rewritten, no bytes
can have moved. -/
theorem Made.signature_binds_fields (hh : h.Made) (hk : k.Made) :
    (h.signedPayload = k.signedPayload → (h.signed = k.signed ↔ Bytes.Aligned h.signed.parts k.signed.parts)) ∧
    ∀ key sig, h.accepts key sig = true →
      (k.accepts key sig = true ↔
        (h.signed = k.signed ∨
          h.signedPayload = k.signedPayload ∧ ¬ Bytes.Aligned h.signed.parts k.signed.parts) ∨
        Ed25519.Forged key h.signedPayload k.signedPayload sig) ∧
      (Rewritten h k → (k.accepts key sig = true ↔
        h.signed = k.signed ∨ Ed25519.Forged key h.signedPayload k.signedPayload sig)) := by
  have hparts := hh.parts_inj hk
  have hpayload : h.signedPayload = k.signedPayload ↔ h.signed = k.signed ∨
      h.signedPayload = k.signedPayload ∧ ¬ Bytes.Aligned h.signed.parts k.signed.parts := by
    rw [← hparts]
    exact Bytes.concat_eq_iff
  refine ⟨fun he => hparts.symm.trans (Bytes.eq_iff_aligned he), fun key sig hsig => ⟨?_, fun hr => ?_⟩⟩
  · rw [← hpayload]
    exact Ed25519.verify_iff hsig
  · have hsame : h.signedPayload = k.signedPayload ↔ h.signed = k.signed :=
      ⟨fun he => hparts.mp ((hr.aligned he).eq_of_concat_eq he), fun he => hpayload.mpr (.inl he)⟩
    rw [← hsame]
    exact Ed25519.verify_iff hsig

/-- A note with a file name of its own. -/
def note : Draft where
  sender := some "me"
  application := some "mail"
  extension := some "txt"
  userFilename := some "note"
  blockSize := some 128

/-- The note, sent as it is and to be kept in a file. -/
theorem signature_binds_note :
    let h := note.header
    let k := ({ note with toDisk := true } : Draft).header
    h.Made ∧ k.Made ∧
    (h.signedPayload = k.signedPayload → (h.signed = k.signed ↔ Bytes.Aligned h.signed.parts k.signed.parts)) ∧
    ∀ key sig, h.accepts key sig = true →
      (k.accepts key sig = true ↔
        (h.signed = k.signed ∨
          h.signedPayload = k.signedPayload ∧ ¬ Bytes.Aligned h.signed.parts k.signed.parts) ∨
        Ed25519.Forged key h.signedPayload k.signedPayload sig) ∧
      (Rewritten h k → (k.accepts key sig = true ↔
        h.signed = k.signed ∨ Ed25519.Forged key h.signedPayload k.signedPayload sig)) := by
  intro h k
  have hh : h.Made := .built (d := note) rfl
  have hk : k.Made := .built (d := { note with toDisk := true }) rfl
  exact ⟨hh, hk, hh.signature_binds_fields hk⟩

/-- With a letter of the extension moved to the application, every signature of the note still holds. -/
theorem accepts_of_moved_letter :
    ∃ h k, build note = .ok h ∧ build { note with application := some "mailt", extension := some "xt" } = .ok k ∧
      h.application ≠ k.application ∧ h.extension ≠ k.extension ∧
      ∀ key sig, k.accepts key sig = h.accepts key sig := by
  have hpayload : ({ note with application := some "mailt", extension := some "xt" } : Draft).header.signedPayload =
      note.header.signedPayload := by decide
  refine ⟨note.header, _, rfl, rfl, by decide, by decide, fun key sig => ?_⟩
  rw [accepts_eq, accepts_eq]
  exact congrArg (Ed25519.verify key · sig) hpayload

end Header

/-! Keys as they are signed. -/
namespace KeyMap

def parts (m : KeyMap) : List Bytes := m.entries.flatMap fun a => [a.1.toUTF8, a.2]

/-- The keys that say something in a signature: all but an empty one with an empty value. -/
def telling (m : KeyMap) : KeyMap := ⟨m.entries.filter (· ≠ ("", ByteArray.empty)), m.sorted.filter _⟩

variable {m : KeyMap} {k : String} {v : Bytes}

theorem parts_inj {n : KeyMap} : parts m = parts n ↔ m = n := by
  refine ⟨fun h => SortedMap.ext ?_, fun h => by rw [h]⟩
  unfold parts at h
  generalize m.entries = l at h
  generalize n.entries = l' at h
  induction l generalizing l' with
  | nil =>
    cases l' with
    | nil => rfl
    | cons b l' => cases h
  | cons a l ih =>
    cases l' with
    | nil => cases h
    | cons b l' =>
      simp only [List.flatMap_cons, List.cons_append, List.nil_append, List.cons.injEq] at h
      rw [Prod.ext (String.toByteArray_inj.mp h.1) h.2.1, ih l' h.2.2]

theorem concat_telling (m : KeyMap) : Bytes.concat (parts (telling m)) = Bytes.concat (parts m) := by
  unfold parts telling
  simp only
  generalize m.entries = l
  induction l with
  | nil => rfl
  | cons a l ih =>
    by_cases ha : a = ("", ByteArray.empty)
    · rw [List.filter_cons_of_neg (by simpa using ha), ih, ha, List.flatMap_cons, Bytes.concat_append]
      have hnone : Bytes.concat ["".toUTF8, ByteArray.empty] = ByteArray.empty := rfl
      rw [hnone, ByteArray.empty_append]
    · rw [List.filter_cons_of_pos (by simpa using ha)]
      simp only [List.flatMap_cons, Bytes.concat_append, ih]

theorem size_concat_parts (m : KeyMap) :
    (Bytes.concat (parts m)).size = (m.entries.map fun a => a.1.toUTF8.size + a.2.size).sum := by
  unfold parts
  induction m.entries with
  | nil => rfl
  | cons a l ih =>
    simp only [List.flatMap_cons, Bytes.concat_append, Bytes.concat_cons, Bytes.concat_nil, ByteArray.append_empty,
      ByteArray.size_append, ih, List.map_cons, List.sum_cons]

theorem size_concat_insert (h : m.get? k = none) (v : Bytes) :
    (Bytes.concat (parts (m.insert k v))).size = k.toUTF8.size + v.size + (Bytes.concat (parts m)).size := by
  rw [size_concat_parts, size_concat_parts, ((SortedMap.perm_insert h v).map _).sum_nat, List.map_cons, List.sum_cons]

theorem telling_insert_empty (h : m.get? "" = none) : telling (m.insert "" ByteArray.empty) = telling m := by
  have hne : ∀ a ∈ m.entries, a.1 ≠ "" := by
    rintro ⟨k, v⟩ ha rfl
    rw [SortedMap.get?_eq_some_iff.mpr ha] at h
    cases h
  refine SortedMap.ext_mem fun a => ?_
  simp only [telling, SortedMap.insert, List.mem_filter, SortedMap.mem_insertEntry_iff m.sorted, decide_eq_true_eq]
  constructor
  · rintro ⟨hempty | ⟨ha, -⟩, htelling⟩
    · exact absurd hempty htelling
    · exact ⟨ha, htelling⟩
  · rintro ⟨ha, htelling⟩
    exact ⟨.inr ⟨ha, hne a ha⟩, htelling⟩

/-- A new key is not seen in a signature exactly if it says nothing. -/
theorem telling_eq_of_new (h : m.get? k = none) (he : Bytes.concat (parts (m.insert k v)) = Bytes.concat (parts m)) :
    telling (m.insert k v) = telling m := by
  have hsize := congrArg ByteArray.size he
  rw [size_concat_insert h] at hsize
  obtain rfl : k = "" := String.utf8ByteSize_eq_zero_iff.mp (by omega : k.toUTF8.size = 0)
  obtain rfl : v = ByteArray.empty := ByteArray.size_eq_zero_iff.mp (by omega)
  exact telling_insert_empty h

theorem telling_insert (he : Bytes.concat (parts (m.insert k v)) = Bytes.concat (parts m)) :
    telling (m.insert k v) = telling m := by
  cases hk : m.get? k with
  | none => exact telling_eq_of_new hk he
  | some w =>
    obtain ⟨pre, post, hm, hinsert⟩ := SortedMap.exists_insert_of_get? hk v
    simp only [parts, hm, hinsert, List.flatMap_append, List.flatMap_cons, Bytes.concat_append, Bytes.concat_cons,
      Bytes.concat_nil, ByteArray.append_empty, ByteArray.append_right_inj, ByteArray.append_left_inj] at he
    rw [he, SortedMap.insert_of_get? hk]

theorem telling_erase (he : Bytes.concat (parts (m.erase k)) = Bytes.concat (parts m)) :
    telling (m.erase k) = telling m := by
  cases hk : m.get? k with
  | none => rw [SortedMap.erase_of_get? hk]
  | some w =>
    have hnew : (m.erase k).get? k = none := by rw [SortedMap.get?_erase, if_pos rfl]
    have hinsert := SortedMap.insert_erase hk
    have htelling := telling_eq_of_new (v := w) hnew (by rw [hinsert, he])
    rw [← htelling, hinsert]

end KeyMap

namespace Identity

variable {i j : Identity}

def signedParts (i : Identity) : List Bytes := i.name.toUTF8 :: KeyMap.parts i.keys

/-- Whether the identity goes with this signature. -/
def accepts (i : Identity) (key sig : Bytes) : Bool := ({ i with signature := some sig } : Identity).verify key

theorem accepts_eq (i : Identity) (key sig : Bytes) : i.accepts key sig = Ed25519.verify key i.signedPayload sig := rfl

theorem signedPayload_eq (i : Identity) : i.signedPayload = Bytes.concat i.signedParts := by
  rw [signedParts, Bytes.concat_cons, signedPayload, KeyMap.parts]

theorem signedParts_inj : i.signedParts = j.signedParts ↔ i.name = j.name ∧ i.keys = j.keys := by
  rw [signedParts, signedParts, List.cons.injEq, KeyMap.parts_inj]
  exact and_congr_left fun _ => String.toByteArray_inj

/-- The name and the keys that a signature can tell. -/
def telling (i : Identity) : String × KeyMap := (i.name, KeyMap.telling i.keys)

theorem signedPayload_eq_append (i : Identity) : i.signedPayload = i.name.toUTF8 ++ Bytes.concat (KeyMap.parts i.keys) :=
  rfl

theorem signedPayload_of_telling (h : i.telling = j.telling) : i.signedPayload = j.signedPayload := by
  obtain ⟨hname, hkeys⟩ := Prod.mk.inj h
  rw [signedPayload_eq_append, signedPayload_eq_append, hname, ← KeyMap.concat_telling, hkeys, KeyMap.concat_telling]

/-- The keys after a change. -/
def Edit.apply (keys : KeyMap) : Edit → KeyMap
  | .insert k v => keys.insert k v
  | .remove k => keys.erase k

theorem eq_of_edit {e : Edit} (h : i.edit e = .ok j) : j = { i with keys := e.apply i.keys } := by
  cases e with
  | insert k v =>
    cases hr : i.insert k v with
    | error e => simp [edit, hr, Except.map] at h
    | ok r =>
      obtain ⟨-, rfl⟩ := insert_eq_ok_iff.mp hr
      rw [edit, hr] at h
      exact (Except.ok.inj h).symm
  | remove k =>
    cases hr : i.remove k with
    | error e => simp [edit, hr, Except.map] at h
    | ok r =>
      obtain ⟨-, rfl⟩ := remove_eq_ok_iff.mp hr
      rw [edit, hr] at h
      exact (Except.ok.inj h).symm

/-- One change to the keys is seen in a signature, unless it says nothing. -/
theorem signedPayload_edit {e : Edit} (h : i.edit e = .ok j) :
    i.signedPayload = j.signedPayload ↔ i.telling = j.telling := by
  refine ⟨fun he => ?_, signedPayload_of_telling⟩
  obtain rfl := eq_of_edit h
  have hparts := (ByteArray.append_right_inj _).mp he.symm
  have htelling : KeyMap.telling (e.apply i.keys) = KeyMap.telling i.keys := by
    cases e with
    | insert k v => exact KeyMap.telling_insert hparts
    | remove k => exact KeyMap.telling_erase hparts
  exact congrArg (i.name, ·) htelling.symm

theorem signedPayload_eq_iff : i.signedPayload = j.signedPayload ↔
    (i.name = j.name ∧ i.keys = j.keys) ∨
      i.signedPayload = j.signedPayload ∧ ¬ Bytes.Aligned i.signedParts j.signedParts := by
  rw [← signedParts_inj, signedPayload_eq, signedPayload_eq]
  exact Bytes.concat_eq_iff

/-- A signature that goes with one identity goes with another one if that has the same name and keys, if bytes
have moved between at least two of its parts, or if the signature is a forgery. Where the name is rewritten or
one key is changed, no bytes can have moved, and all that passes unseen is an empty key with an empty value. -/
theorem signature_binds_keys (i j : Identity) :
    (i.signedPayload = j.signedPayload →
      (i.name = j.name ∧ i.keys = j.keys ↔ Bytes.Aligned i.signedParts j.signedParts)) ∧
    ∀ key sig, i.accepts key sig = true →
      (j.accepts key sig = true ↔
        ((i.name = j.name ∧ i.keys = j.keys) ∨
          i.signedPayload = j.signedPayload ∧ ¬ Bytes.Aligned i.signedParts j.signedParts) ∨
        Ed25519.Forged key i.signedPayload j.signedPayload sig) ∧
      (i.keys = j.keys → (j.accepts key sig = true ↔
        i.name = j.name ∨ Ed25519.Forged key i.signedPayload j.signedPayload sig)) ∧
      ∀ e, i.edit e = .ok j → (j.accepts key sig = true ↔
        i.telling = j.telling ∨ Ed25519.Forged key i.signedPayload j.signedPayload sig) := by
  refine ⟨fun he => ?_, fun key sig hsig => ⟨?_, fun hkeys => ?_, fun e he => ?_⟩⟩
  · rw [signedPayload_eq, signedPayload_eq] at he
    exact signedParts_inj.symm.trans (Bytes.eq_iff_aligned he)
  · rw [← signedPayload_eq_iff]
    exact Ed25519.verify_iff hsig
  · have hname : i.signedPayload = j.signedPayload ↔ i.name = j.name := by
      rw [signedPayload_eq_append, signedPayload_eq_append, hkeys, ByteArray.append_left_inj]
      exact String.toByteArray_inj
    rw [← hname]
    exact Ed25519.verify_iff hsig
  · rw [← signedPayload_edit he]
    exact Ed25519.verify_iff hsig

/-- With the first byte of a value moved to the end of its key, every signature of an identity still holds. -/
theorem accepts_of_moved_byte :
    ∃ i j, Made i ∧ [.remove "a", .insert "ab" ⟨#[99]⟩].foldlM edit i = .ok j ∧ i.keys ≠ j.keys ∧
      i.signedPayload = j.signedPayload ∧ ∀ key sig, j.accepts key sig = i.accepts key sig := by
  let publicKey : Bytes := ⟨Array.replicate 32 0⟩
  let bare : Identity := ⟨"bob", SortedMap.empty.insert reservedKey publicKey, none⟩
  let i : Identity := { bare with keys := bare.keys.insert "a" ⟨#[98, 99]⟩ }
  let j : Identity := { bare with keys := (i.keys.erase "a").insert "ab" ⟨#[99]⟩ }
  have hbare : Made bare := Made.created (show Identity.new "bob" publicKey = .ok bare from rfl)
  have hi : Made i := hbare.inserted (k := "a") (v := ⟨#[98, 99]⟩) rfl
  have hpayload : i.signedPayload = j.signedPayload := by decide
  refine ⟨i, j, hi, rfl, by decide, hpayload, fun key sig => ?_⟩
  rw [accepts_eq, accepts_eq, hpayload]

end Identity
end ChunkRelay
