import ChunkRelay.Packet
import ChunkRelay.Proofs.Codec

/-! Headers and chunks as packets. Whatever a header was built from or sent as, decoding its encoding
gives the same header again, as long as it is in canonical form. -/
namespace ChunkRelay

/-! Extensions. -/

theorem dropWhile_eq_self {α : Type} {q : α → Bool} {l : List α} (h : ∀ a, l.head? = some a → q a = false) :
    l.dropWhile q = l := by
  cases l with
  | nil => rfl
  | cons a l => simp [h a rfl]

theorem head?_dropWhile {α : Type} {q : α → Bool} {l : List α} {a : α}
    (h : (l.dropWhile q).head? = some a) : q a = false := by
  have hn := List.head?_dropWhile_not q l
  rw [h] at hn
  exact hn

/-- What is first once both ends of a list are trimmed is not trimmed. -/
theorem head?_trim {α : Type} {q : α → Bool} {l : List α} {a : α}
    (h : ((l.dropWhile q).reverse.dropWhile q).reverse.head? = some a) : q a = false := by
  have hp : ((l.dropWhile q).reverse.dropWhile q).reverse <+: l.dropWhile q := by
    rw [← List.reverse_suffix, List.reverse_reverse]
    exact List.dropWhile_suffix q
  obtain ⟨t, ht⟩ := hp
  refine head?_dropWhile (l := l) ?_
  rw [← ht, List.head?_append, h]
  rfl

/-- Once both ends of a list are trimmed, there is nothing left to trim. -/
theorem trim_trim {α : Type} (q : α → Bool) (l : List α) :
    ((((l.dropWhile q).reverse.dropWhile q).reverse.dropWhile q).reverse.dropWhile q).reverse =
      ((l.dropWhile q).reverse.dropWhile q).reverse := by
  have hfront : (((l.dropWhile q).reverse.dropWhile q).reverse.dropWhile q) =
      ((l.dropWhile q).reverse.dropWhile q).reverse := dropWhile_eq_self fun a ha => head?_trim ha
  rw [hfront, List.reverse_reverse, dropWhile_eq_self fun a ha => head?_dropWhile ha]

theorem cleanExtension_cleanExtension (ext : String) :
    cleanExtension (cleanExtension ext) = cleanExtension ext := by
  have hfilter : ∀ l m : List Char, l <:+: m.filter (fun c => c.isAlphanum || c = '-' || c = '_' || c = '.') →
      l.filter (fun c => c.isAlphanum || c = '-' || c = '_' || c = '.') = l := by
    intro l m h
    rw [List.filter_eq_self]
    intro c hc
    exact (List.mem_filter.mp (h.subset hc)).2
  simp only [cleanExtension, String.toList_ofList]
  rw [hfilter _ ext.toList, trim_trim]
  refine List.IsInfix.trans (List.IsPrefix.isInfix ?_) (List.dropWhile_suffix (· = '.')).isInfix
  rw [← List.reverse_suffix, List.reverse_reverse]
  exact List.dropWhile_suffix _

/-! Fingerprints. -/

theorem Fingerprint.ofWire_toWire {fp : Option String} (h : check fp = .ok ()) : ofWire (toWire fp) = .ok fp := by
  cases fp with
  | none => rfl
  | some s =>
    have hne : s ≠ "" := by
      rintro rfl
      cases h
    have hsize : s.toUTF8.size ≠ 0 := fun h0 => hne (String.utf8ByteSize_eq_zero_iff.mp h0)
    have hsentinel : s.toUTF8 ≠ sentinel := by
      intro hs
      rw [check, if_neg hne, if_pos hs] at h
      cases h
    rw [toWire, ofWire, if_neg hsentinel, if_neg hsize, Utf8.fromUTF8?_toUTF8]

namespace Header

/-- A header that decoding takes as it is: its fingerprints, its signature and its texts are not ones
that stand for something else, and it keeps the rules. -/
structure Canonical (h : Header) : Prop where
  recipient_ok : Fingerprint.check h.recipient = .ok ()
  sender_ok : Fingerprint.check h.sender = .ok ()
  signature_ne : h.signature ≠ some ByteArray.empty
  mime_ne : h.mime ≠ ""
  extension_clean : cleanExtension h.extension = h.extension
  valid : h.validate = .ok ()

theorem canonical_terminator : terminator.Canonical where
  recipient_ok := rfl
  sender_ok := rfl
  signature_ne := by decide
  mime_ne := by decide
  extension_clean := rfl
  valid := rfl

/-- The rules for headers that are no end of stream. -/
theorem validate_eq_ok_iff {h : Header} (he : h.endOfStream = false) :
    h.validate = .ok () ↔ h.blockSize ≠ 0 ∧ ¬ maxBlockSize < h.blockSize ∧ h.application ≠ "" ∧
      ¬ (h.signature.isSome ∧ h.sender = none) := by
  unfold validate
  rw [if_neg (by simp [he])]
  by_cases hzero : h.blockSize = 0
  · simp [hzero]
  · by_cases hlarge : maxBlockSize < h.blockSize
    · simp [hzero, hlarge]
    · by_cases happlication : h.application = ""
      · simp [hzero, hlarge, happlication]
      · by_cases hsigned : h.signature.isSome ∧ h.sender = none
        · simp [hzero, hlarge, happlication, hsigned]
        · simp [hzero, hlarge, happlication, hsigned]

/-- The header that a draft describes, with its defaults filled in. -/
def Draft.header (d : Draft) : Header where
  recipient := d.recipient
  sender := d.sender
  application := d.application.getD ""
  signature := d.signature
  sessionId := d.sessionId
  blockSize := d.blockSize.getD 0
  mime := d.mime.getD defaultMime
  extension := (d.extension.map cleanExtension).getD ""
  userFilename := d.userFilename
  toDisk := d.toDisk
  endOfStream := d.endOfStream
  hashes := d.hashes

theorem of_build {d : Draft} {h : Header} (hb : build d = .ok h) :
    h = d.header ∧ Fingerprint.check d.recipient = .ok () ∧ Fingerprint.check d.sender = .ok () ∧
      d.header.validate = .ok () := by
  simp only [build, bind, Except.bind] at hb
  cases hr : Fingerprint.check d.recipient with
  | error e => simp [hr] at hb
  | ok u =>
    cases hs : Fingerprint.check d.sender with
    | error e => simp [hr, hs] at hb
    | ok u =>
      simp only [hr, hs] at hb
      split at hb
      · cases hb
      · split at hb
        · cases hb
        · rename_i hv
          cases hb
          exact ⟨rfl, rfl, rfl, hv⟩

theorem build_of_rules {d : Draft} (hr : Fingerprint.check d.recipient = .ok ())
    (hs : Fingerprint.check d.sender = .ok ()) (hsigned : ¬ (d.signature.isSome ∧ d.sender = none))
    (hv : d.header.validate = .ok ()) : build d = .ok d.header := by
  rw [Draft.header] at hv ⊢
  simp only [build, bind, Except.bind, hr, hs, if_neg hsigned, hv]
  rfl

theorem clean_of_build {d : Draft} {h : Header} (hb : build d = .ok h) :
    cleanExtension h.extension = h.extension := by
  obtain ⟨rfl, -⟩ := of_build hb
  rw [Draft.header]
  cases d.extension with
  | none => rfl
  | some x => exact cleanExtension_cleanExtension x

/-- What is built keeps the rules, unless it is given an empty text or signature, which say less than
none. -/
theorem canonical_of_build {d : Draft} {h : Header} (hb : build d = .ok h) (hm : d.mime ≠ some "")
    (hs : d.signature ≠ some ByteArray.empty) : h.Canonical := by
  have hclean := clean_of_build hb
  obtain ⟨rfl, hrecipient, hsender, hv⟩ := of_build hb
  refine ⟨hrecipient, hsender, hs, ?_, hclean, hv⟩
  rw [Draft.header]
  cases hmime : d.mime with
  | none => exact show defaultMime ≠ "" by decide
  | some m => exact fun he => hm (hmime.trans (congrArg some he))

/-- The record of a header. -/
def raw (h : Header) : Raw where
  recipient := Fingerprint.toWire h.recipient
  sender := Fingerprint.toWire h.sender
  application := h.application
  signature := h.signature.getD ByteArray.empty
  sessionId := h.sessionId.toUInt32
  blockSize := h.blockSize
  mime := h.mime
  extension := h.extension
  userFilename := h.userFilename
  toDisk := h.toDisk
  endOfStream := h.endOfStream
  hashes := h.hashes

/-- The headers that there can be: those that are built or decoded, signed or not. -/
inductive Made : Header → Prop
  | built {d : Draft} {h : Header} : build d = .ok h → Made h
  | decoded {r : Raw} {h : Header} : ofRaw r = .ok h → Made h
  | terminator : Made terminator
  | signed {h h' : Header} {secret : Bytes} : Made h → h.sign secret = .ok h' → Made h'

theorem clean_of_ofRaw {r : Raw} {h : Header} (hr : ofRaw r = .ok h) :
    cleanExtension h.extension = h.extension := by
  simp only [ofRaw, bind, Except.bind] at hr
  split at hr
  · cases hr
  · split at hr
    · cases hr
    · split at hr
      · cases hr
      · cases hr
        exact cleanExtension_cleanExtension r.extension

theorem extension_of_sign {h h' : Header} {secret : Bytes} (hs : h.sign secret = .ok h') :
    h'.extension = h.extension := by
  unfold sign at hs
  split at hs
  · cases hs
  · split at hs
    · cases hs
    · cases hs
      rfl

theorem Made.clean {h : Header} (hm : h.Made) : cleanExtension h.extension = h.extension := by
  induction hm with
  | built hb => exact clean_of_build hb
  | decoded hr => exact clean_of_ofRaw hr
  | terminator => rfl
  | signed _ hs ih => rw [extension_of_sign hs, ih]

/-- What every header keeps. -/
structure Sound (h : Header) : Prop where
  recipient_ok : Fingerprint.check h.recipient = .ok ()
  sender_ok : Fingerprint.check h.sender = .ok ()
  extension_clean : cleanExtension h.extension = h.extension
  valid : h.validate = .ok ()

theorem Canonical.sound {h : Header} (hc : h.Canonical) : h.Sound :=
  ⟨hc.recipient_ok, hc.sender_ok, hc.extension_clean, hc.valid⟩

theorem Sound.canonical {h : Header} (hs : h.Sound) (hm : h.mime ≠ "") (hsig : h.signature ≠ some ByteArray.empty) :
    h.Canonical :=
  ⟨hs.recipient_ok, hs.sender_ok, hsig, hm, hs.extension_clean, hs.valid⟩

/-- No rule asks where a payload is to be kept. -/
theorem Canonical.setToDisk {h : Header} (hc : h.Canonical) (d : Bool) : ({ h with toDisk := d } : Header).Canonical :=
  ⟨hc.recipient_ok, hc.sender_ok, hc.signature_ne, hc.mime_ne, hc.extension_clean, hc.valid⟩

theorem Sound.setToDisk {h : Header} (hs : h.Sound) (d : Bool) : ({ h with toDisk := d } : Header).Sound :=
  ⟨hs.recipient_ok, hs.sender_ok, hs.extension_clean, hs.valid⟩

theorem sound_of_build {d : Draft} {h : Header} (hb : build d = .ok h) : h.Sound := by
  have hclean := clean_of_build hb
  obtain ⟨rfl, hrecipient, hsender, hv⟩ := of_build hb
  exact ⟨hrecipient, hsender, hclean, hv⟩

/-- A signature needs a sender and asks for nothing else. -/
theorem Sound.sign {h h' : Header} {secret : Bytes} (hs : h.Sound) (hsign : h.sign secret = .ok h') :
    h'.Sound := by
  unfold Header.sign at hsign
  split at hsign
  · cases hsign
  · rename_i s hsender
    split at hsign
    · cases hsign
    · cases hsign
      have hv := hs.valid
      refine ⟨hs.recipient_ok, hs.sender_ok, hs.extension_clean, ?_⟩
      simp only [validate, hsender, reduceCtorEq, and_false, if_false] at hv ⊢
      exact hv

/-- What becomes of a header on its way: an empty signature is none, and an empty media type is the
default one. -/
def received (h : Header) : Header where
  recipient := h.recipient
  sender := h.sender
  application := h.application
  signature := h.signature.filter fun s => s.size ≠ 0
  sessionId := h.sessionId
  blockSize := h.blockSize
  mime := if h.mime = "" then defaultMime else h.mime
  extension := h.extension
  userFilename := h.userFilename
  toDisk := h.toDisk
  endOfStream := h.endOfStream
  hashes := h.hashes

theorem received_signature_eq_self_iff {h : Header} :
    h.received.signature = h.signature ↔ h.signature ≠ some ByteArray.empty := by
  rw [received]
  cases hs : h.signature with
  | none => simp
  | some s =>
    by_cases hsize : s.size = 0
    · simp [Option.filter, ByteArray.size_eq_zero_iff.mp hsize]
    · have hne : s ≠ ByteArray.empty := fun he => hsize (by rw [he]; rfl)
      simp [Option.filter, hsize, hne]

theorem received_mime_eq_self_iff {h : Header} : h.received.mime = h.mime ↔ h.mime ≠ "" := by
  rw [received]
  by_cases hm : h.mime = ""
  · simp [hm, defaultMime]
  · simp [hm]

theorem received_eq_self_iff {h : Header} :
    h.received = h ↔ h.mime ≠ "" ∧ h.signature ≠ some ByteArray.empty := by
  rw [← received_mime_eq_self_iff, ← received_signature_eq_self_iff]
  constructor
  · intro he
    rw [he]
    exact ⟨rfl, rfl⟩
  · rintro ⟨hm, hs⟩
    have hreceived : h.received = { h with signature := h.received.signature, mime := h.received.mime } := rfl
    rw [hreceived, hm, hs]

/-- A header that loses its empty signature breaks no rule by that. -/
theorem Sound.received_valid {h : Header} (hs : h.Sound) : h.received.validate = .ok () := by
  cases he : h.endOfStream with
  | true =>
    have heos : h.received.endOfStream = true := he
    simp [validate, heos]
  | false =>
    obtain ⟨hzero, hlarge, happlication, hsigned⟩ := (validate_eq_ok_iff he).mp hs.valid
    refine (validate_eq_ok_iff (h := h.received) he).mpr ⟨hzero, hlarge, happlication, ?_⟩
    rintro ⟨hsome, hnone⟩
    refine hsigned ⟨?_, hnone⟩
    obtain ⟨s, hs⟩ := Option.isSome_iff_exists.mp hsome
    rw [(Option.filter_eq_some_iff.mp hs).1]
    rfl

theorem Sound.ofRaw_raw {h : Header} (hs : h.Sound) : ofRaw h.raw = .ok h.received := by
  have hrecipient : Fingerprint.ofWire h.raw.recipient = .ok h.received.recipient :=
    Fingerprint.ofWire_toWire hs.recipient_ok
  have hsender : Fingerprint.ofWire h.raw.sender = .ok h.received.sender := Fingerprint.ofWire_toWire hs.sender_ok
  have hsignature : (if h.raw.signature.size = 0 then none else some h.raw.signature) = h.received.signature := by
    rw [raw, received]
    cases h.signature with
    | none => rfl
    | some s => by_cases hsize : s.size = 0 <;> simp [Option.filter, hsize]
  have hextension : cleanExtension h.raw.extension = h.received.extension := hs.extension_clean
  have hvalid : h.received.validate = .ok () := hs.received_valid
  simp only [ofRaw, bind, Except.bind, hrecipient, hsender, hsignature, hextension]
  exact congrArg (fun x : Except PolicyError Unit => x.map fun _ => h.received) hvalid

theorem ofRaw_raw {h : Header} (hc : h.Canonical) : ofRaw h.raw = .ok h := by
  rw [hc.sound.ofRaw_raw, received_eq_self_iff.mpr ⟨hc.mime_ne, hc.signature_ne⟩]

/-! The record of a header. -/

theorem size_concat_hashes (l : List Hash) : (Hash.concat l).size = 32 * l.length := by
  induction l with
  | nil => rfl
  | cons h l ih =>
    rw [Hash.concat] at ih
    simp only [Hash.concat, List.map_cons, Bytes.concat_cons, ByteArray.size_append, ih, h.size_eq,
      List.length_cons]
    omega

theorem reads_encode {h : Header} (hs : h.encode.size < UInt64.size) :
    Raw.decoder.Reads h.encode h.raw := by
  simp only [encode, Bytes.concat_cons, Bytes.concat_nil, ByteArray.size_append, Record.text,
    Record.blob, Record.hashes, size_concat_hashes] at hs
  have hname : ∀ s, h.userFilename = some s → s.toUTF8.size < UInt64.size := by
    intro s hu
    simp only [hu, Record.optional, Record.text, Record.blob, ByteArray.size_append] at hs
    omega
  simp only [encode, Bytes.concat_cons, Bytes.concat_nil]
  refine (Record.Decoder.reads_blob (by omega)).bind ?_
  refine (Record.Decoder.reads_blob (by omega)).bind ?_
  refine (Record.Decoder.reads_text (by omega)).bind ?_
  refine (Record.Decoder.reads_blob (by omega)).bind ?_
  refine (Record.Decoder.reads_word _).bind ?_
  refine (Record.Decoder.reads_word _).bind ?_
  refine (Record.Decoder.reads_text (by omega)).bind ?_
  refine (Record.Decoder.reads_text (by omega)).bind ?_
  refine (Record.Decoder.reads_optional fun s hu => Record.Decoder.reads_text (hname s hu)).bind ?_
  refine (Record.Decoder.reads_flag _).bind ?_
  refine (Record.Decoder.reads_flag _).bind ?_
  exact (Record.Decoder.reads_hashes (by omega)).bind (Record.Decoder.reads_pure h.raw)

end Header

theorem Sequence.size_encode (p : Sequence) : p.encode.size = 13 + p.bytes.size := by
  have hflag : (Record.flag p.isNative).size = 1 := rfl
  simp only [encode, Record.word, Record.blob, Record.length, ByteArray.size_append, Bytes.size_ofUInt32LE,
    Bytes.size_ofUInt64LE, hflag]
  omega

theorem Sequence.reads_encode {p : Sequence} (hs : p.encode.size < UInt64.size) :
    Sequence.decoder.Reads p.encode p := by
  have hbytes : p.bytes.size < UInt64.size := by
    simp only [encode, Record.blob, ByteArray.size_append] at hs
    omega
  have hvalue : (⟨p.number, if p.isNative then .native else .inline p.bytes⟩ : Sequence) = p := by
    obtain ⟨number, payload⟩ := p
    cases payload <;> rfl
  rw [encode, ByteArray.append_assoc]
  refine (Record.Decoder.reads_word _).bind ?_
  refine (Record.Decoder.reads_flag _).bind ?_
  exact (Record.Decoder.reads_blob hbytes).bind_pure (by rw [hvalue])

end ChunkRelay
