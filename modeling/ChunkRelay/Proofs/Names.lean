import ChunkRelay.Proofs.Headers
import ChunkRelay.Proofs.Paths
import ChunkRelay.Storage.Files

/-! Names of stored files. The name of a content can stand between slashes and starts with a digit of its
key; the name of a part file starts with a dot, so the two are never the same. -/
namespace ChunkRelay

namespace Bytes

/-- The two digits of a byte. -/
def hexDigits (x : UInt8) : List Char := [hexDigit (x >>> 4), hexDigit (x &&& 15)]

theorem toList_toHex (b : Bytes) : b.toHex.toList = b.data.toList.flatMap hexDigits := by
  have hfold : ∀ (l : List UInt8) (s : String),
      (l.foldl (fun s x => (s.push (hexDigit (x >>> 4))).push (hexDigit (x &&& 15))) s).toList =
        s.toList ++ l.flatMap hexDigits := by
    intro l
    induction l with
    | nil => simp
    | cons x l ih =>
      intro s
      rw [List.foldl_cons, ih]
      simp [hexDigits]
  rw [toHex, foldl_eq, hfold]
  rfl

theorem isAlphanum_hexDigit {n : UInt8} (h : n < 16) : (hexDigit n).isAlphanum = true := by
  have hall : ∀ k < 16, (hexDigit (UInt8.ofNat k)).isAlphanum = true := by decide
  have hn := hall n.toNat (UInt8.lt_iff_toNat_lt.mp h)
  rwa [UInt8.ofNat_toNat] at hn

theorem shiftRight_lt (x : UInt8) : x >>> 4 < 16 := by
  rw [UInt8.lt_iff_toNat_lt, UInt8.toNat_shiftRight]
  have hx := x.toNat_lt
  change x.toNat >>> 4 < 16
  rw [Nat.shiftRight_eq_div_pow]
  omega

theorem and_lt (x : UInt8) : x &&& 15 < 16 := by
  rw [UInt8.lt_iff_toNat_lt, UInt8.toNat_and]
  exact Nat.lt_succ_of_le Nat.and_le_right

theorem isAlphanum_of_mem_hexDigits {x : UInt8} {c : Char} (h : c ∈ hexDigits x) : c.isAlphanum = true := by
  rcases List.mem_cons.mp h with rfl | h
  · exact isAlphanum_hexDigit (shiftRight_lt x)
  · rw [List.mem_singleton.mp h]
    exact isAlphanum_hexDigit (and_lt x)

theorem isAlphanum_of_mem_toHex {b : Bytes} {c : Char} (h : c ∈ b.toHex.toList) : c.isAlphanum = true := by
  rw [toList_toHex, List.mem_flatMap] at h
  obtain ⟨x, -, hx⟩ := h
  exact isAlphanum_of_mem_hexDigits hx

theorem toHex_ne_nil {b : Bytes} (h : b.size ≠ 0) : b.toHex.toList ≠ [] := by
  rw [toList_toHex]
  cases hl : b.data.toList with
  | nil => exact absurd (congrArg List.length hl) h
  | cons x l => simp [hexDigits]

theorem hexDigit_inj {m n : UInt8} (hm : m < 16) (hn : n < 16) (h : hexDigit m = hexDigit n) : m = n := by
  have hall : ∀ i < 16, ∀ j < 16, hexDigit (UInt8.ofNat i) = hexDigit (UInt8.ofNat j) → i = j := by decide
  have hij := hall m.toNat (UInt8.lt_iff_toNat_lt.mp hm) n.toNat (UInt8.lt_iff_toNat_lt.mp hn)
  rw [UInt8.ofNat_toNat, UInt8.ofNat_toNat] at hij
  exact UInt8.toNat_inj.mp (hij h)

theorem toNat_nibbles (x : UInt8) : 16 * (x >>> 4).toNat + (x &&& 15).toNat = x.toNat := by
  have hhigh : (x >>> 4).toNat = x.toNat / 16 := by
    rw [UInt8.toNat_shiftRight]
    exact Nat.shiftRight_eq_div_pow _ _
  have hlow : (x &&& 15).toNat = x.toNat % 16 := by
    rw [UInt8.toNat_and]
    exact Nat.and_two_pow_sub_one_eq_mod x.toNat 4
  omega

theorem hexDigits_inj {x y : UInt8} (h : hexDigits x = hexDigits y) : x = y := by
  obtain ⟨hhigh, hrest⟩ := List.cons.inj h
  obtain ⟨hlow, -⟩ := List.cons.inj hrest
  have hh := hexDigit_inj (shiftRight_lt x) (shiftRight_lt y) hhigh
  have hl := hexDigit_inj (and_lt x) (and_lt y) hlow
  have hx := toNat_nibbles x
  have hy := toNat_nibbles y
  rw [hh, hl] at hx
  exact UInt8.toNat_inj.mp (hx.symm.trans hy)

theorem length_toHex (b : Bytes) : b.toHex.toList.length = 2 * b.size := by
  rw [toList_toHex, ← ByteArray.size_data, ← Array.length_toList]
  generalize b.data.toList = l
  induction l with
  | nil => rfl
  | cons x l ih =>
    rw [List.flatMap_cons, List.length_append, ih, List.length_cons]
    simp only [hexDigits, List.length_cons, List.length_nil]
    omega

theorem utf8Size_hexDigit {n : UInt8} (h : n < 16) : (hexDigit n).utf8Size = 1 := by
  have hall : ∀ k < 16, (hexDigit (UInt8.ofNat k)).utf8Size = 1 := by decide
  have hn := hall n.toNat (UInt8.lt_iff_toNat_lt.mp h)
  rwa [UInt8.ofNat_toNat] at hn

theorem utf8ByteSize_toHex (b : Bytes) : b.toHex.utf8ByteSize = 2 * b.size := by
  have hfold (l : List UInt8) (s : String) :
      (l.foldl (fun s x => (s.push (hexDigit (x >>> 4))).push (hexDigit (x &&& 15))) s).utf8ByteSize =
        s.utf8ByteSize + 2 * l.length := by
    induction l generalizing s with
    | nil => rfl
    | cons x l ih =>
      rw [List.foldl_cons, ih, String.utf8ByteSize_push, String.utf8ByteSize_push, utf8Size_hexDigit (shiftRight_lt x),
        utf8Size_hexDigit (and_lt x), List.length_cons]
      omega
  rw [toHex, foldl_eq, hfold, ← ByteArray.size_data, ← Array.length_toList]
  exact Nat.zero_add _

theorem toHex_inj {a b : Bytes} (h : a.toHex.toList = b.toHex.toList) : a = b := by
  rw [toList_toHex, toList_toHex] at h
  refine ByteArray.ext (Array.toList_inj.mp ?_)
  generalize a.data.toList = l at h
  generalize b.data.toList = m at h
  induction l generalizing m with
  | nil =>
    cases m with
    | nil => rfl
    | cons y m => cases h
  | cons x l ih =>
    cases m with
    | nil => cases h
    | cons y m =>
      rw [List.flatMap_cons, List.flatMap_cons] at h
      obtain ⟨hx, hrest⟩ := List.append_inj h rfl
      rw [hexDigits_inj hx, ih m hrest]

end Bytes

theorem isAlphanum_ne {c d : Char} (hc : c.isAlphanum = true) (hd : d.isAlphanum = false) : c ≠ d := by
  rintro rfl
  rw [hc] at hd
  cases hd

/-- A clean extension holds no slash. -/
theorem no_slash_of_clean {ext : String} (h : cleanExtension ext = ext) : '/' ∉ ext.toList := by
  intro hs
  rw [← h] at hs
  simp only [cleanExtension, String.toList_ofList, List.mem_reverse] at hs
  have hs := (List.dropWhile_sublist _).subset hs
  rw [List.mem_reverse] at hs
  have hs := (List.mem_filter.mp ((List.dropWhile_sublist _).subset hs)).2
  exact absurd hs (by decide)

namespace Header

/-- The name of a content: it starts with a digit of the key and holds no slash. -/
theorem storageName_eq {h : Header} (he : h.endOfStream = false) (hx : cleanExtension h.extension = h.extension) :
    ∃ c l, h.storageName.toList = c :: l ∧ c.isAlphanum = true ∧ '/' ∉ l := by
  have hslash : '/' ∉ h.contentKey.toHex.toList := fun hs =>
    isAlphanum_ne (Bytes.isAlphanum_of_mem_toHex hs) (by decide) rfl
  cases hk : h.contentKey.toHex.toList with
  | nil =>
    refine absurd hk (Bytes.toHex_ne_nil ?_)
    rw [h.contentKey.size_eq]
    decide
  | cons c l =>
    have hc : c.isAlphanum = true := Bytes.isAlphanum_of_mem_toHex (b := h.contentKey.bytes) (by
      rw [show h.contentKey.bytes.toHex.toList = c :: l from hk]
      exact List.mem_cons_self)
    rw [hk, List.mem_cons, not_or] at hslash
    by_cases hext : h.extension = ""
    · exact ⟨c, l, by simp [storageName, he, hext, hk], hc, hslash.2⟩
    · refine ⟨c, l ++ '.' :: h.extension.toList, by simp [storageName, he, hext, hk], hc, ?_⟩
      simp only [List.mem_append, List.mem_cons, not_or]
      exact ⟨hslash.2, by decide, no_slash_of_clean hx⟩

theorem storageName_ne {h : Header} (he : h.endOfStream = false) (hx : cleanExtension h.extension = h.extension)
    {w : String} {c : Char} {l : List Char} (hw : w.toList = c :: l) (hc : c.isAlphanum = false) :
    h.storageName ≠ w := by
  obtain ⟨c', l', hname, hc', -⟩ := storageName_eq he hx
  rintro rfl
  rw [hname] at hw
  exact isAlphanum_ne hc' hc (List.cons.inj hw).1

/-- What stands behind the digits in the name of a content. -/
def nameEnd (ext : String) : List Char := if ext = "" then [] else '.' :: ext.toList

theorem nameEnd_inj {ext ext' : String} (h : nameEnd ext = nameEnd ext') : ext = ext' := by
  unfold nameEnd at h
  split at h
  · rename_i hnone
    split at h
    · rename_i hnone'
      rw [hnone, hnone']
    · cases h
  · split at h
    · cases h
    · exact String.toList_inj.mp (List.cons.inj h).2

theorem toList_storageName {h : Header} (he : h.endOfStream = false) :
    h.storageName.toList = h.contentKey.toHex.toList ++ nameEnd h.extension := by
  by_cases hext : h.extension = "" <;> simp [storageName, nameEnd, he, hext]

theorem length_toHex_contentKey (h : Header) : h.contentKey.toHex.toList.length = 64 := by
  rw [Hash.toHex, Bytes.length_toHex, h.contentKey.size_eq]

/-- The name of a content tells its key and its extension. -/
theorem storageName_eq_iff {h h' : Header} (he : h.endOfStream = false) (he' : h'.endOfStream = false) :
    h.storageName = h'.storageName ↔ h.contentKey = h'.contentKey ∧ h.extension = h'.extension := by
  rw [← String.toList_inj, toList_storageName he, toList_storageName he']
  constructor
  · intro hname
    have hlength := h.length_toHex_contentKey.trans h'.length_toHex_contentKey.symm
    obtain ⟨hdigits, hend⟩ := List.append_inj hname hlength
    exact ⟨Hash.ext (Bytes.toHex_inj hdigits), nameEnd_inj hend⟩
  · rintro ⟨hkey, hext⟩
    rw [hkey, hext]

theorem plain_storageName {h : Header} (he : h.endOfStream = false)
    (hx : cleanExtension h.extension = h.extension) : Path.Plain h.storageName := by
  obtain ⟨c, l, hname, hc, hl⟩ := storageName_eq he hx
  refine ⟨?_, ?_⟩
  · intro h0
    rw [h0] at hname
    cases hname
  · rw [hname, List.mem_cons, not_or]
    exact ⟨(isAlphanum_ne hc (by decide)).symm, hl⟩

/-- The name of a content can stand behind any path. -/
theorem Made.plain {h : Header} (hm : h.Made) (he : h.endOfStream = false) :
    Path.Plain h.storageName ∧ h.storageName ≠ "." ∧ h.storageName ≠ ".." :=
  ⟨plain_storageName he hm.clean, storageName_ne he hm.clean rfl rfl, storageName_ne he hm.clean rfl rfl⟩

end Header

namespace FileStore

theorem toList_partName (s : FileStore) (name : String) : ∃ l, (s.partName name).toList = '.' :: l := by
  simp [partName, toString]

theorem partName_ne_dots (s : FileStore) (name : String) : s.partName name ≠ "." ∧ s.partName name ≠ ".." := by
  have hlength : 6 ≤ (s.partName name).toList.length := by
    simp [partName, toString]
    omega
  constructor
  · intro h
    rw [h] at hlength
    exact absurd hlength (by decide)
  · intro h
    rw [h] at hlength
    exact absurd hlength (by decide)

theorem no_slash_toDigits (n : Nat) : '/' ∉ Nat.toDigits 10 n := fun h =>
  absurd (Nat.isDigit_of_mem_toDigits (by decide) (by decide) h) (by decide)

theorem plain_partName (s : FileStore) {name : String} (hn : '/' ∉ name.toList) : Path.Plain (s.partName name) := by
  obtain ⟨l, hl⟩ := toList_partName s name
  refine ⟨?_, ?_⟩
  · intro h0
    rw [h0] at hl
    cases hl
  · have hname : s.partName name = "." ++ name ++ "." ++ toString s.owner ++ "-" ++ toString s.begun ++ ".part" := by
      simp [partName, toString]
    simp [hname, hn, no_slash_toDigits]

end FileStore
end ChunkRelay
