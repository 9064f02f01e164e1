import ChunkRelay.Proofs.Growth

/-! Paths of stored contents. Whatever extension a header comes with, its content is kept right in the cache, under the
digits of its key and what is left of the extension, and two contents share a path exactly if they share both. -/
namespace ChunkRelay

/-! Extensions. -/

/-- Characters that an extension may keep. -/
def isSafe (c : Char) : Bool := c.isAlphanum || c = '-' || c = '_' || c = '.'

/-- An extension that can stand behind a dot at the end of a name. -/
structure SafeExtension (ext : List Char) : Prop where
  safe : ∀ c ∈ ext, isSafe c
  no_dot_first : ext.head? ≠ some '.'
  no_dot_last : ext.getLast? ≠ some '.'

/-- A list stands between what is trimmed off its ends. -/
theorem exists_eq_append_trim {α : Type} (q : α → Bool) (l : List α) :
    ∃ front back, l = front ++ ((l.dropWhile q).reverse.dropWhile q).reverse ++ back ∧ ∀ a ∈ front ++ back, q a := by
  refine ⟨l.takeWhile q, ((l.dropWhile q).reverse.takeWhile q).reverse, ?_, fun a ha => ?_⟩
  · have hback := congrArg List.reverse (List.takeWhile_append_dropWhile (p := q) (l := (l.dropWhile q).reverse))
    rw [List.reverse_append, List.reverse_reverse] at hback
    rw [List.append_assoc, hback, List.takeWhile_append_dropWhile]
  · rcases List.mem_append.mp ha with ha | ha
    · exact List.all_eq_true.mp List.all_takeWhile a ha
    · exact List.all_eq_true.mp List.all_takeWhile a (List.mem_reverse.mp ha)

theorem toList_cleanExtension (ext : String) : (cleanExtension ext).toList =
    (((ext.toList.filter isSafe).dropWhile (· = '.')).reverse.dropWhile (· = '.')).reverse := by
  rw [cleanExtension, String.toList_ofList]
  rfl

/-- Of the safe characters, which stay in their order, only dots before and behind all others are lost. -/
theorem filter_isSafe_eq (ext : String) : ∃ front back, ext.toList.filter isSafe =
    front ++ (cleanExtension ext).toList ++ back ∧ ∀ c ∈ front ++ back, c = '.' := by
  obtain ⟨front, back, heq, hdots⟩ :=
    exists_eq_append_trim (fun c : Char => decide (c = '.')) (ext.toList.filter isSafe)
  refine ⟨front, back, ?_, fun c hc => of_decide_eq_true (hdots c hc)⟩
  rwa [toList_cleanExtension]

theorem safe_cleanExtension (ext : String) : SafeExtension (cleanExtension ext).toList := by
  obtain ⟨front, back, heq, -⟩ := filter_isSafe_eq ext
  refine ⟨fun c hc => ?_, fun hfirst => ?_, fun hlast => ?_⟩
  · have hmem : c ∈ ext.toList.filter isSafe := by
      rw [heq]
      exact List.mem_append_left _ (List.mem_append_right _ hc)
    exact (List.mem_filter.mp hmem).2
  · rw [toList_cleanExtension] at hfirst
    exact absurd (head?_trim hfirst) (by decide)
  · rw [toList_cleanExtension, List.getLast?_reverse] at hlast
    exact absurd (head?_dropWhile hlast) (by decide)

/-! Names. -/

/-- The digits of hexadecimal text. -/
def isLowerHex (c : Char) : Bool := c.isDigit || ('a' ≤ c && c ≤ 'f')

theorem Bytes.isLowerHex_of_mem_toHex {b : Bytes} {c : Char} (h : c ∈ b.toHex.toList) : isLowerHex c := by
  have hall : ∀ k < 16, isLowerHex (hexDigit (UInt8.ofNat k)) := by decide
  have hdigit {n : UInt8} (hn : n < 16) : isLowerHex (hexDigit n) := by
    have hk := hall n.toNat (UInt8.lt_iff_toNat_lt.mp hn)
    rwa [UInt8.ofNat_toNat] at hk
  rw [toList_toHex, List.mem_flatMap] at h
  obtain ⟨x, -, hx⟩ := h
  rcases List.mem_cons.mp hx with rfl | hx
  · exact hdigit (shiftRight_lt x)
  · rw [List.mem_singleton.mp hx]
    exact hdigit (and_lt x)

namespace FileStore

variable {files : FileStore} {h h' : Header}

/-- A header whose content has its place right in the cache, under 64 digits and a safe extension. -/
structure Houses (files : FileStore) (h : Header) : Prop where
  names_eq : Path.names (files.pathFor h) = Path.names files.cacheDir ++ [h.storageName]
  leads : ∀ p t, files.disk.Leads files.cacheDir p → files.disk.target (files.pathFor h) = .ok t →
    t = ⟨p.child h.storageName, true, false⟩
  name_eq : h.storageName.toList =
    h.contentKey.toHex.toList ++ if h.extension = "" then [] else '.' :: h.extension.toList
  digits : h.contentKey.toHex.toList.length = 64 ∧ ∀ c ∈ h.contentKey.toHex.toList, isLowerHex c
  extension : SafeExtension h.extension.toList

theorem houses (hm : h.Made) (he : h.endOfStream = false) : files.Houses h := by
  obtain ⟨hplain, hdot, hup⟩ := hm.plain he
  refine ⟨Path.names_join hplain hdot, fun p t hleads ht => hleads.target_join hplain hdot hup ht, ?_, ?_, ?_⟩
  · exact Header.toList_storageName he
  · exact ⟨h.length_toHex_contentKey, fun c => Bytes.isLowerHex_of_mem_toHex⟩
  · rw [← hm.clean]
    exact safe_cleanExtension h.extension

/-- Contents of headers, wherever these come from and whatever extensions they were given, lie right in the cache, under
names that nothing in an extension can lead astray, and no two contents share a path. -/
theorem paths_of_contents (files : FileStore) :
    (∀ h : Header, h.Made → h.endOfStream = false → files.Houses h) ∧
    (∀ h h' : Header, h.Made → h'.Made → h.endOfStream = false → h'.endOfStream = false →
      (Path.names (files.pathFor h) = Path.names (files.pathFor h') ↔
        h.contentKey = h'.contentKey ∧ h.extension = h'.extension) ∧
      (files.pathFor h = files.pathFor h' ↔ h.contentKey = h'.contentKey ∧ h.extension = h'.extension)) ∧
    ∀ ext : String, cleanExtension (cleanExtension ext) = cleanExtension ext ∧
      SafeExtension (cleanExtension ext).toList ∧
        ∃ front back, ext.toList.filter isSafe = front ++ (cleanExtension ext).toList ++ back ∧
          ∀ c ∈ front ++ back, c = '.' := by
  refine ⟨fun h => houses, fun h h' hm hm' he he' => ?_, fun ext =>
    ⟨cleanExtension_cleanExtension ext, safe_cleanExtension ext, filter_isSafe_eq ext⟩⟩
  have hnames : Path.names (files.pathFor h) = Path.names (files.pathFor h') ↔ _ :=
    (names_pathFor_eq_iff hm hm' he he').trans (Header.storageName_eq_iff he he')
  refine ⟨hnames, fun hpath => hnames.mp (congrArg Path.names hpath), fun hsame => ?_⟩
  rw [pathFor, pathFor, (Header.storageName_eq_iff he he').mpr hsame]

/-- An extension that climbs, with dots at its ends and letters that are not safe, and no extension. -/
theorem paths_of_climbing_extension :
    let files : FileStore := ⟨.ofWorkDir ⟨#["node"]⟩, "cache", "files", 0, 0⟩
    let draft : Header.Draft := { application := some "mail", blockSize := some 8 }
    let h := { draft with extension := some "../..é/tar.gz." }.header
    (h.Made ∧ draft.header.Made) ∧ h.extension = "tar.gz" ∧ files.Houses h ∧
      files.pathFor h ≠ files.pathFor draft.header := by
  intro files draft h
  have hm : h.Made := .built (Header.build_of_rules rfl rfl (by decide) rfl)
  have hm' : draft.header.Made := .built (Header.build_of_rules rfl rfl (by decide) rfl)
  have hext : h.extension = "tar.gz" := by decide +kernel
  obtain ⟨hhouses, hpaths, -⟩ := paths_of_contents files
  refine ⟨⟨hm, hm'⟩, hext, hhouses h hm rfl, fun hpath => ?_⟩
  have hsame := ((hpaths h draft.header hm hm' rfl rfl).2.mp hpath).2
  rw [hext] at hsame
  exact absurd hsame (by decide)

end FileStore
end ChunkRelay
