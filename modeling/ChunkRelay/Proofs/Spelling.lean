import ChunkRelay.Keys
import ChunkRelay.Text.JsonObject

/-! Texts that are read back as they were written: objects whose members are all strings, whatever characters these have,
and bytes in base64. -/
namespace ChunkRelay

namespace JsonObject

variable {c : Char} {r acc l : List Char} {bound fuel : Nat}

/-! Characters. -/

theorem hexValue_hexDigit : ∀ n < 16, hexValue (hexDigit n) = some n := by decide

/-- A character is escaped by a letter, or by its number if it is a control character, or it stands for itself. -/
theorem escape_cases (c : Char) :
    (∃ x, escape c = ['\\', x] ∧ x ≠ 'u' ∧ unescape x = some c) ∨
    (c < ' ' ∧ escape c = ['\\', 'u', '0', '0', hexDigit (c.toNat / 16), hexDigit (c.toNat % 16)]) ∨
    (c ≠ '"' ∧ c ≠ '\\' ∧ ¬ c < ' ' ∧ escape c = [c]) := by
  unfold escape
  split
  case h_8 hq hb _ _ _ _ _ =>
    split
    · rename_i hlow
      exact .inr (.inl ⟨hlow, rfl⟩)
    · rename_i hhigh
      exact .inr (.inr ⟨hq, hb, hhigh, rfl⟩)
  all_goals exact .inl ⟨_, rfl, by decide, rfl⟩

theorem hex4_of_low (h : c < ' ') :
    hex4 '0' '0' (hexDigit (c.toNat / 16)) (hexDigit (c.toNat % 16)) = some c.toNat := by
  have hlow : c.toNat < 32 := h
  have hzero : hexValue '0' = some 0 := rfl
  have hhigh := hexValue_hexDigit (c.toNat / 16) (by omega)
  have hrest := hexValue_hexDigit (c.toNat % 16) (Nat.mod_lt _ (by decide))
  simp only [hex4, hzero, hhigh, hrest]
  exact congrArg some (by omega)

theorem ofUnit_of_low (h : c < ' ') : ofUnit c.toNat = some c := by
  have hlow : c.toNat < 32 := h
  rw [ofUnit, if_neg (by omega), Char.ofNat_toNat]

theorem character_of_unescape {x : Char} (hx : x ≠ 'u') (r : List Char) :
    character ('\\' :: x :: r) = (unescape x).map (·, r) := by
  simp [character, hx]

theorem character_of_plain (hb : c ≠ '\\') (hs : ¬ c < ' ') (r : List Char) : character (c :: r) = some (c, r) := by
  simp [character, hb, hs]

/-- A unit that is a character by itself is read alone, also before another one. -/
theorem character_of_unit {x y z w : Char} {n : Nat} (hn : hex4 x y z w = some n) (hc : ofUnit n = some c)
    (r : List Char) : character ('\\' :: 'u' :: x :: y :: z :: w :: r) = some (c, r) := by
  unfold character
  split
  · rename_i heq
    cases heq
    rw [hn]
    split
    · rename_i hunit
      cases hunit
    · rename_i hunit
      cases hunit
      rw [hc]
    · rename_i hunit _
      cases hunit
      rw [hc]
      rfl
  · rename_i hfirst heq
    cases heq
    exact absurd rfl (hfirst _ _ _ _ _ rfl)
  · rename_i hfirst heq
    cases heq
    exact absurd rfl (hfirst _ _ rfl)
  · rename_i heq
    cases heq

/-- A character is read back from its escape, whatever follows. -/
theorem character_escape (c : Char) (r : List Char) : character (escape c ++ r) = some (c, r) := by
  rcases escape_cases c with ⟨x, hescape, hx, hc⟩ | ⟨hlow, hescape⟩ | ⟨-, hb, hs, hescape⟩ <;> rw [hescape]
  · exact (character_of_unescape hx r).trans (by rw [hc]; rfl)
  · exact character_of_unit (hex4_of_low hlow) (ofUnit_of_low hlow) r
  · exact character_of_plain hb hs r

/-- No escape begins with a quote. -/
theorem stringBody_escape (c : Char) (r acc : List Char) (fuel : Nat) :
    stringBody acc (fuel + 1) (escape c ++ r) = stringBody (c :: acc) fuel r := by
  have hread := character_escape c r
  have hquote : ∀ s, escape c ++ r ≠ '"' :: s := by
    intro s
    rcases escape_cases c with ⟨x, hescape, -⟩ | ⟨-, hescape⟩ | ⟨hq, -, -, hescape⟩
    · simp [hescape]
    · simp [hescape]
    · simp [hescape, hq]
  generalize escape c ++ r = s at hread hquote
  rw [stringBody.eq_def acc (fuel + 1) s]
  split
  · exact absurd rfl (hquote _)
  · contradiction
  · rename_i heq _
    cases heq
    rw [hread]

/-! Strings and members. -/

theorem stringBody_flatMap (l : List Char) (hl : l.length ≤ fuel) (acc r : List Char) :
    stringBody acc fuel (l.flatMap escape ++ '"' :: r) = some (String.ofList (acc.reverse ++ l), r) := by
  induction l generalizing acc fuel with
  | nil => simp [stringBody]
  | cons c l ih =>
    cases fuel with
    | zero => cases hl
    | succ fuel =>
      rw [List.flatMap_cons, List.append_assoc, stringBody_escape, ih (Nat.le_of_succ_le_succ hl)]
      simp

/-- A string is read back from its quoted text, whatever follows. -/
theorem string?_quoted {s : String} (hs : s.toList.length ≤ bound) (r : List Char) :
    string? bound (quoted s ++ r) = some (s, r) := by
  have hbody := stringBody_flatMap s.toList hs [] r
  simpa [string?, quoted] using hbody

theorem skipSpace_of_first {c : Char} (hc : isSpace c = false) (r : List Char) : skipSpace (c :: r) = c :: r := by
  simp [skipSpace, hc]

theorem skipSpace_quoted (s : String) (r : List Char) : skipSpace (quoted s ++ r) = quoted s ++ r :=
  skipSpace_of_first rfl _

/-- The text of a member, and what is behind the space that follows it. -/
theorem member?_member {m : String × String} (hk : m.1.toList.length ≤ bound) (hv : m.2.toList.length ≤ bound)
    (r : List Char) : member? bound (member m ++ r) = some (m, skipSpace r) := by
  have hmember : member m ++ r = quoted m.1 ++ ':' :: ' ' :: (quoted m.2 ++ r) := by simp [member]
  have hspace : skipSpace (' ' :: (quoted m.2 ++ r)) = quoted m.2 ++ r := skipSpace_quoted m.2 r
  have hcolon : skipSpace (':' :: ' ' :: (quoted m.2 ++ r)) = ':' :: ' ' :: (quoted m.2 ++ r) := skipSpace_of_first rfl _
  simp [member?, hmember, string?_quoted hk, hcolon, hspace, string?_quoted hv]

/-! Objects. -/

/-- What `members` is for an object that is not empty, but for the line break before it. -/
theorem skipSpace_members (m : String × String) (l : List (String × String)) (r : List Char) :
    skipSpace (members (m :: l) ++ r) = member m ++ match l with
      | [] => '\n' :: r
      | n :: l => ',' :: (members (n :: l) ++ r) := by
  have hindent (r : List Char) : skipSpace ('\n' :: ' ' :: ' ' :: (member m ++ r)) = member m ++ r := by
    rw [member, List.append_assoc, List.append_assoc]
    exact skipSpace_quoted m.1 _
  cases l with
  | nil => simpa [members] using hindent ('\n' :: r)
  | cons n l => simpa [members] using hindent (',' :: (members (n :: l) ++ r))

theorem length_quoted (s : String) : s.toList.length ≤ (quoted s).length := by
  have hescape (c : Char) : 1 ≤ (escape c).length := by
    rcases escape_cases c with ⟨x, h, -⟩ | ⟨-, h⟩ | ⟨-, -, -, h⟩ <;> simp [h]
  have hflat (l : List Char) : l.length ≤ (l.flatMap escape).length := by
    induction l with
    | nil => simp
    | cons c l ih =>
      have hc := hescape c
      simp only [List.length_cons, List.flatMap_cons, List.length_append]
      omega
  have hs := hflat s.toList
  simp only [quoted, List.length_cons, List.length_append]
  omega

theorem length_members_cons (m : String × String) (l : List (String × String)) :
    (members (m :: l)).length = (member m).length + 4 + (members l).length := by
  cases l <;> simp [members] <;> omega

/-- The text of an object is longer than all that is in it. -/
theorem length_members (l : List (String × String)) :
    3 * l.length ≤ (members l).length ∧ ∀ m ∈ l,
      m.1.toList.length + 3 ≤ (members l).length ∧ m.2.toList.length + 3 ≤ (members l).length := by
  induction l with
  | nil => exact ⟨Nat.le_refl 0, nofun⟩
  | cons n l ih =>
    have hkey := length_quoted n.1
    have hvalue := length_quoted n.2
    have hmember : (member n).length = (quoted n.1).length + 2 + (quoted n.2).length := by simp [member]; omega
    rw [length_members_cons]
    refine ⟨by rw [List.length_cons]; omega, fun m hm => ?_⟩
    rcases List.mem_cons.mp hm with rfl | hm
    · omega
    · have hrest := ih.2 m hm
      omega

theorem members?_members (m : String × String) (l acc : List (String × String))
    (hb : ∀ a ∈ m :: l, a.1.toList.length ≤ bound ∧ a.2.toList.length ≤ bound) (hf : l.length < fuel) :
    members? bound acc fuel (skipSpace (members (m :: l) ++ ['\x7d'])) = some (acc.reverse ++ m :: l, []) := by
  obtain ⟨hk, hv⟩ := hb m List.mem_cons_self
  obtain ⟨fuel, rfl⟩ := Nat.exists_eq_succ_of_ne_zero (Nat.ne_zero_of_lt hf)
  induction l generalizing m acc fuel with
  | nil =>
    have hclose : skipSpace ['\n', '\x7d'] = ['\x7d'] := rfl
    rw [skipSpace_members, members?, member?_member hk hv, hclose]
    simp
  | cons n l ih =>
    have hcomma (r : List Char) : skipSpace (',' :: r) = ',' :: r := skipSpace_of_first rfl r
    have hb := fun a ha => hb a (List.mem_cons_of_mem m ha)
    obtain ⟨hkn, hvn⟩ := hb n List.mem_cons_self
    have hlt : l.length < fuel := Nat.lt_of_succ_lt_succ hf
    obtain ⟨fuel, rfl⟩ := Nat.exists_eq_succ_of_ne_zero (Nat.ne_zero_of_lt hlt)
    have hrest := ih n (m :: acc) hb hkn hvn fuel hlt
    rw [skipSpace_members, members?, member?_member hk hv, hcomma]
    simpa using hrest

/-- What is behind the brace that opens an object which is not empty: it begins with a quote, and is long enough to bound
the number of the members and the length of their strings. -/
theorem skipSpace_members_spec (m : String × String) (l : List (String × String)) {s : List Char}
    (hs : skipSpace (members (m :: l) ++ ['\x7d']) = s) : (∃ r, s = '"' :: r) ∧ l.length < s.length ∧
      ∀ a ∈ m :: l, a.1.toList.length ≤ s.length ∧ a.2.toList.length ≤ s.length := by
  obtain ⟨hlength, hstrings⟩ := length_members (m :: l)
  have hsize : s.length + 2 = (members (m :: l)).length := by
    rw [← hs, skipSpace_members, length_members_cons]
    cases l <;> simp [members] <;> omega
  rw [List.length_cons] at hlength
  refine ⟨⟨_, hs.symm.trans (skipSpace_members m l _)⟩, by omega, fun a ha => ?_⟩
  have ha := hstrings a ha
  omega

/-- An object is read back from its text. -/
theorem read?_write (l : List (String × String)) : read? (write l) = some l := by
  have hopen : skipSpace (write l).toList = '\x7b' :: (members l ++ ['\x7d']) := by
    simpa [write] using skipSpace_of_first rfl _
  cases l with
  | nil => rfl
  | cons m l =>
    obtain ⟨s, hs⟩ : ∃ s, skipSpace (members (m :: l) ++ ['\x7d']) = s := ⟨_, rfl⟩
    obtain ⟨⟨r, rfl⟩, hlength, hstrings⟩ := skipSpace_members_spec m l hs
    have hread := members?_members m l [] hstrings hlength
    have hend : skipSpace [] = [] := rfl
    rw [hs, List.length_cons] at hread
    simp [read?, hopen, hs, hread, hend]

end JsonObject

namespace Base64

/-! Base64. -/

theorem value_digit : ∀ n < 64, value (digit n) = some n := by decide

theorem digit_ne_pad : ∀ n < 64, digit n ≠ '=' := by decide

section Groups

variable {a b c d : Char} {x y z w : Nat}

theorem decodeLast_one (hx : value a = some x) (hy : value b = some y) (h : y % 16 = 0) :
    decodeLast a b '=' '=' = some [UInt8.ofNat (x * 4 + y / 16)] := by
  simp only [decodeLast, hx, hy, h, Option.bind_eq_bind, Option.bind_some, and_self, if_true]

theorem decodeLast_two (hx : value a = some x) (hy : value b = some y) (hz : value c = some z) (hc : c ≠ '=')
    (h : z % 4 = 0) :
    decodeLast a b c '=' = some [UInt8.ofNat (x * 4 + y / 16), UInt8.ofNat (y % 16 * 16 + z / 4)] := by
  simp only [decodeLast, hx, hy, hz, hc, h, Option.bind_eq_bind, Option.bind_some, false_and, if_false, if_true]

theorem decodeLast_three (hx : value a = some x) (hy : value b = some y) (hz : value c = some z) (hw : value d = some w)
    (hd : d ≠ '=') :
    decodeLast a b c d = some [UInt8.ofNat (x * 4 + y / 16), UInt8.ofNat (y % 16 * 16 + z / 4),
      UInt8.ofNat (z % 4 * 64 + w)] := by
  simp only [decodeLast, hx, hy, hz, hw, hd, Option.bind_eq_bind, Option.bind_some, and_false, if_false]

/-- Four digits make the next three bytes, be they the last or not. -/
theorem decodeChars_group (hx : value a = some x) (hy : value b = some y) (hz : value c = some z) (hw : value d = some w)
    (hd : d ≠ '=') (acc : List UInt8) (r : List Char) :
    decodeChars acc (a :: b :: c :: d :: r) = decodeChars (UInt8.ofNat (z % 4 * 64 + w) ::
      UInt8.ofNat (y % 16 * 16 + z / 4) :: UInt8.ofNat (x * 4 + y / 16) :: acc) r := by
  cases r with
  | nil => simp only [decodeChars, decodeLast_three hx hy hz hw hd, Option.map_some, List.reverse_cons, List.append_assoc,
      List.cons_append, List.nil_append]
  | cons e r => simp only [decodeChars, hx, hy, hz, hw]

end Groups

theorem ofNat_eq {n : Nat} {a : UInt8} (h : n = a.toNat) : UInt8.ofNat n = a := by rw [h, UInt8.ofNat_toNat]

/-- Bytes are read back from their digits. -/
theorem decodeChars_encodeChars (l acc : List UInt8) : decodeChars acc (encodeChars l) = some (acc.reverse ++ l) := by
  have hbyte (a : UInt8) : a.toNat < 256 := a.toNat_lt
  -- the first byte is in the first two digits, the second in the second and third, the third in the last two
  have hfirst (a : UInt8) (n : Nat) (hn : n < 16) : UInt8.ofNat (a.toNat / 4 * 4 + (a.toNat % 4 * 16 + n) / 16) = a :=
    ofNat_eq (by omega)
  have hsecond (m : Nat) (b : UInt8) (n : Nat) (hn : n < 4) :
      UInt8.ofNat ((m % 4 * 16 + b.toNat / 16) % 16 * 16 + (b.toNat % 16 * 4 + n) / 4) = b := by
    have hb := hbyte b
    exact ofNat_eq (by omega)
  have hthird (m : Nat) (c : UInt8) : UInt8.ofNat ((m % 16 * 4 + c.toNat / 64) % 4 * 64 + c.toNat % 64) = c := by
    have hc := hbyte c
    exact ofNat_eq (by omega)
  induction l using encodeChars.induct generalizing acc with
  | case1 => simp [encodeChars, decodeChars]
  | case2 a =>
    have ha := hbyte a
    have hx := value_digit (a.toNat / 4) (by omega)
    have hy := value_digit (a.toNat % 4 * 16) (by omega)
    have hback : UInt8.ofNat (a.toNat / 4 * 4 + a.toNat % 4 * 16 / 16) = a := hfirst a 0 (by decide)
    rw [encodeChars, decodeChars, decodeLast_one hx hy (by omega), hback]
    rfl
  | case3 a b =>
    have ha := hbyte a
    have hb := hbyte b
    have hx := value_digit (a.toNat / 4) (by omega)
    have hy := value_digit (a.toNat % 4 * 16 + b.toNat / 16) (by omega)
    have hz := value_digit (b.toNat % 16 * 4) (by omega)
    have hpad := digit_ne_pad (b.toNat % 16 * 4) (by omega)
    have hback : UInt8.ofNat ((a.toNat % 4 * 16 + b.toNat / 16) % 16 * 16 + b.toNat % 16 * 4 / 4) = b :=
      hsecond a.toNat b 0 (by decide)
    rw [encodeChars, decodeChars, decodeLast_two hx hy hz hpad (by omega), hfirst a _ (by omega), hback]
    rfl
  | case4 a b c r ih =>
    have ha := hbyte a
    have hb := hbyte b
    have hc := hbyte c
    have hx := value_digit (a.toNat / 4) (by omega)
    have hy := value_digit (a.toNat % 4 * 16 + b.toNat / 16) (by omega)
    have hz := value_digit (b.toNat % 16 * 4 + c.toNat / 64) (by omega)
    have hw := value_digit (c.toNat % 64) (by omega)
    have hpad := digit_ne_pad (c.toNat % 64) (by omega)
    rw [encodeChars, decodeChars_group hx hy hz hw hpad, hfirst a _ (by omega), hsecond a.toNat b _ (by omega),
      hthird b.toNat c, ih]
    simp

theorem decode?_encode (b : Bytes) : decode? (encode b) = some b := by
  rw [decode?, encode, String.toList_ofList, decodeChars_encodeChars]
  exact congrArg some (ByteArray.ext (by simp))

end Base64

/-- A secret is read back from its base64. -/
theorem decodeSecret_encode (b : Bytes) : decodeSecret (Base64.encode b) = .ok b := by
  rw [decodeSecret, Base64.decode?_encode]

end ChunkRelay
