import ContractLang.Literal.Pool
import Mathlib.Data.List.Basic

/-!
# The grammar of byte literals

What a byte literal is and what it stands for, said without a parser
(`ContractLang.Literal.Denotes`): digit pairs after `0x`, or text between double quotes. The
UTF-8 encoding of the text is cut into items, each the spelling of one byte
(`ContractLang.Literal.Item`); the cuts are between bytes, and need not be between characters.

* `ContractLang.Literal.unescape_eq_ok_iff`: encoded text is read exactly if it can be cut into
  items, and what is read are the bytes that they spell.
* `ContractLang.Literal.parse_eq_ok_iff_denotes`: the parser accepts exactly the literals of the
  grammar, with their values; it refuses all other texts with an error that carries them; and
  every sequence of bytes can be written in either form.
-/

namespace ContractLang

namespace Literal

/-! ### The grammar -/

/-- The character with the given code is a hexadecimal digit, in either case, that is worth
`n`. -/
def HexDigit (code n : Nat) : Prop :=
  n < 16 ∧ (code = n.digitChar.toNat ∨ code = n.digitChar.toUpper.toNat)

instance (code n : Nat) : Decidable (HexDigit code n) :=
  inferInstanceAs (Decidable (_ ∧ _))

/-- Two hexadecimal digits, the high one first, and the byte that they write. -/
def HexPair (high low : Nat) (byte : UInt8) : Prop :=
  ∃ h l, HexDigit high h ∧ HexDigit low l ∧ byte.toNat = 16 * h + l

/-- A sequence of digit pairs, and the bytes that they write in order. -/
inductive HexPairs : List Char → List UInt8 → Prop
  | nil : HexPairs [] []
  | cons {high low : Char} {byte : UInt8} {digits : List Char} {value : List UInt8}
    (hpair : HexPair high.toNat low.toNat byte) (hrest : HexPairs digits value) :
    HexPairs (high :: low :: digits) (byte :: value)

/-- The letters that stand for another byte after a backslash, each with the character whose
byte that is. -/
def escapes : List (Char × Char) :=
  [('n', '\n'), ('r', '\r'), ('t', '\t'), ('\\', '\\'), ('"', '"')]

/-- A spelling of one byte within quoted text. -/
inductive Item : List UInt8 → UInt8 → Prop
  /-- A byte that stands for itself. -/
  | plain {byte : UInt8} (hbackslash : byte ≠ '\\'.toUInt8) (hquote : byte ≠ '"'.toUInt8) :
    Item [byte] byte
  /-- A backslash and a letter. -/
  | escape {letter char : Char} (hmem : (letter, char) ∈ escapes) :
    Item ['\\'.toUInt8, letter.toUInt8] char.toUInt8
  /-- The escape `\x` with two hexadecimal digits. -/
  | hex {high low byte : UInt8} (hpair : HexPair high.toNat low.toNat byte) :
    Item ['\\'.toUInt8, 'x'.toUInt8, high, low] byte

/-- A sequence of items, and the bytes that they spell in order. -/
inductive Items : List UInt8 → List UInt8 → Prop
  | nil : Items [] []
  | cons {item : List UInt8} {byte : UInt8} {written value : List UInt8}
    (hitem : Item item byte) (hrest : Items written value) :
    Items (item ++ written) (byte :: value)

/-- A byte literal and its value. -/
inductive Denotes : String → List UInt8 → Prop
  /-- The digits of the bytes. -/
  | hex {digits : String} {value : List UInt8} (h : HexPairs digits.toList value) :
    Denotes ("0x" ++ digits) value
  /-- Quoted text whose encoding spells the bytes. -/
  | quoted {body : String} {value : List UInt8} (h : Items body.toUTF8.data.toList value) :
    Denotes ("\"" ++ body ++ "\"") value

variable {code n : Nat} {byte : UInt8} {digits : List Char} {item written value : List UInt8}
  {text : String}

/-! ### Digits -/

theorem hexValue?_of_hexDigit (h : HexDigit code n) : hexValue? code = some (UInt8.ofNat n) := by
  have hdigit : ∀ n < 16, hexValue? n.digitChar.toNat = some (UInt8.ofNat n) ∧
      hexValue? n.digitChar.toUpper.toNat = some (UInt8.ofNat n) := by decide
  obtain ⟨hn, rfl | rfl⟩ := h
  · exact (hdigit n hn).1
  · exact (hdigit n hn).2

theorem hexDigit_of_hexValue? (h : hexValue? code = some byte) : HexDigit code byte.toNat := by
  have hdigit : ∀ n < 10, HexDigit (n + 0x30) n := by decide
  have hletter : ∀ n < 6, HexDigit (n + 0x41) (n + 10) ∧ HexDigit (n + 0x61) (n + 10) := by decide
  unfold hexValue? at h
  split_ifs at h with hdecimal hupper hlower
  · obtain ⟨n, rfl⟩ := Nat.exists_eq_add_of_le' hdecimal.1
    obtain rfl := Option.some.inj h
    rw [Nat.add_sub_cancel, UInt8.toNat_ofNat', Nat.mod_eq_of_lt (by omega)]
    exact hdigit n (by omega)
  · obtain ⟨n, rfl⟩ := Nat.exists_eq_add_of_le' hupper.1
    obtain rfl := Option.some.inj h
    rw [show n + 0x41 - 0x37 = n + 10 by omega, UInt8.toNat_ofNat', Nat.mod_eq_of_lt (by omega)]
    exact (hletter n (by omega)).1
  · obtain ⟨n, rfl⟩ := Nat.exists_eq_add_of_le' hlower.1
    obtain rfl := Option.some.inj h
    rw [show n + 0x61 - 0x57 = n + 10 by omega, UInt8.toNat_ofNat', Nat.mod_eq_of_lt (by omega)]
    exact (hletter n (by omega)).2

theorem hexByte?_eq_some_iff {high low : Nat} :
    hexByte? high low = some byte ↔ HexPair high low byte := by
  constructor
  · intro h
    unfold hexByte? at h
    split at h
    · next high' low' hhigh hlow =>
      obtain rfl := Option.some.inj h
      refine ⟨high'.toNat, low'.toNat, hexDigit_of_hexValue? hhigh, hexDigit_of_hexValue? hlow, ?_⟩
      have := (hexDigit_of_hexValue? hhigh).1
      have := (hexDigit_of_hexValue? hlow).1
      rw [UInt8.toNat_add, UInt8.toNat_mul]
      simp only [UInt8.reduceToNat]
      omega
    · cases h
  · rintro ⟨h, l, hhigh, hlow, hbyte⟩
    unfold hexByte?
    rw [hexValue?_of_hexDigit hhigh, hexValue?_of_hexDigit hlow]
    have := hhigh.1
    have := hlow.1
    refine congrArg some (UInt8.toNat_inj.1 ?_)
    rw [hbyte, UInt8.toNat_add, UInt8.toNat_mul, UInt8.toNat_ofNat', UInt8.toNat_ofNat']
    simp only [UInt8.reduceToNat]
    omega

theorem hexBytes?_eq_some_iff : hexBytes? digits = some value ↔ HexPairs digits value := by
  constructor
  · intro h
    fun_induction hexBytes? digits generalizing value with
    | case1 =>
      obtain rfl := Option.some.inj h
      exact .nil
    | case2 => cases h
    | case3 high low rest byte bytes hrest hpair ih =>
      obtain rfl := Option.some.inj h
      exact .cons (hexByte?_eq_some_iff.1 hpair) (ih hrest)
    | case4 => cases h
  · intro h
    induction h with
    | nil => rfl
    | cons hpair _ ih => rw [hexBytes?, hexByte?_eq_some_iff.2 hpair, ih]

/-- Every byte can be written in two digits, which are characters of one byte each. -/
theorem exists_hexPair (byte : UInt8) :
    ∃ high low : Char, HexPair high.toNat low.toNat byte ∧ high.toNat < 128 ∧ low.toNat < 128 := by
  have hsmall : ∀ n < 16, n.digitChar.toNat < 128 := by decide
  have hbyte := byte.toNat_lt
  have hhigh : byte.toNat / 16 < 16 := by omega
  have hlow : byte.toNat % 16 < 16 := by omega
  exact ⟨(byte.toNat / 16).digitChar, (byte.toNat % 16).digitChar,
    ⟨_, _, ⟨hhigh, .inl rfl⟩, ⟨hlow, .inl rfl⟩, by omega⟩, hsmall _ hhigh, hsmall _ hlow⟩

theorem exists_hexPairs (value : List UInt8) : ∃ digits, HexPairs digits value := by
  induction value with
  | nil => exact ⟨[], .nil⟩
  | cons byte value ih =>
    obtain ⟨digits, hdigits⟩ := ih
    obtain ⟨high, low, hpair, -⟩ := exists_hexPair byte
    exact ⟨high :: low :: digits, .cons hpair hdigits⟩

/-! ### Quoted text -/

theorem simpleEscape?_of_mem {letter char : Char} (h : (letter, char) ∈ escapes) :
    letter.toUInt8 ≠ 0x78 ∧ simpleEscape? letter.toUInt8 = some char.toUInt8 := by
  have hescapes : ∀ p ∈ escapes,
      p.1.toUInt8 ≠ 0x78 ∧ simpleEscape? p.1.toUInt8 = some p.2.toUInt8 := by decide
  exact hescapes _ h

theorem exists_of_simpleEscape? {letter : UInt8} (h : simpleEscape? letter = some byte) :
    ∃ p ∈ escapes, letter = p.1.toUInt8 ∧ byte = p.2.toUInt8 := by
  unfold simpleEscape? at h
  split_ifs at h with hn hr ht hbackslash hquote
  all_goals obtain rfl := Option.some.inj h
  · exact ⟨('n', '\n'), by decide, hn, rfl⟩
  · exact ⟨('r', '\r'), by decide, hr, rfl⟩
  · exact ⟨('t', '\t'), by decide, ht, rfl⟩
  · exact ⟨('\\', '\\'), by decide, hbackslash, rfl⟩
  · exact ⟨('"', '"'), by decide, hquote, rfl⟩

theorem unescape_cons (first : UInt8) (rest : List UInt8) :
    unescape (first :: rest) =
      if first = quote then .error .bareQuote
      else if first ≠ backslash then (unescape rest).map (first :: ·)
      else
        match rest with
        | [] => .error .danglingEscape
        | letter :: rest =>
          if letter = 0x78 then
            match rest with
            | high :: low :: rest =>
              match hexByte? high.toNat low.toNat with
              | some value => (unescape rest).map (value :: ·)
              | none => .error .hexEscape
            | _ => .error .hexEscape
          else
            match simpleEscape? letter with
            | some value => (unescape rest).map (value :: ·)
            | none => .error (.unknownEscape letter) :=
  unescape.eq_def _

/-- What is read of a text that begins with an item. -/
theorem unescape_item_append (hitem : Item item byte) (rest : List UInt8) :
    unescape (item ++ rest) = (unescape rest).map (byte :: ·) := by
  cases hitem with
  | plain hbackslash hquote =>
    have hquote : byte ≠ quote := hquote
    have hbackslash : byte ≠ backslash := hbackslash
    rw [List.singleton_append, unescape_cons, if_neg hquote, if_pos hbackslash]
  | escape hmem =>
    obtain ⟨hletter, hescape⟩ := simpleEscape?_of_mem hmem
    rw [List.cons_append, List.singleton_append, unescape_cons, if_neg (by decide),
      if_neg (by decide)]
    dsimp only
    rw [if_neg hletter, hescape]
  | hex hpair =>
    rw [List.cons_append, List.cons_append, unescape_cons, if_neg (by decide),
      if_neg (by decide)]
    dsimp only [List.cons_append, List.nil_append]
    rw [if_pos (by decide), hexByte?_eq_some_iff.2 hpair]

theorem exists_of_map_cons {read : Except Flaw (List UInt8)}
    (h : read.map (byte :: ·) = .ok value) : ∃ value', read = .ok value' ∧ value = byte :: value' := by
  cases read with
  | error flaw => cases h
  | ok value' => cases h; exact ⟨value', rfl, rfl⟩

/-- **A text that is read begins with an item**, unless it is empty, and what is read of it is
the byte of that item and then what is read of the rest. -/
theorem exists_item_of_unescape {first : UInt8} {rest : List UInt8}
    (h : unescape (first :: rest) = .ok value) :
    ∃ item byte written value', first :: rest = item ++ written ∧ item ≠ [] ∧ Item item byte ∧
      unescape written = .ok value' ∧ value = byte :: value' := by
  rw [unescape_cons] at h
  split_ifs at h with hquote hplain
  · -- a byte that stands for itself
    obtain ⟨value', hrest, rfl⟩ := exists_of_map_cons h
    exact ⟨[first], first, rest, value', rfl, List.cons_ne_nil _ _, .plain hplain hquote, hrest,
      rfl⟩
  · obtain rfl := not_not.1 hplain
    cases rest with
    | nil => cases h
    | cons letter rest =>
      dsimp only at h
      split_ifs at h with hx
      · -- the escape with two digits
        subst hx
        rcases rest with _ | ⟨high, _ | ⟨low, rest⟩⟩
        · cases h
        · cases h
        · dsimp only at h
          cases hbyte : hexByte? high.toNat low.toNat with
          | none => rw [hbyte] at h; cases h
          | some byte =>
            rw [hbyte] at h
            obtain ⟨value', hrest, rfl⟩ := exists_of_map_cons h
            exact ⟨_, byte, rest, value', rfl, List.cons_ne_nil _ _,
              .hex (hexByte?_eq_some_iff.1 hbyte), hrest, rfl⟩
      · -- an escape of one letter
        cases hescape : simpleEscape? letter with
        | none => rw [hescape] at h; cases h
        | some byte =>
          rw [hescape] at h
          obtain ⟨value', hrest, rfl⟩ := exists_of_map_cons h
          obtain ⟨p, hmem, rfl, rfl⟩ := exists_of_simpleEscape? hescape
          exact ⟨_, _, rest, value', rfl, List.cons_ne_nil _ _, .escape hmem, hrest, rfl⟩

/-- **Encoded text is read exactly if it can be cut into items**, and what is read are the bytes
that they spell. -/
theorem unescape_eq_ok_iff : unescape written = .ok value ↔ Items written value := by
  constructor
  · intro h
    induction hlen : written.length using Nat.strongRecOn generalizing written value with
    | ind length ih =>
      cases written with
      | nil => cases h; exact .nil
      | cons first rest =>
        obtain ⟨item, byte, written, value', heq, hne, hitem, hrest, rfl⟩ :=
          exists_item_of_unescape h
        rw [heq] at hlen ⊢
        have hshorter : written.length < length := by
          have := List.length_pos_iff.2 hne
          rw [← hlen, List.length_append]
          omega
        exact .cons hitem (ih _ hshorter hrest rfl)
  · intro h
    induction h with
    | nil => rw [unescape]
    | cons hitem _ ih => rw [unescape_item_append hitem, ih]; rfl

theorem encoded_toList (body : String) : encoded body.toList = body.toUTF8.data.toList := by
  rw [String.toUTF8_eq_toByteArray, ← String.utf8Encode_toList, List.utf8Encode,
    List.toList_data_toByteArray]
  rfl

theorem encoded_cons_of_ascii {c : Char} (hc : c.toNat < 128) (body : List Char) :
    encoded (c :: body) = c.toUInt8 :: encoded body := by
  have hsize : c.utf8Size = 1 := by
    rw [Char.utf8Size_eq_one_iff, UInt32.le_iff_toNat_le]
    exact Nat.le_of_lt_succ hc
  rw [encoded, List.flatMap_cons, String.utf8EncodeChar_eq_singleton hsize]
  rfl

theorem toNat_toUInt8_of_ascii {c : Char} (hc : c.toNat < 128) : c.toUInt8.toNat = c.toNat := by
  rw [Char.toUInt8, UInt32.toNat_toUInt8]
  exact Nat.mod_eq_of_lt (Nat.lt_trans hc (by decide))

/-- Every sequence of bytes can be spelt in quoted text. -/
theorem exists_items (value : List UInt8) : ∃ body : List Char, Items (encoded body) value := by
  induction value with
  | nil => exact ⟨[], .nil⟩
  | cons byte value ih =>
    obtain ⟨body, hbody⟩ := ih
    obtain ⟨high, low, hpair, hhigh, hlow⟩ := exists_hexPair byte
    refine ⟨'\\' :: 'x' :: high :: low :: body, ?_⟩
    rw [encoded_cons_of_ascii (by decide), encoded_cons_of_ascii (by decide),
      encoded_cons_of_ascii hhigh, encoded_cons_of_ascii hlow]
    rw [← toNat_toUInt8_of_ascii hhigh, ← toNat_toUInt8_of_ascii hlow] at hpair
    exact .cons (.hex hpair) hbody

/-! ### Whole literals -/

theorem bytes_of_toList_hex {digits : List Char} (h : text.toList = '0' :: 'x' :: digits) :
    bytes text = (hexBytes? digits).elim (.error .hexDigits) .ok := by
  simp only [bytes, h]
  cases hexBytes? digits <;> rfl

theorem bytes_of_toList_quoted {rest : List Char} (h : text.toList = '"' :: rest) :
    bytes text = if rest.getLast? = some '"' then unescape (encoded rest.dropLast)
      else .error .unquoted := by
  simp only [bytes, h]

theorem toList_hex (digits : String) : ("0x" ++ digits).toList = '0' :: 'x' :: digits.toList := by
  simp

theorem toList_quoted (body : String) :
    ("\"" ++ body ++ "\"").toList = '"' :: (body.toList ++ ['"']) := by
  simp

theorem bytes_hex (digits : String) :
    bytes ("0x" ++ digits) = (hexBytes? digits.toList).elim (.error .hexDigits) .ok :=
  bytes_of_toList_hex (toList_hex digits)

theorem bytes_quoted (body : String) :
    bytes ("\"" ++ body ++ "\"") = unescape body.toUTF8.data.toList := by
  rw [bytes_of_toList_quoted (toList_quoted body), if_pos List.getLast?_concat,
    List.dropLast_concat, encoded_toList]

/-- A text that has a value is of one of the two forms. -/
theorem form_of_bytes (h : bytes text = .ok value) :
    (∃ digits, text = "0x" ++ digits) ∨ ∃ body, text = "\"" ++ body ++ "\"" := by
  unfold bytes at h
  split at h
  · next digits htext =>
    refine .inl ⟨String.ofList digits, String.toList_inj.1 ?_⟩
    rw [htext, toList_hex, String.toList_ofList]
  · next rest htext =>
    split_ifs at h with hlast
    refine .inr ⟨String.ofList rest.dropLast, String.toList_inj.1 ?_⟩
    rw [htext, toList_quoted, String.toList_ofList, List.dropLast_append_getLast? '"' hlast]
  · cases h

theorem bytes_eq_ok_iff : bytes text = .ok value ↔ Denotes text value := by
  constructor
  · intro h
    obtain ⟨digits, rfl⟩ | ⟨body, rfl⟩ := form_of_bytes h
    · rw [bytes_hex] at h
      cases hdigits : hexBytes? digits.toList with
      | none => rw [hdigits] at h; cases h
      | some value' =>
        rw [hdigits] at h
        cases h
        exact .hex (hexBytes?_eq_some_iff.1 hdigits)
    · rw [bytes_quoted] at h
      exact .quoted (unescape_eq_ok_iff.1 h)
  · intro h
    cases h with
    | hex h => rw [bytes_hex, hexBytes?_eq_some_iff.2 h]; rfl
    | quoted h => rw [bytes_quoted, unescape_eq_ok_iff.2 h]

theorem parse_eq_ok_iff : parse text = .ok value ↔ bytes text = .ok value := by
  unfold parse
  cases bytes text <;> simp [Except.mapError]

theorem exists_denotes_hex (value : List UInt8) : ∃ digits, Denotes ("0x" ++ digits) value := by
  obtain ⟨digits, h⟩ := exists_hexPairs value
  exact ⟨String.ofList digits, .hex (by rwa [String.toList_ofList])⟩

theorem exists_denotes_quoted (value : List UInt8) :
    ∃ body, Denotes ("\"" ++ body ++ "\"") value := by
  obtain ⟨body, h⟩ := exists_items value
  exact ⟨String.ofList body, .quoted (by rwa [← encoded_toList, String.toList_ofList])⟩

/-- **The parser of byte literals accepts exactly those of the grammar, with their values.** It
refuses every other text with an error that carries the text, and every sequence of bytes is the
value of some literal of each form. -/
theorem parse_eq_ok_iff_denotes :
    (∀ text value, parse text = .ok value ↔ Denotes text value) ∧
    (∀ text, (¬ ∃ value, Denotes text value) ↔
      ∃ flaw : Flaw, parse text = .error (.unplaced (.literalFormat text flaw.reason))) ∧
    ∀ value, (∃ digits, parse ("0x" ++ digits) = .ok value) ∧
      ∃ body, parse ("\"" ++ body ++ "\"") = .ok value := by
  have hiff : ∀ text value, parse text = .ok value ↔ Denotes text value :=
    fun _ _ => parse_eq_ok_iff.trans bytes_eq_ok_iff
  refine ⟨hiff, fun text => ?_, fun value => ?_⟩
  · simp only [← bytes_eq_ok_iff]
    unfold parse
    cases bytes text with
    | ok value =>
      refine iff_of_false (fun hnone => hnone ⟨value, rfl⟩) ?_
      rintro ⟨flaw, h⟩
      cases h
    | error flaw =>
      refine iff_of_true ?_ ⟨flaw, rfl⟩
      rintro ⟨value, h⟩
      cases h
  · obtain ⟨digits, hdigits⟩ := exists_denotes_hex value
    obtain ⟨body, hbody⟩ := exists_denotes_quoted value
    exact ⟨⟨digits, (hiff _ _).2 hdigits⟩, body, (hiff _ _).2 hbody⟩

end Literal

end ContractLang
