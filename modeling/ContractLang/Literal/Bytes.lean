/-!
# Byte literals

A byte literal is written in one of two ways: as `0x` followed by pairs of
hexadecimal digits, or as text between double quotes. The value of the first is
the bytes of its pairs; the value of the second is the UTF-8 encoding of the
text, in which a backslash begins an escape.

Escapes are read byte by byte (`ContractLang.Literal.unescape`), so that what
they stand for need not be text; `ContractLang.Literal.bytes` is the value of a
whole literal, or the flaw that keeps it from having one.
-/

namespace ContractLang

namespace Literal

/-- What is wrong with a byte literal. -/
inductive Flaw where
  /-- What follows `0x` is not a sequence of digit pairs. -/
  | hexDigits
  /-- The literal is of neither form. -/
  | unquoted
  /-- The text holds a double quote without a backslash. -/
  | bareQuote
  /-- Two hexadecimal digits do not follow `\x`. -/
  | hexEscape
  /-- No escape begins with this byte. -/
  | unknownEscape (byte : UInt8)
  /-- The text ends in a backslash. -/
  | danglingEscape
  deriving DecidableEq, Repr

/-- The text of a flaw. -/
def Flaw.reason : Flaw → String
  | hexDigits => "odd or invalid hex digits"
  | unquoted => "expected quoted string or hex"
  | bareQuote => "unescaped quote"
  | hexEscape => "\\x needs two hex digits"
  | unknownEscape byte => "unknown escape \\" ++ (Char.ofUInt8 byte).toString
  | danglingEscape => "dangling escape"

/-! ### Hexadecimal digits -/

/-- The value of the hexadecimal digit with the given code, in either case. -/
def hexValue? (code : Nat) : Option UInt8 :=
  if 0x30 ≤ code ∧ code ≤ 0x39 then some (UInt8.ofNat (code - 0x30))
  else if 0x41 ≤ code ∧ code ≤ 0x46 then some (UInt8.ofNat (code - 0x37))
  else if 0x61 ≤ code ∧ code ≤ 0x66 then some (UInt8.ofNat (code - 0x57))
  else none

/-- The byte that two hexadecimal digits write. -/
def hexByte? (high low : Nat) : Option UInt8 :=
  match hexValue? high, hexValue? low with
  | some h, some l => some (16 * h + l)
  | _, _ => none

/-- The bytes that a sequence of digit pairs writes. -/
def hexBytes? : List Char → Option (List UInt8)
  | [] => some []
  | [_] => none
  | high :: low :: rest =>
    match hexByte? high.toNat low.toNat, hexBytes? rest with
    | some byte, some bytes => some (byte :: bytes)
    | _, _ => none

/-! ### Quoted text -/

/-- The double quote. -/
def quote : UInt8 := 0x22

/-- The backslash. -/
def backslash : UInt8 := 0x5C

/-- The byte that a backslash and a single letter stand for. -/
def simpleEscape? (letter : UInt8) : Option UInt8 :=
  if letter = 0x6E then some 0x0A
  else if letter = 0x72 then some 0x0D
  else if letter = 0x74 then some 0x09
  else if letter = backslash then some backslash
  else if letter = quote then some quote
  else none

/-- The bytes that the encoded text of a literal stands for. -/
def unescape : List UInt8 → Except Flaw (List UInt8)
  | [] => .ok []
  | byte :: rest =>
    if byte = quote then .error .bareQuote
    else if byte ≠ backslash then (unescape rest).map (byte :: ·)
    else
      match rest with
      | [] => .error .danglingEscape
      | letter :: rest =>
        if letter = 0x78 then
          match rest with
          | high :: low :: rest =>
            match hexByte? high.toNat low.toNat with
            | some value => (unescape rest).map (value :: ·)
            | none => .error .hexEscape
          | _ => .error .hexEscape
        else
          match simpleEscape? letter with
          | some value => (unescape rest).map (value :: ·)
          | none => .error (.unknownEscape letter)

/-- The UTF-8 encoding of a text. -/
def encoded (text : List Char) : List UInt8 :=
  text.flatMap String.utf8EncodeChar

/-- The value of a byte literal. -/
def bytes (text : String) : Except Flaw (List UInt8) :=
  match text.toList with
  | '0' :: 'x' :: digits =>
    match hexBytes? digits with
    | some value => .ok value
    | none => .error .hexDigits
  | '"' :: rest =>
    if rest.getLast? = some '"' then unescape (encoded rest.dropLast)
    else .error .unquoted
  | _ => .error .unquoted

end Literal

end ContractLang
