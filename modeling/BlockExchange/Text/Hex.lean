import BlockExchange.Text.Utf8

/-!
# Hexadecimal text

Two digits a byte, lower case when written (`encode`), either case when read (`decode`). An odd
length and a stray digit are told apart, and a stray digit is named by its place.
-/

namespace BlockExchange.Hex

/-- Why a text is not hexadecimal. A stray digit is named by its byte and its place in the text. -/
inductive Error
  | oddLength
  | invalidDigit (byte : UInt8) (position : Nat)
deriving DecidableEq, Repr

def digit (n : Nat) : Char :=
  if n < 10 then Char.ofNat (n + 48) else Char.ofNat (n + 87)

def digitValue? (b : UInt8) : Option Nat :=
  if 48 ≤ b ∧ b ≤ 57 then some (b.toNat - 48)
  else if 97 ≤ b ∧ b ≤ 102 then some (b.toNat - 87)
  else if 65 ≤ b ∧ b ≤ 70 then some (b.toNat - 55)
  else none

def encode (b : Bytes) : String :=
  String.ofList (b.flatMap fun x => [digit (x.toNat / 16), digit (x.toNat % 16)])

/-- Reads digit pairs; `position` is where the next pair stands in the text. -/
def decodePairs (position : Nat) : Bytes → Except Error Bytes
  | high :: low :: rest => do
    let some h := digitValue? high | throw (.invalidDigit high position)
    let some l := digitValue? low | throw (.invalidDigit low (position + 1))
    let bytes ← decodePairs (position + 2) rest
    return UInt8.ofNat (h * 16 + l) :: bytes
  | _ => return []

/-- Reads a hexadecimal text. An odd number of bytes is reported before any stray digit. -/
def decode (s : String) : Except Error Bytes :=
  let b := Text.utf8 s
  if b.length % 2 = 1 then throw .oddLength else decodePairs 0 b

/-- A number in lower-case hexadecimal, without leading zeros. -/
def ofNat (n : Nat) : String :=
  String.ofList (Nat.toDigits 16 n)

/-- The text of a byte as a quoted character, the way a stray digit is reported. -/
def quotedByte (b : UInt8) : String :=
  if b = 0 then "'\\0'"
  else if b = 9 then "'\\t'"
  else if b = 10 then "'\\n'"
  else if b = 13 then "'\\r'"
  else if b = 39 then "'\\''"
  else if b = 92 then "'\\\\'"
  else if b < 32 ∨ (127 ≤ b ∧ b ≤ 160) ∨ b = 173 then
    "'\\u\x7b" ++ ofNat b.toNat ++ "\x7d'"
  else "'" ++ String.singleton (Char.ofNat b.toNat) ++ "'"

def Error.message : Error → String
  | .oddLength => "Odd number of digits"
  | .invalidDigit byte position =>
    "Invalid character " ++ quotedByte byte ++ " at position " ++ toString position

end BlockExchange.Hex
