import BlockExchange.Bytes

/-!
# Base 32 text

Five bits a character, most significant first, in the lower-case alphabet `a`–`z`, `2`–`7`, the last
character filled up with zero bits and nothing after it.
-/

namespace BlockExchange.Base32

def digit (n : Nat) : Char :=
  if n < 26 then Char.ofNat (n + 97) else Char.ofNat (n + 24)

/-- The characters of the `count` low digits of `n`, most significant first. -/
def digits : (count : Nat) → (n : Nat) → List Char
  | 0, _ => []
  | count + 1, n => digits count (n / 32) ++ [digit (n % 32)]

/-- Five bytes make eight characters; a shorter tail makes as many as its bits need. -/
def encodeChars : Bytes → List Char
  | a :: b :: c :: d :: e :: rest => digits 8 (Bytes.toNat [a, b, c, d, e]) ++ encodeChars rest
  | [] => []
  | tail => digits ((tail.length * 8 + 4) / 5) (Bytes.toNat tail <<< ((5 - tail.length * 8 % 5) % 5))

def encode (b : Bytes) : String :=
  String.ofList (encodeChars b)

end BlockExchange.Base32
