import BlockExchange.Bytes

/-!
# Base 58 text

A byte string read as one big-endian number and written in base 58, in the alphabet that leaves out
`0`, `O`, `I` and `l`. Each leading zero byte is written as a leading `1`.
-/

namespace BlockExchange.Base58

def alphabet : List Char :=
  "123456789ABCDEFGHJKLMNPQRSTUVWXYZabcdefghijkmnopqrstuvwxyz".toList

def digit (n : Nat) : Char :=
  alphabet.getD n '1'

/-- The digits of `n`, most significant first; none for zero. -/
def digits (n : Nat) : List Char :=
  if n = 0 then [] else digits (n / 58) ++ [digit (n % 58)]
termination_by n
decreasing_by omega

def encode (b : Bytes) : String :=
  String.ofList ((b.takeWhile (· == 0)).map (fun _ => '1') ++ digits b.toNat)

end BlockExchange.Base58
