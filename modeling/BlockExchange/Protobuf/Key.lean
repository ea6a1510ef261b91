import BlockExchange.Varint

/-!
# Field keys

A protobuf message is a run of fields, each a key and a value. The key holds the field's tag and its
wire type, which says how far the value reaches.
-/

namespace BlockExchange.Protobuf

inductive WireType
  | varint
  | sixtyFourBit
  | lengthDelimited
  | startGroup
  | endGroup
  | thirtyTwoBit
deriving DecidableEq, Repr

namespace WireType

def toNat : WireType → Nat
  | .varint => 0
  | .sixtyFourBit => 1
  | .lengthDelimited => 2
  | .startGroup => 3
  | .endGroup => 4
  | .thirtyTwoBit => 5

def ofNat? : Nat → Option WireType
  | 0 => some .varint
  | 1 => some .sixtyFourBit
  | 2 => some .lengthDelimited
  | 3 => some .startGroup
  | 4 => some .endGroup
  | 5 => some .thirtyTwoBit
  | _ => none

@[simp] theorem ofNat?_toNat (w : WireType) : ofNat? w.toNat = some w := by
  cases w <;> rfl

def name : WireType → String
  | .varint => "Varint"
  | .sixtyFourBit => "SixtyFourBit"
  | .lengthDelimited => "LengthDelimited"
  | .startGroup => "StartGroup"
  | .endGroup => "EndGroup"
  | .thirtyTwoBit => "ThirtyTwoBit"

end WireType

/-- The number that stands for a field's tag and wire type. -/
def key (tag : Nat) (w : WireType) : Nat :=
  tag * 8 + w.toNat

/-- No key is larger. -/
def maxKey : Nat := 0xffffffff

end BlockExchange.Protobuf
