import BlockExchange.Protobuf.Key
import BlockExchange.Text.Utf8

/-!
# Writing fields

One writer for each kind of field, and beside each the length of what it writes. A number, a byte
string or a text that is empty or zero is left out; a nested message never is. Signed numbers of 32
bits are written as 64-bit two's complement (`signed`).
-/

namespace BlockExchange.Protobuf

/-- The number that stands for a signed one: itself, or its complement to 2^64. -/
def signed (x : Int32) : Nat :=
  (x.toInt % 0x10000000000000000).toNat

/-- The signed number that a written number stands for: its low 32 bits. -/
def ofSigned (n : Nat) : Int32 :=
  Int32.ofInt n

theorem ofSigned_signed (x : Int32) : ofSigned (signed x) = x := by
  unfold ofSigned signed
  rw [Int.toNat_of_nonneg (Int.emod_nonneg _ (by decide)), ← Int32.toInt_inj, Int32.toInt_ofInt]
  have h : (x.toInt % 0x10000000000000000).bmod Int32.size = x.toInt.bmod Int32.size := by
    rw [Int.bmod_def, Int.bmod_def, Int.emod_emod_of_dvd _ (by decide)]
  rw [h, ← Int32.toInt_ofInt, Int32.ofInt_toInt]

def writeNumber (tag n : Nat) : Bytes :=
  if n = 0 then [] else Varint.encode (key tag .varint) ++ Varint.encode n

def numberLength (tag n : Nat) : Nat :=
  if n = 0 then 0 else Varint.length (key tag .varint) + Varint.length n

@[simp] theorem length_writeNumber (tag n : Nat) :
    (writeNumber tag n).length = numberLength tag n := by
  unfold writeNumber numberLength; split <;> simp

def writeFlag (tag : Nat) (b : Bool) : Bytes :=
  writeNumber tag b.toNat

def flagLength (tag : Nat) (b : Bool) : Nat :=
  numberLength tag b.toNat

@[simp] theorem length_writeFlag (tag : Nat) (b : Bool) :
    (writeFlag tag b).length = flagLength tag b :=
  length_writeNumber ..

def writeDelimited (tag : Nat) (body : Bytes) : Bytes :=
  Varint.encode (key tag .lengthDelimited) ++ Varint.encode body.length ++ body

/-- The length of a field whose value has `n` bytes behind its length. -/
def delimitedLength (tag n : Nat) : Nat :=
  Varint.length (key tag .lengthDelimited) + Varint.length n + n

@[simp] theorem length_writeDelimited (tag : Nat) (body : Bytes) :
    (writeDelimited tag body).length = delimitedLength tag body.length := by
  simp [writeDelimited, delimitedLength, Nat.add_assoc]

def writeBytes (tag : Nat) (b : Bytes) : Bytes :=
  if b.isEmpty then [] else writeDelimited tag b

/-- The length of a byte string's field, given the length of the byte string. -/
def bytesLength (tag n : Nat) : Nat :=
  if n = 0 then 0 else delimitedLength tag n

@[simp] theorem length_writeBytes (tag : Nat) (b : Bytes) :
    (writeBytes tag b).length = bytesLength tag b.length := by
  cases b <;> simp [writeBytes, bytesLength]

def writeText (tag : Nat) (s : String) : Bytes :=
  writeBytes tag (Text.utf8 s)

end BlockExchange.Protobuf
