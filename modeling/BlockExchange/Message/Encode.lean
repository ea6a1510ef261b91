import BlockExchange.Message.Basic
import BlockExchange.Protobuf.Writer
import BlockExchange.Total

/-!
# Encoding messages

The protobuf form of a message and of the records in it, and their lengths without encoding them
(`length_encode` for each). `fieldLength` is what a record adds to the message around it.
-/

namespace BlockExchange

open Protobuf

namespace Entry

def tag : Nat := 1

def encode (e : Entry) : Bytes :=
  writeBytes 1 e.block ++ writeNumber 2 (signed e.priority) ++ writeFlag 3 e.cancel
    ++ writeNumber 4 (signed e.wantType) ++ writeFlag 5 e.sendDontHave ++ writeBytes 6 e.auth

def encodedLength (e : Entry) : Nat :=
  bytesLength 1 e.block.length + numberLength 2 (signed e.priority) + flagLength 3 e.cancel
    + numberLength 4 (signed e.wantType) + flagLength 5 e.sendDontHave
    + bytesLength 6 e.auth.length

@[simp] theorem length_encode (e : Entry) : e.encode.length = e.encodedLength := by
  simp [encode, encodedLength, Nat.add_assoc]

def fieldLength (e : Entry) : Nat :=
  delimitedLength tag e.encodedLength

def write (e : Entry) : Bytes :=
  writeDelimited tag e.encode

@[simp] theorem length_write (e : Entry) : e.write.length = e.fieldLength := by
  simp [write, fieldLength]

end Entry

namespace Wantlist

def tag : Nat := 1

def encode (w : Wantlist) : Bytes :=
  w.entries.flatMap Entry.write ++ writeFlag 2 w.full

def encodedLength (w : Wantlist) : Nat :=
  total Entry.fieldLength w.entries + flagLength 2 w.full

@[simp] theorem length_encode (w : Wantlist) : w.encode.length = w.encodedLength := by
  simp [encode, encodedLength, length_flatMap_total, -List.length_flatMap]

def write (w : Wantlist) : Bytes :=
  writeDelimited tag w.encode

def fieldLength (w : Wantlist) : Nat :=
  delimitedLength tag w.encodedLength

@[simp] theorem length_write (w : Wantlist) : w.write.length = w.fieldLength := by
  simp [write, fieldLength]

end Wantlist

namespace BlockRecord

def tag : Nat := 3

def encode (b : BlockRecord) : Bytes :=
  writeBytes 1 b.cidPrefix ++ writeBytes 2 b.data ++ writeBytes 3 b.auth

def encodedLength (b : BlockRecord) : Nat :=
  bytesLength 1 b.cidPrefix.length + bytesLength 2 b.data.length + bytesLength 3 b.auth.length

@[simp] theorem length_encode (b : BlockRecord) : b.encode.length = b.encodedLength := by
  simp [encode, encodedLength, Nat.add_assoc]

def fieldLength (b : BlockRecord) : Nat :=
  delimitedLength tag b.encodedLength

def write (b : BlockRecord) : Bytes :=
  writeDelimited tag b.encode

@[simp] theorem length_write (b : BlockRecord) : b.write.length = b.fieldLength := by
  simp [write, fieldLength]

end BlockRecord

namespace Presence

def tag : Nat := 4

def encode (p : Presence) : Bytes :=
  writeBytes 1 p.cid ++ writeNumber 2 (signed p.type) ++ writeBytes 3 p.auth

def encodedLength (p : Presence) : Nat :=
  bytesLength 1 p.cid.length + numberLength 2 (signed p.type) + bytesLength 3 p.auth.length

@[simp] theorem length_encode (p : Presence) : p.encode.length = p.encodedLength := by
  simp [encode, encodedLength, Nat.add_assoc]

def fieldLength (p : Presence) : Nat :=
  delimitedLength tag p.encodedLength

def write (p : Presence) : Bytes :=
  writeDelimited tag p.encode

@[simp] theorem length_write (p : Presence) : p.write.length = p.fieldLength := by
  simp [write, fieldLength]

end Presence

namespace Message

def traceIdTag : Nat := 6

/-- The length of a message with nothing but this trace id. -/
def baseLength (traceId : String) : Nat :=
  bytesLength traceIdTag traceId.utf8ByteSize

/-- The length of the wantlist's field in a message, given that of its entries. -/
def wantlistLength (entriesLength : Nat) : Nat :=
  delimitedLength Wantlist.tag entriesLength

def encode (m : Message) : Bytes :=
  (match m.wantlist with
    | none => []
    | some w => w.write)
  ++ m.payload.flatMap BlockRecord.write ++ m.presences.flatMap Presence.write
  ++ writeNumber 5 (signed m.pendingBytes) ++ writeText traceIdTag m.traceId

def encodedLength (m : Message) : Nat :=
  (match m.wantlist with
    | none => 0
    | some w => w.fieldLength)
  + total BlockRecord.fieldLength m.payload + total Presence.fieldLength m.presences
  + numberLength 5 (signed m.pendingBytes) + baseLength m.traceId

@[simp] theorem length_encode (m : Message) : m.encode.length = m.encodedLength := by
  cases h : m.wantlist <;>
    simp [encode, encodedLength, h, length_flatMap_total, -List.length_flatMap, writeText, baseLength, Nat.add_assoc]

end Message
end BlockExchange
