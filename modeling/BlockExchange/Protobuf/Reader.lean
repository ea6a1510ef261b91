import BlockExchange.Protobuf.Error
import BlockExchange.Text.Utf8

/-!
# Reading fields

A `Reader` takes values off the front of a `Cursor`, the unread input together with its length.
Fields come in any order; a field that a message does not know is skipped (`skipField`), whatever
groups it holds. The length of a nested value is checked against all the input that is left, and
only when the fields of a nested message have been read is it seen whether they overran it
(`readMessage`). Messages and groups nest at most `maxDepth` deep.
-/

namespace BlockExchange.Protobuf

structure Cursor where
  bytes : Bytes
  size : Nat
  size_eq : size = bytes.length

namespace Cursor

def ofBytes (b : Bytes) : Cursor := ⟨b, b.length, rfl⟩

/-- The first `n` bytes and the rest, if there are so many. -/
def splitAt? (n : Nat) (c : Cursor) : Option (Bytes × Cursor) :=
  if n ≤ c.size then
    let r := c.bytes.splitAt n
    some (r.1, ⟨r.2, c.size - n, by simp [r, c.size_eq]⟩)
  else none

def varint? (c : Cursor) : Option (Nat × Cursor) :=
  match h : Varint.read? c.bytes with
  | none => none
  | some (n, rest) =>
    some (n, ⟨rest, c.size - Varint.spelledLength c.bytes, by
      have := Varint.length_of_readWithin h
      rw [c.size_eq]
      omega⟩)

end Cursor

/-- How deep messages and groups may nest. -/
def maxDepth : Nat := 100

abbrev Reader := StateT Cursor (Except DecodeError)

namespace Reader

def fail {α : Type} (f : Fault) : Reader α :=
  throw { fault := f }

/-- Reports a failure of `r` as one inside the named field. -/
def within {α : Type} (name : FieldName) (r : Reader α) : Reader α := fun c =>
  (r.run c).mapError (·.within name)

def remaining : Reader Nat := do
  return (← get).size

def varint : Reader Nat := fun c =>
  match c.varint? with
  | some r => .ok r
  | none => .error { fault := .invalidVarint }

def take (n : Nat) : Reader Bytes := fun c =>
  match c.splitAt? n with
  | some r => .ok r
  | none => .error { fault := .bufferUnderflow }

def key : Reader (Nat × WireType) := do
  let n ← varint
  if maxKey < n then fail (.invalidKey n)
  match WireType.ofNat? (n % 8) with
  | none => fail (.invalidWireType (n % 8))
  | some w => if n / 8 = 0 then fail .invalidTag else return (n / 8, w)

/-- Refuses a value of another wire type than the field's. -/
def expect (expected actual : WireType) : Reader Unit :=
  if actual = expected then pure () else fail (.wireTypeMismatch actual expected)

def number (w : WireType) : Reader Nat := do
  expect .varint w
  varint

def flag (w : WireType) : Reader Bool := do
  return (← number w) ≠ 0

def signed (w : WireType) : Reader Int32 := do
  return Int32.ofInt (← number w)

def bytes (w : WireType) : Reader Bytes := do
  expect .lengthDelimited w
  take (← varint)

def text (w : WireType) : Reader String := do
  match Text.ofUtf8? (← bytes w) with
  | some s => return s
  | none => fail .invalidText

/-- Skips the fields of a group up to the end mark with the group's own tag. The bound on the number
of fields is never met, as each field has at least one byte. -/
def skipGroup (skip : WireType → Nat → Reader Unit) (tag : Nat) : (bound : Nat) → Reader Unit
  | 0 => fail .invalidVarint
  | bound + 1 => do
    let (t, w) ← key
    if w = .endGroup then
      if t = tag then pure () else fail .unexpectedEndGroup
    else
      skip w t
      skipGroup skip tag bound

/-- Skips the value of a field that nothing is known about. -/
def skipField : (depth : Nat) → WireType → (tag : Nat) → Reader Unit
  | 0, _, _ => fail .recursionLimit
  | depth + 1, w, tag =>
    match w with
    | .varint => discard varint
    | .thirtyTwoBit => discard (take 4)
    | .sixtyFourBit => discard (take 8)
    | .lengthDelimited => do discard (take (← varint))
    | .startGroup => do skipGroup (skipField depth) tag ((← remaining) + 1)
    | .endGroup => fail .unexpectedEndGroup

end Reader

/-- How one kind of message reads its fields: for each tag that it knows, the field's name and a
reader that adds the field to what has been read of the message. -/
structure Schema (α : Type) where
  name : String
  field? : (tag : Nat) → Option (String × ((depth : Nat) → WireType → α → Reader α))

namespace Schema

variable {α : Type}

def readField (S : Schema α) (depth : Nat) (a : α) : Reader α := do
  let (tag, w) ← Reader.key
  match S.field? tag with
  | some (field, read) => (read depth w a).within ⟨S.name, field⟩
  | none => do
    Reader.skipField depth w tag
    return a

/-- Reads fields until no more than `stop` bytes are left. The bound on the number of fields is
never met, as each field has at least one byte. -/
def readFields (S : Schema α) (depth stop : Nat) : (bound : Nat) → α → Reader α
  | 0, a => pure a
  | bound + 1, a => do
    if (← Reader.remaining) ≤ stop then pure a
    else readFields S depth stop bound (← readField S depth a)

/-- Reads a nested message into `a`, which holds what earlier fields gave. -/
def readMessage (S : Schema α) (depth : Nat) (w : WireType) (a : α) : Reader α := do
  Reader.expect .lengthDelimited w
  match depth with
  | 0 => Reader.fail .recursionLimit
  | depth + 1 =>
    let n ← Reader.varint
    let size ← Reader.remaining
    if size < n then Reader.fail .bufferUnderflow
    let a ← readFields S depth (size - n) size a
    if (← Reader.remaining) = size - n then return a
    else Reader.fail .delimitedLengthExceeded

/-- Reads a whole byte string as one message, starting from the empty one. -/
def decode (S : Schema α) (empty : α) (b : Bytes) : Except DecodeError α := do
  let c := Cursor.ofBytes b
  let (a, _) ← (readFields S maxDepth 0 c.size empty).run c
  return a

end Schema
end BlockExchange.Protobuf
