import BlockExchange.Message.Encode

/-!
# Packing records into messages

A `Batch` fills one message after the other with records and closes a message when the next record
would take it past the size limit. A record that is larger than the limit goes out in a message of
its own. Lengths are counted as records are pushed and never measured: the open message's length is
`openLength`, and an entry costs its own length and what it adds to the length of the wantlist
around it.
-/

namespace BlockExchange

structure Batch where
  maxSize : Nat
  traceId : String
  closed : List Message := []
  opened : Message := .traced traceId
  openLength : Nat := Message.baseLength traceId
  /-- The length of the entries in the message being filled. -/
  entriesLength : Nat := 0

namespace Batch

def entryCost (b : Batch) (n : Nat) : Nat :=
  Message.wantlistLength (b.entriesLength + n)
    - (if b.entriesLength = 0 then 0 else Message.wantlistLength b.entriesLength)

/-- Closes the open message if it holds a record and has no room for `cost` more bytes. -/
def makeRoom (b : Batch) (cost : Nat) : Batch :=
  if !b.opened.isEmpty && b.maxSize < b.openLength + cost then
    { maxSize := b.maxSize, traceId := b.traceId, closed := b.closed ++ [b.opened] }
  else b

def pushEntry (b : Batch) (e : Entry) : Batch :=
  let n := e.fieldLength
  let b := b.makeRoom (b.entryCost n)
  let list := b.opened.wantlist.getD {}
  { b with
    openLength := b.openLength + b.entryCost n
    entriesLength := b.entriesLength + n
    opened := { b.opened with wantlist := some { list with entries := list.entries ++ [e] } } }

def pushPresence (b : Batch) (p : Presence) : Batch :=
  let n := p.fieldLength
  let b := b.makeRoom n
  { b with
    openLength := b.openLength + n
    opened := { b.opened with presences := b.opened.presences ++ [p] } }

def pushBlock (b : Batch) (r : BlockRecord) : Batch :=
  let n := r.fieldLength
  let b := b.makeRoom n
  { b with
    openLength := b.openLength + n
    opened := { b.opened with payload := b.opened.payload ++ [r] } }

/-- All the messages, the open one too if it holds a record. -/
def finish (b : Batch) : List Message :=
  if b.opened.isEmpty then b.closed else b.closed ++ [b.opened]

end Batch

/-- The messages that hold these records, entries before presences before blocks, each under the
trace id and within `maxSize` bytes unless it holds a single record. -/
def pack (maxSize : Nat) (traceId : String) (entries : List Entry) (presences : List Presence)
    (blocks : List BlockRecord) : List Message :=
  let b : Batch := { maxSize, traceId }
  let b := entries.foldl Batch.pushEntry b
  let b := presences.foldl Batch.pushPresence b
  (blocks.foldl Batch.pushBlock b).finish

end BlockExchange
