import BlockExchange.Frame
import BlockExchange.Stream.GrowingBuffer
import BlockExchange.Stream.ReadAhead

/-!
# Reading messages from a pipe

A `FrameReader` takes bytes from a pipe until they make a message (`next`). It asks for as many
bytes as its buffer has room for. After an error it says once that there is nothing more, and then
looks at new bytes again.
-/

namespace BlockExchange

structure FrameReader where
  codec : FrameCodec := { maxSize := maxFrameSize }
  ahead : ReadAhead := {}
  /-- Bytes that were read and make no message yet. -/
  buffer : GrowingBuffer := {}
  /-- Whether the buffer may hold a whole frame. -/
  readable : Bool := false
  /-- Whether the pipe was at its end at the last look. -/
  ended : Bool := false
  /-- Whether the last answer was an error, after which the next is the end. -/
  errored : Bool := false

inductive Inbound
  | pending
  | ended
  | failed (e : CodecError)
  | message (m : Message)

/-- The buffer after a look for a message. A header that was read is taken off and room is made for
the body; a body that was read is cut off and room is made for the next header. -/
def GrowingBuffer.follow (b : GrowingBuffer) (codec : FrameCodec) (step : FrameCodec.Step) :
    GrowingBuffer :=
  let left := step.buffer.length
  let taken := b.content.length - left
  let header := if codec.awaited.isSome then 0 else min taken FrameCodec.headerSize
  let b := b.drop header
  match step.codec.awaited with
  | some n => b.reserve false (n - left)
  | none =>
    if codec.awaited.isSome || 0 < header then
      (b.cut (taken - header)).reserve true (FrameCodec.headerSize - left)
    else b

namespace FrameReader

/-- Looks for a message in the buffer; `none` when more bytes are needed. -/
def attempt (r : FrameReader) : FrameReader × Option Inbound :=
  if !r.readable then (r, none)
  else
    let bytes := r.buffer.content
    let step := if r.ended then r.codec.decodeAtEnd bytes else r.codec.decode bytes
    let r := { r with codec := step.codec, buffer := r.buffer.follow r.codec step }
    match step.result with
    | .error e => ({ r with errored := true }, some (.failed e))
    | .ok (some m) => (r, some (.message m))
    | .ok none => ({ r with readable := false }, if r.ended then some .ended else none)

/-- Reads on until there is something to tell or the pipe is empty. -/
def read (r : FrameReader) (p : Pipe) : FrameReader × Pipe × Inbound :=
  match r.attempt with
  | (next, some answer) => (next, p, answer)
  | (next, none) =>
    let buffer := next.buffer.reserve false 1
    let (ahead, rest, bytes) := r.ahead.read p buffer.room
    let next := { next with ahead, buffer }
    match bytes with
    | none => (next, rest, .pending)
    | some [] =>
      if next.ended then (next, rest, .ended)
      else
        let (next, answer) := attempt { next with ended := true, readable := true }
        (next, rest, answer.getD .ended)
    | some bytes =>
      if ahead.held.length + rest.content.length < r.ahead.held.length + p.content.length then
        read { next with buffer := buffer.append bytes, ended := false, readable := true } rest
      else (next, rest, .pending)
termination_by r.ahead.held.length + p.content.length

/-- The next thing that the pipe has to tell. -/
def next (r : FrameReader) (p : Pipe) : FrameReader × Pipe × Inbound :=
  if r.errored then ({ r with readable := false, errored := false }, p, .ended) else r.read p

end FrameReader
end BlockExchange
