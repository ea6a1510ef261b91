import BlockExchange.Frame
import BlockExchange.Pipe

/-!
# Far ends

The other end of a connection, played by hand: it writes any bytes, whether or not they make frames,
and reads all that is there at once.
-/

namespace BlockExchange

structure FarEnd where
  codec : FrameCodec := { maxSize := maxFrameSize }
  /-- Bytes that were read and make no message yet. -/
  buffer : Bytes := []
  gone : Bool := false

namespace FarEnd

inductive Written
  | all (n : Nat)
  | part
  | broken
  | gone

def frames (ms : List Message) : Bytes :=
  ms.flatMap fun m => FrameCodec.frame m.encode

/-- Writes as much as the pipe takes. The pipes are given as the near end sees them. -/
def write (f : FarEnd) (io : Duplex) (b : Bytes) : Duplex × Written :=
  if f.gone then (io, .gone)
  else if b.isEmpty then (io, .all 0)
  else match io.inbound.write? b with
    | none => (io, .broken)
    | some (inbound, rest) =>
      ({ io with inbound }, if rest.isEmpty then .all b.length else .part)

/-- The messages in the buffer, up to the first that cannot be read. -/
def messages (codec : FrameCodec) (buffer : Bytes) : List Message × FrameCodec × Bytes :=
  let step := codec.decode buffer
  match step.result with
  | .ok (some m) =>
    if step.buffer.length < buffer.length then
      let (ms, rest) := messages step.codec step.buffer
      (m :: ms, rest)
    else ([m], step.codec, step.buffer)
  | _ => ([], step.codec, step.buffer)
termination_by buffer.length

structure Found where
  messages : List Message
  ended : Bool
  left : Nat

def read (f : FarEnd) (io : Duplex) : FarEnd × Duplex × Found :=
  if f.gone then (f, io, ⟨[], false, f.buffer.length⟩)
  else
    let (ms, codec, buffer) := messages f.codec (f.buffer ++ io.outbound.content)
    let outbound := { io.outbound with content := [] }
    ({ f with codec, buffer }, { io with outbound }, ⟨ms, outbound.isAtEnd, buffer.length⟩)

def close (f : FarEnd) (io : Duplex) : FarEnd × Duplex :=
  ({ f with gone := true }, io.drop)

end FarEnd
end BlockExchange
