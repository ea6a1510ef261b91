import BlockExchange.Frame
import BlockExchange.Stream.WriteBehind

/-!
# Writing messages into a pipe

A `FrameWriter` holds the frames of messages that the pipe had no room for yet. It takes on another
message as long as few bytes wait (`ready`, `enqueue`), and a message is sent when all that waits has
been written (`flush`).
-/

namespace BlockExchange

structure FrameWriter where
  codec : FrameCodec := { maxSize := maxFrameSize }
  /-- Bytes that nobody has taken on yet. -/
  unsent : Bytes := []
  behind : WriteBehind := {}

inductive Progress
  | done
  | pending
  | failed (e : CodecError)

def Progress.ofFlow : Flow → Progress
  | .done => .done
  | .pending => .pending
  | .broken => .failed (.stream .brokenPipe)

namespace FrameWriter

/-- With so many unsent bytes no more are taken on. -/
def highWater : Nat := 8192

/-- How many bytes wait, stage by stage. It stays the same only if nothing was written. -/
def backlog (w : FrameWriter) : Nat × Nat × Nat :=
  (w.unsent.length, w.behind.held.length, w.behind.written)

def flush (w : FrameWriter) (p : Pipe) : FrameWriter × Pipe × Progress :=
  if w.unsent.isEmpty then
    let (behind, p, flow) := w.behind.flush p
    ({ w with behind }, p, .ofFlow flow)
  else
    let (behind, p, flow, unsent) := w.behind.write p w.unsent
    let w' := { w with behind, unsent }
    match flow with
    | .done => if unsent.length < w.unsent.length then flush w' p else (w', p, .pending)
    | flow => (w', p, .ofFlow flow)
termination_by w.unsent.length

/-- Makes sure that a message can be taken on. -/
def ready (w : FrameWriter) (p : Pipe) : FrameWriter × Pipe × Progress :=
  if w.unsent.length < highWater then (w, p, .done) else w.flush p

def enqueue (w : FrameWriter) (m : Message) : FrameWriter × Progress :=
  let (unsent, result) := w.codec.append m w.unsent
  ({ w with unsent }, match result with
    | .ok () => .done
    | .error e => .failed e)

def close (w : FrameWriter) (p : Pipe) : FrameWriter × Pipe × Progress :=
  match w.flush p with
  | (w, p, .done) => (w, p.close, .done)
  | r => r

end FrameWriter
end BlockExchange
