import BlockExchange.Message.Decode
import BlockExchange.Message.Encode

/-!
# Frames

On a stream every message stands in a frame: its length in four bytes, then its encoding. A
`FrameCodec` has a size limit and remembers the length it has read of a frame whose body is not
complete. It takes a header off the buffer as soon as it is there, and a body when it is complete,
even if the body is no message; a header beyond the limit stays in the buffer.
-/

namespace BlockExchange

/-- The largest frame that either side of a connection reads or writes. -/
def maxFrameSize : Nat := 8 * 1024 * 1024

/-- What can go wrong with the stream under the frames. -/
inductive StreamError
  | frameTooBig
  | bytesRemaining
  | brokenPipe
deriving DecidableEq, Repr

def StreamError.message : StreamError → String
  | .frameTooBig => "frame size too big"
  | .bytesRemaining => "bytes remaining on stream"
  | .brokenPipe => "broken pipe"

inductive CodecError
  | stream (e : StreamError)
  | malformed (e : Protobuf.DecodeError)
  | tooLarge (size limit : Nat)
deriving DecidableEq, Repr

def CodecError.message : CodecError → String
  | .stream e => e.message
  | .malformed e => "malformed frame: " ++ e.message
  | .tooLarge size limit =>
    "frame of " ++ toString size ++ " bytes exceeds the " ++ toString limit ++ " byte limit"

structure FrameCodec where
  maxSize : Nat
  /-- The length announced by a header whose body has not been read. -/
  awaited : Option Nat := none
deriving DecidableEq, Repr

namespace FrameCodec

def headerSize : Nat := 4

def maxHeader : Nat := 0xffffffff

def limit (c : FrameCodec) : Nat :=
  min c.maxSize maxHeader

def frame (body : Bytes) : Bytes :=
  Bytes.ofNat headerSize body.length ++ body

/-- Writes a message at the end of the buffer; gives the buffer and whether it was done. -/
def append (c : FrameCodec) (m : Message) (buffer : Bytes) : Bytes × Except CodecError Unit :=
  let size := m.encodedLength
  if c.maxSize < size then (buffer, .error (.tooLarge size c.maxSize))
  else if maxHeader < size then (buffer, .error (.stream .frameTooBig))
  else (buffer ++ frame m.encode, .ok ())

/-- The buffer with the message at its end. -/
def encode (c : FrameCodec) (m : Message) (buffer : Bytes) : Except CodecError Bytes :=
  let (buffer, result) := c.append m buffer
  result.map fun _ => buffer

/-- What looking for a message leaves and finds: `none` when more bytes are needed. -/
structure Step where
  codec : FrameCodec
  buffer : Bytes
  result : Except CodecError (Option Message)

def decodeBody (c : FrameCodec) (n : Nat) (buffer : Bytes) : Step :=
  match Bytes.splitAt? n buffer with
  | none => ⟨{ c with awaited := some n }, buffer, .ok none⟩
  | some (body, rest) =>
    ⟨{ c with awaited := none }, rest,
      match Message.decode body with
      | .ok m => .ok (some m)
      | .error e => .error (.malformed e)⟩

def decode (c : FrameCodec) (buffer : Bytes) : Step :=
  match c.awaited with
  | some n => decodeBody c n buffer
  | none =>
    match Bytes.splitAt? headerSize buffer with
    | none => ⟨c, buffer, .ok none⟩
    | some (header, rest) =>
      if c.limit < header.toNat then ⟨c, buffer, .error (.stream .frameTooBig)⟩
      else decodeBody c header.toNat rest

/-- Looks for a message when no more bytes will arrive: bytes that make none are an error. -/
def decodeAtEnd (c : FrameCodec) (buffer : Bytes) : Step :=
  let step := decode c buffer
  match step.result with
  | .ok none =>
    if step.buffer.isEmpty then step
    else { step with result := .error (.stream .bytesRemaining) }
  | _ => step

end FrameCodec
end BlockExchange
