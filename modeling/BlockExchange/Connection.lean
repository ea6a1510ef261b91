import BlockExchange.Journal
import BlockExchange.Stream.Reader
import BlockExchange.Stream.Writer

/-!
# Connections

One end of a connection to a peer. Every message that crosses is noted in the journal: an inbound
one when it has been read, an outbound one when the pipe has taken all its bytes.
-/

namespace BlockExchange

structure Connection where
  peer : PeerId
  reader : FrameReader := {}
  writer : FrameWriter := {}

namespace Connection

def receive (c : Connection) (io : Duplex) (j : Journal) (now : Timestamp) :
    Connection × Duplex × Journal × Inbound :=
  let (reader, inbound, answer) := c.reader.next io.inbound
  let j := match answer with
    | .message m => j.received c.peer m now
    | _ => j
  ({ c with reader }, { io with inbound }, j, answer)

/-- Notes that a block of the last inbound message stays where it was read to. -/
def keep (c : Connection) : Connection :=
  { c with reader := { c.reader with buffer := c.reader.buffer.keep } }

/-- Takes a message on for writing. -/
def begin (c : Connection) (io : Duplex) (m : Message) : Connection × Duplex × Progress :=
  match c.writer.ready io.outbound with
  | (writer, outbound, .done) =>
    let (writer, r) := writer.enqueue m
    ({ c with writer }, { io with outbound }, r)
  | (writer, outbound, r) => ({ c with writer }, { io with outbound }, r)

def finish (c : Connection) (io : Duplex) (j : Journal) (m : Message) (now : Timestamp) :
    Connection × Duplex × Journal × Progress :=
  let (writer, outbound, r) := c.writer.flush io.outbound
  let j := match r with
    | .done => j.sent c.peer m now
    | _ => j
  ({ c with writer }, { io with outbound }, j, r)

/-- Takes a message on and writes it as far as the pipe has room. A writer that has no room asks
once more, since it may have got rid of enough in the meantime. -/
def send (c : Connection) (io : Duplex) (j : Journal) (m : Message) (now : Timestamp) :
    Connection × Duplex × Journal × Progress :=
  let (c, io, r) := match c.begin io m with
    | (c, io, .pending) => c.begin io m
    | r => r
  match r with
  | .done => c.finish io j m now
  | r => (c, io, j, r)

def close (c : Connection) (io : Duplex) : Connection × Duplex × Progress :=
  let (writer, outbound, r) := c.writer.close io.outbound
  ({ c with writer }, { io with outbound }, r)

end Connection
end BlockExchange
