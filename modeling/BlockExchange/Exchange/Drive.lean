import BlockExchange.Connection
import BlockExchange.Exchange.Receive
import BlockExchange.Outbox

/-!
# Driving a connection

A `Driver` serves one peer. It reads a message, writes the answers, and in between writes what is
put into its outbox. While it writes it does nothing else. It stops when the peer closes its side,
when nobody holds its outbox any more, or at an error, and then takes the peer out of the registry
unless a newer connection has replaced it there.
-/

namespace BlockExchange

structure Driver where
  connection : Connection
  outbox : OutboxId
  /-- The messages to be written before anything else. -/
  sending : List Message := []
  /-- Whether the first of them has been taken on by the writer. -/
  begun : Bool := false

inductive DriveError
  | codec (e : CodecError)
  | requester (e : CidError)
deriving DecidableEq

inductive Side
  | inbound
  | outbound
deriving DecidableEq, Repr

structure DriveState (σ : Type) where
  driver : Driver
  exchange : Exchange σ
  queue : Outbox
  io : Duplex

namespace Driver

/-- The messages that an outbox of a driver holds before broadcasts have to wait. -/
def outboxCapacity : Nat := 64

end Driver

namespace DriveState

variable {σ : Type}

/-- What a driver's step leads to: it goes on, or it stops with a result. -/
abbrev Next (σ : Type) := DriveState σ × Option (Except DriveError Unit)

def goOn (s : DriveState σ) : Next σ := (s, none)

def stop (s : DriveState σ) (r : Except DriveError Unit) : Next σ := (s, some r)

/-- Goes on with writing `m`, which is followed by `rest`; none if the pipe has no room. -/
def write? (s : DriveState σ) (now : Timestamp) (m : Message) (rest : List Message) :
    Option (Next σ) :=
  let d := s.driver
  let (connection, io, journal, r) :=
    if d.begun then d.connection.finish s.io s.exchange.journal m now
    else
      let (connection, io, r) := d.connection.begin s.io m
      (connection, io, s.exchange.journal, r)
  let d' := { d with connection }
  let s' := { s with io, exchange := { s.exchange with journal }, driver := d' }
  match r with
  | .done =>
    let d' := if d.begun then { d' with sending := rest, begun := false }
      else { d' with begun := true }
    some (goOn { s' with driver := d' })
  | .failed e => some (stop s' (.error (.codec e)))
  | .pending =>
    if connection.writer.backlog = d.connection.writer.backlog then none else some (goOn s')

/-- Reads from the peer; none if nothing is there. -/
def read? [BlockStore σ] (s : DriveState σ) (now : Timestamp) : Option (Next σ) :=
  let (connection, io, journal, answer) := s.driver.connection.receive s.io s.exchange.journal now
  let d := { s.driver with connection }
  let next := { s with io, driver := d, exchange := { s.exchange with journal } }
  match answer with
  | .pending =>
    if s.driver.connection.reader.ahead.held.isEmpty && s.io.inbound.content.isEmpty then none
    else some (goOn next)
  | .ended => some (stop next (.ok ()))
  | .failed e => some (stop next (.error (.codec e)))
  | .message m =>
    match next.exchange.receive connection.peer m with
    | .error e => some (stop next (.error (.requester e)))
    | .ok (exchange, replies) =>
      let before := next.exchange.journal.counters.blocksReceived
      let taken := before < exchange.journal.counters.blocksReceived
        && m.payload.any fun b => !b.data.isEmpty
      let connection := if taken then connection.keep else connection
      some (goOn { next with exchange, driver := { d with connection, sending := replies } })

/-- Takes a message from the outbox; none if nothing is there. -/
def take? (s : DriveState σ) (held : Bool) : Option (Next σ) :=
  match s.queue.take? with
  | some (m, queue) => some (goOn { s with queue, driver := { s.driver with sending := [m] } })
  | none => if held then none else some (stop s (.ok ()))

/-- One step of a driver that has nothing to write looks at one side only. `held` says whether
someone can still put messages into the outbox. -/
def step? [BlockStore σ] (s : DriveState σ) (now : Timestamp) (held : Bool) (side : Side) :
    Option (Next σ) :=
  match s.driver.sending, side with
  | m :: rest, _ => s.write? now m rest
  | [], .inbound => s.read? now
  | [], .outbound => s.take? held

/-- Takes the peer out of the registry if the outbox there is the driver's own, and lets go of the
connection and the outbox. -/
def finish (s : DriveState σ) : DriveState σ :=
  let (exchange, _) := s.exchange.disconnectIfSame s.driver.connection.peer s.driver.outbox
  let (connection, io, _) := s.driver.connection.close s.io
  { driver := { s.driver with connection }
    exchange := exchange
    queue := s.queue.close
    io := io.drop }

end DriveState
end BlockExchange
