import BlockExchange.Message.Basic
import BlockExchange.Trace.Timestamp

/-!
# Trace records

A message with a trace id leaves one line in the log when it crosses the wire. The line gives the
trace id, the node, the peer, the moment twice, the kind of event and a summary, with tabs between.
-/

namespace BlockExchange

inductive TraceEvent
  /-- A wantlist was sent. -/
  | clientStart
  /-- A wantlist arrived. -/
  | serverStart
  /-- A reply arrived. -/
  | clientEnd
  /-- A reply was sent. -/
  | serverEnd
deriving DecidableEq, Repr

namespace TraceEvent

def name : TraceEvent → String
  | .clientStart => "BitswapClientStart"
  | .serverStart => "BitswapServerStart"
  | .clientEnd => "BitswapClientEnd"
  | .serverEnd => "BitswapServerEnd"

def sent (m : Message) : TraceEvent :=
  if m.entries.isEmpty then .serverEnd else .clientStart

def received (m : Message) : TraceEvent :=
  if m.entries.isEmpty then .clientEnd else .serverStart

end TraceEvent

/-- How many records of each kind a message has. -/
def Message.summary (m : Message) : String :=
  "entries=" ++ toString m.entries.length ++ " presences=" ++ toString m.presences.length
    ++ " blocks=" ++ toString m.payload.length

structure TraceRecord where
  traceId : String
  peer : String
  event : TraceEvent
  details : String
deriving DecidableEq, Repr

/-- The line that a record makes in the log of a node. -/
def TraceRecord.line (r : TraceRecord) (node : String) (now : Timestamp) : String :=
  "\t".intercalate
    [r.traceId, node, r.peer, toString now.nanos, now.calendar, r.event.name, r.details] ++ "\n"

end BlockExchange
