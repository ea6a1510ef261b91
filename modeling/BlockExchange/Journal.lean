import BlockExchange.Counters
import BlockExchange.PeerId
import BlockExchange.Trace.Log

/-!
# Journals

What a node notes down about its traffic: the counters and the trace log.
-/

namespace BlockExchange

structure Journal where
  counters : Counters := {}
  trace : TraceLog := .disabled

namespace Journal

def sent (j : Journal) (peer : PeerId) (m : Message) (now : Timestamp) : Journal where
  counters := { j.counters with sentBytes := j.counters.sentBytes + m.encodedLength }
  trace := j.trace.recordMessage peer.text m (.sent m) now

def received (j : Journal) (peer : PeerId) (m : Message) (now : Timestamp) : Journal where
  counters := { j.counters with receivedBytes := j.counters.receivedBytes + m.encodedLength }
  trace := j.trace.recordMessage peer.text m (.received m) now

def blockReceived (j : Journal) : Journal :=
  { j with counters := { j.counters with blocksReceived := j.counters.blocksReceived + 1 } }

def blockRejected (j : Journal) : Journal :=
  { j with counters := { j.counters with blocksRejected := j.counters.blocksRejected + 1 } }

def unwantedBlock (j : Journal) : Journal :=
  { j with counters := { j.counters with unwantedBlocks := j.counters.unwantedBlocks + 1 } }

end Journal
end BlockExchange
