import BlockExchange.Batch
import BlockExchange.Delivery

/-!
# Dispatching records

A `Dispatch` packs records into messages and hands these to one sink. It waits while the sink is full,
stops at the first message that the sink refuses, and tells in the end how many messages there were.
-/

namespace BlockExchange

structure Dispatch where
  /-- How many messages there are in all. -/
  count : Nat
  /-- The messages that were not handed over yet. -/
  rest : List Message

namespace Dispatch

def start (maxSize : Nat) (traceId : String) (entries : List Entry) (presences : List Presence)
    (blocks : List BlockRecord) : Dispatch :=
  let messages := pack maxSize traceId entries presences blocks
  { count := messages.length, rest := messages }

/-- Hands over what the sink takes now. There is no result as long as messages wait. -/
def poll {σ : Type} (send : σ → Message → σ × Receipt) (d : Dispatch) (s : σ) :
    Dispatch × σ × Option (Except SendError Nat) :=
  match deliver send s d.rest with
  | (s, .done) => ({ d with rest := [] }, s, some (.ok d.count))
  | (s, .waiting rest) => ({ d with rest }, s, none)
  | (s, .failed e) => (d, s, some (.error e))

end Dispatch
end BlockExchange
