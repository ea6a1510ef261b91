import BlockExchange.Authoriser
import BlockExchange.HaveTable
import BlockExchange.Journal
import BlockExchange.PeerRegistry
import BlockExchange.Settings
import BlockExchange.Store.Basic
import BlockExchange.WantTable

/-!
# The exchange of a node

All that a node knows: its store and who may read from it, what it wants, who has what, and who is
connected. The store may be of any kind `σ`.
-/

namespace BlockExchange

structure Exchange (σ : Type) where
  maxMessageSize : Nat
  store : σ
  authoriser : Authoriser
  journal : Journal
  wants : WantTable
  haves : HaveTable := {}
  peers : PeerRegistry := {}
  /-- How many trace ids have been made up. -/
  traced : Nat := 0

namespace Exchange

variable {σ : Type}

/-- A node's exchange. No message that it makes is larger than a frame can be. -/
def new (settings : ExchangeSettings) (store : σ) (authoriser : Authoriser) (trace : TraceLog) :
    Exchange σ where
  maxMessageSize := min settings.maxMessageSize maxFrameSize
  store := store
  authoriser := authoriser
  journal := { trace }
  wants := { recency := settings.wantRecency }

/-- Registers interest in a block without telling anyone. -/
def register (x : Exchange σ) (now : Duration) (w : Want) : Exchange σ × WantFuture :=
  let (wants, f) := x.wants.register now w
  ({ x with wants }, f)

def connect (x : Exchange σ) (p : PeerId) (o : OutboxId) : Exchange σ :=
  { x with peers := x.peers.add p o }

/-- Takes a peer out; tells whether it was connected. -/
def disconnect (x : Exchange σ) (p : PeerId) : Exchange σ × Bool :=
  ({ x with peers := x.peers.remove p }, x.peers.isConnected p)

/-- Takes a peer out if it still uses this outbox; tells whether it did. -/
def disconnectIfSame (x : Exchange σ) (p : PeerId) (o : OutboxId) : Exchange σ × Bool :=
  let (peers, done) := x.peers.removeIfSame p o
  ({ x with peers }, done)

/-- The peers to tell: those given, or all connected ones if none are given. -/
def targets (x : Exchange σ) (peers : List PeerId) : List PeerId :=
  if peers.isEmpty then x.peers.connected else peers

/-- A trace id for a message that answers no other; empty if nothing is traced. -/
def newTraceId (x : Exchange σ) : Exchange σ × String :=
  if x.journal.trace.isEnabled then ({ x with traced := x.traced + 1 }, TraceLog.traceId x.traced)
  else (x, "")

/-- A short text that gives the sizes, for an exchange without peers. -/
def summary (x : Exchange σ) : String :=
  "Exchange \x7b max_message_size: " ++ toString x.maxMessageSize
    ++ ", wants: " ++ toString x.wants.size ++ ", haves: " ++ toString x.haves.size
    ++ ", peers: PeerRegistry \x7b outboxes: \x7b\x7d \x7d, .. \x7d"

end Exchange
end BlockExchange
