import BlockExchange.PeerId
import BlockExchange.Table

/-!
# Connected peers

Each connected peer with the outbox of its latest connection. A connection that ends takes the peer
out only if the outbox is still its own (`removeIfSame`).
-/

namespace BlockExchange

abbrev OutboxId := Nat

structure PeerRegistry where
  outboxes : Table PeerId OutboxId := .empty

namespace PeerRegistry

/-- Registers a peer; the outbox of an earlier connection gives way. -/
def add (r : PeerRegistry) (p : PeerId) (o : OutboxId) : PeerRegistry :=
  ⟨r.outboxes.set p o⟩

def outbox? (r : PeerRegistry) (p : PeerId) : Option OutboxId :=
  r.outboxes.get? p

def isConnected (r : PeerRegistry) (p : PeerId) : Bool :=
  r.outboxes.contains p

/-- Takes a peer out, whatever its outbox. -/
def remove (r : PeerRegistry) (p : PeerId) : PeerRegistry :=
  ⟨r.outboxes.erase p⟩

/-- Takes a peer out if its outbox is `o`; tells whether it was. -/
def removeIfSame (r : PeerRegistry) (p : PeerId) (o : OutboxId) : PeerRegistry × Bool :=
  if r.outbox? p = some o then (r.remove p, true) else (r, false)

def connected (r : PeerRegistry) : List PeerId :=
  r.outboxes.keys

def uses (r : PeerRegistry) (o : OutboxId) : Bool :=
  r.outboxes.pairs.any (·.2 == o)

theorem outbox?_add (r : PeerRegistry) (p q : PeerId) (o : OutboxId) :
    (r.add p o).outbox? q = if q = p then some o else r.outbox? q :=
  Table.get?_set ..

theorem outbox?_remove (r : PeerRegistry) (p q : PeerId) :
    (r.remove p).outbox? q = if q = p then none else r.outbox? q :=
  Table.get?_erase ..

end PeerRegistry
end BlockExchange
