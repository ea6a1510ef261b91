import BlockExchange.Bytes

/-!
# Byte pipes

One direction of a connection: bytes that were written and not yet read, up to a capacity. A pipe is
closed when either end is gone. A closed pipe takes no more bytes; what is in it can still be read.
-/

namespace BlockExchange

structure Pipe where
  capacity : Nat
  content : Bytes := []
  closed : Bool := false

namespace Pipe

def room (p : Pipe) : Nat :=
  p.capacity - p.content.length

/-- Writes as much as there is room for and tells what is left over; nothing if closed. -/
def write? (p : Pipe) (b : Bytes) : Option (Pipe × Bytes) :=
  if p.closed then none
  else
    let (front, rest) := b.splitAt p.room
    some ({ p with content := p.content ++ front }, rest)

def close (p : Pipe) : Pipe :=
  { p with closed := true }

/-- Whether all has been read and nothing more can come. -/
def isAtEnd (p : Pipe) : Bool :=
  p.closed && p.content.isEmpty

end Pipe

/-- The two pipes of a connection, as one of its ends sees them. -/
structure Duplex where
  inbound : Pipe
  outbound : Pipe

namespace Duplex

def ofCapacity (n : Nat) : Duplex :=
  ⟨{ capacity := n }, { capacity := n }⟩

def flip (d : Duplex) : Duplex :=
  ⟨d.outbound, d.inbound⟩

def drop (d : Duplex) : Duplex :=
  ⟨d.inbound.close, d.outbound.close⟩

end Duplex
end BlockExchange
