import BlockExchange.PeerId
import BlockExchange.Table
import BlockExchange.Want

/-!
# Who has what

For each want the peer that last said it has the block. The entries are hints and never expire.
-/

namespace BlockExchange

structure HaveTable where
  haves : Table Want PeerId := .empty

namespace HaveTable

def record (t : HaveTable) (w : Want) (p : PeerId) : HaveTable :=
  ⟨t.haves.set w p⟩

def lookup (t : HaveTable) (w : Want) : Option PeerId :=
  t.haves.get? w

def toList (t : HaveTable) : List (Want × PeerId) :=
  t.haves.pairs

def size (t : HaveTable) : Nat :=
  t.haves.size

def isEmpty (t : HaveTable) : Bool :=
  t.haves.isEmpty

theorem lookup_record (t : HaveTable) (w v : Want) (p : PeerId) :
    (t.record w p).lookup v = if v = w then some p else t.lookup v :=
  Table.get?_set ..

end HaveTable
end BlockExchange
