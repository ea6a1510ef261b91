import BlockExchange.Store.Basic
import BlockExchange.Table

/-!
# Blocks in memory

No call fails, and content once stored stays: storing it again changes nothing.
-/

namespace BlockExchange

structure MemoryStore where
  blocks : Table Cid Bytes := .empty

namespace MemoryStore

def size (s : MemoryStore) : Nat :=
  s.blocks.size

def isEmpty (s : MemoryStore) : Bool :=
  s.blocks.isEmpty

/-- Keeps what is already stored under the identifier. -/
def insert (s : MemoryStore) (cid : Cid) (data : Bytes) : MemoryStore :=
  if s.blocks.contains cid then s else ⟨s.blocks.set cid data⟩

instance : BlockStore MemoryStore where
  has s cid := .ok (s.blocks.contains cid)
  get s cid := .ok (s.blocks.get? cid)
  put s codec data :=
    let cid := Cid.ofData codec data
    (s.insert cid data, .ok cid)
  putBlock s b := (s.insert b.cid b.data, .ok ())

end MemoryStore
end BlockExchange
