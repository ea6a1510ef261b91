import BlockExchange.Store.DirectoryStore
import BlockExchange.Store.Memory
import BlockExchange.Store.Scripted

/-!
# A store of any kind

What a node holds when its settings decide the kind of store.
-/

namespace BlockExchange

inductive AnyStore
  | memory (s : MemoryStore)
  | directory (s : DirectoryStore)
  | scripted (s : ScriptedStore)

namespace AnyStore

instance : BlockStore AnyStore where
  has
    | .memory s, cid => BlockStore.has s cid
    | .directory s, cid => BlockStore.has s cid
    | .scripted s, cid => BlockStore.has s cid
  get
    | .memory s, cid => BlockStore.get s cid
    | .directory s, cid => BlockStore.get s cid
    | .scripted s, cid => BlockStore.get s cid
  put
    | .memory s, codec, data => (BlockStore.put s codec data).map .memory id
    | .directory s, codec, data => (BlockStore.put s codec data).map .directory id
    | .scripted s, codec, data => (BlockStore.put s codec data).map .scripted id
  putBlock
    | .memory s, b => (BlockStore.putBlock s b).map .memory id
    | .directory s, b => (BlockStore.putBlock s b).map .directory id
    | .scripted s, b => (BlockStore.putBlock s b).map .scripted id

/-- A store in the directory at `path`, or in memory if there is no path. -/
def «open» (path : Option String) (root : Option Directory) (fileInPlace : Bool) :
    Except StoreError AnyStore :=
  match path with
  | none => .ok (.memory {})
  | some path => (DirectoryStore.open path root fileInPlace).map .directory

end AnyStore
end BlockExchange
