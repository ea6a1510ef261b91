import BlockExchange.Store.BlockWrite

/-!
# Blocks in a directory

One file a block, named by its identifier. Others may change the directory behind the store's back.
The store writes a block only if nothing has its name, and it checks what it reads against the
name's digest.
-/

namespace BlockExchange

/-- A store over the directory at `path`, which is gone when `root` is `none`. -/
structure DirectoryStore where
  path : String
  root : Option Directory := none

namespace DirectoryStore

/-- Opens the store, making the directory if there is none. Fails where a file is in its place. -/
def «open» (path : String) (root : Option Directory) (fileInPlace : Bool) :
    Except StoreError DirectoryStore :=
  if fileInPlace then .error (.openFailed path) else .ok ⟨path, some (root.getD {})⟩

def has (s : DirectoryStore) (cid : Cid) : Bool :=
  BlockWrite.isTaken s.root cid

def get (s : DirectoryStore) (cid : Cid) : Except StoreError (Option Bytes) :=
  match s.root.bind (·.items.get? (BlockWrite.blockName cid)) with
  | none => .ok none
  | some .directory => .error .io
  | some (.file content) =>
    if cid.Names content then .ok (some content) else .error (.digestMismatch cid)

/-- Writes content under an identifier, undisturbed. -/
def write (s : DirectoryStore) (cid : Cid) (data : Bytes) :
    DirectoryStore × Except StoreError Unit :=
  let serial := match s.root with
    | none => 0
    | some d => BlockWrite.freeSerial d cid d.items.size 0
  let (w, root) := BlockWrite.complete { cid, data, serial } s.root
  ({ s with root }, w.result)

instance : BlockStore DirectoryStore where
  has s cid := .ok (s.has cid)
  get := get
  put s codec data :=
    let cid := Cid.ofData codec data
    let (s, result) := s.write cid data
    (s, result.map fun _ => cid)
  putBlock s b := s.write b.cid b.data

end DirectoryStore
end BlockExchange
