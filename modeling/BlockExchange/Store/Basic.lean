import BlockExchange.HashedBlock

/-!
# Block stores

A store keeps content by identifier. Any call on it may fail. A store never takes a caller's word
for a name: `put` finds the identifier from the content, and `putBlock` takes verified blocks only.
-/

namespace BlockExchange

inductive StoreError
  /-- The file system refused a read. -/
  | io
  | digestMismatch (cid : Cid)
  | writeFailed (cid : Cid)
  /-- A written file could not be given its name. -/
  | placeFailed (cid : Cid)
  | openFailed (root : String)
  /-- The store itself gave no reason. -/
  | failed
deriving DecidableEq

/-- The text of an error, if it has one of its own. -/
def StoreError.message? : StoreError → Option String
  | .io => none
  | .digestMismatch cid => some ("stored block " ++ cid.text ++ " does not match its digest")
  | .writeFailed cid => some ("failed to write block " ++ cid.text)
  | .placeFailed cid => some ("failed to store block " ++ cid.text)
  | .openFailed root => some ("failed to create block store at " ++ root)
  | .failed => some "store failure"

class BlockStore (σ : Type) where
  has : σ → Cid → Except StoreError Bool
  get : σ → Cid → Except StoreError (Option Bytes)
  /-- Stores content under the version-1 identifier of its hash and a codec. -/
  put : σ → UInt64 → Bytes → σ × Except StoreError Cid
  putBlock : σ → HashedBlock → σ × Except StoreError Unit

end BlockExchange
