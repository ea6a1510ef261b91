import BlockExchange.Store.Basic
import BlockExchange.Table

/-!
# A scripted store

A store that answers as it was told to, call by call: present or absent, with content or without,
whether or not the two agree or the content fits the identifier, or with a failure.
-/

namespace BlockExchange

/-- What the store answers for one identifier. -/
structure ScriptedAnswer where
  has : Except StoreError Bool
  get : Except StoreError (Option Bytes)

structure ScriptedStore where
  answers : Table Cid ScriptedAnswer := .empty
  refusesWrites : Bool := false

namespace ScriptedStore

def insert (s : ScriptedStore) (cid : Cid) (data : Bytes) :
    ScriptedStore × Except StoreError Unit :=
  if s.refusesWrites then (s, .error .failed)
  else ({ s with answers := s.answers.set cid ⟨.ok true, .ok (some data)⟩ }, .ok ())

instance : BlockStore ScriptedStore where
  has s cid := match s.answers.get? cid with
    | none => .ok false
    | some a => a.has
  get s cid := match s.answers.get? cid with
    | none => .ok none
    | some a => a.get
  put s codec data :=
    let cid := Cid.ofData codec data
    let (s, result) := s.insert cid data
    (s, result.map fun _ => cid)
  putBlock s b := s.insert b.cid b.data

end ScriptedStore
end BlockExchange
