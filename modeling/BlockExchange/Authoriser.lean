import BlockExchange.Want

/-!
# Authorisers

An authoriser decides whether a requester may read a block, given the token that came with the
request. It knows the requester by the identifier of its key. Asking it may fail.
-/

namespace BlockExchange

inductive AuthoriserError
  | unavailable
deriving DecidableEq, Repr

structure Authoriser where
  allowRead : (block requester : Cid) → (auth : Option AuthToken) → Except AuthoriserError Bool

/-- Reads that are allowed: those in which every field that the rule has is the same. -/
structure AccessRule where
  block : Option Cid := none
  requester : Option Cid := none
  auth : Option AuthToken := none

def AccessRule.allows (r : AccessRule) (block requester : Cid) (auth : Option AuthToken) : Bool :=
  (r.block.all fun c => decide (c = block)) && (r.requester.all fun c => decide (c = requester))
    && (r.auth.all fun t => decide (some t = auth))

namespace Authoriser

def allowAll : Authoriser where
  allowRead _ _ _ := .ok true

def requireToken : Authoriser where
  allowRead _ _ auth := .ok auth.isSome

def ofRules (rules : List AccessRule) : Authoriser where
  allowRead block requester auth := .ok (rules.any fun r => r.allows block requester auth)

def failing : Authoriser where
  allowRead _ _ _ := .error .unavailable

end Authoriser
end BlockExchange
