import BlockExchange.Duration
import BlockExchange.HashedBlock
import BlockExchange.Table
import BlockExchange.Total
import BlockExchange.Want

/-!
# Outstanding wants

The table holds the wants that no block has arrived for, first by identifier and then by token.
Everyone who registers a want gets a future for it; those who register the same want before its
block arrives share one ticket. The first verified block for an identifier completes all its wants
and takes them out of the table; a ticket that is neither completed nor in the table any more is
abandoned.
-/

namespace BlockExchange

structure WantFuture where
  cid : Cid
  ticket : Nat
deriving DecidableEq

namespace WantFuture

/-- Whether both wait for the same registration. -/
def shares (a b : WantFuture) : Bool :=
  a.ticket == b.ticket

def summary (f : WantFuture) : String :=
  "WantFuture \x7b cid: \"" ++ f.cid.text ++ "\", .. \x7d"

end WantFuture

inductive WantOutcome
  | pending
  | delivered (block : HashedBlock)
  | abandoned

def abandonedMessage (cid : Cid) : String :=
  "want for " ++ cid.text ++ " was dropped before a block arrived"

structure Registration where
  ticket : Nat
  created : Duration
deriving DecidableEq

structure WantTable where
  /-- How long a want is worth telling a single peer about. -/
  recency : Duration
  wants : Table Cid (Table (Option AuthToken) Registration) := .empty
  issued : Nat := 0
  delivered : Table Nat HashedBlock := .empty

namespace WantTable

def registrations (t : WantTable) (cid : Cid) : Table (Option AuthToken) Registration :=
  (t.wants.get? cid).getD .empty

/-- The future for a want, registered at the moment `now` unless it is already. -/
def register (t : WantTable) (now : Duration) (w : Want) : WantTable × WantFuture :=
  let byToken := t.registrations w.cid
  match byToken.get? w.auth with
  | some r => (t, ⟨w.cid, r.ticket⟩)
  | none =>
    ({ t with
        wants := t.wants.set w.cid (byToken.set w.auth ⟨t.issued, now⟩)
        issued := t.issued + 1 },
      ⟨w.cid, t.issued⟩)

def hasPending (t : WantTable) : Bool :=
  !t.wants.isEmpty

def isPending (t : WantTable) (w : Want) : Bool :=
  match t.wants.get? w.cid with
  | none => false
  | some byToken => byToken.contains w.auth

def isEmpty (t : WantTable) : Bool :=
  t.wants.isEmpty

def size (t : WantTable) : Nat :=
  total (fun p => p.2.size) t.wants.pairs

def isRecent (t : WantTable) (now : Duration) (r : Registration) : Bool :=
  (now.since r.created).lt t.recency

/-- The wants to tell `peers` peers about: a single peer hears of the recent ones only. The order in
which they come is left open. -/
def list (t : WantTable) (now : Duration) (peers : Nat) : List Want :=
  t.wants.pairs.flatMap fun (cid, byToken) =>
    (byToken.pairs.filter fun (_, r) => peers != 1 || t.isRecent now r).map fun (auth, _) =>
      { cid, auth }

/-- Completes every want for the block's identifier; tells whether there was one. -/
def resolve (t : WantTable) (b : HashedBlock) : WantTable × Bool :=
  match t.wants.get? b.cid with
  | none => (t, false)
  | some byToken =>
    ({ t with
        wants := t.wants.erase b.cid
        delivered := byToken.pairs.foldl (fun d (_, r) => d.set r.ticket b) t.delivered },
      true)

def abandon (t : WantTable) : WantTable :=
  { t with wants := .empty }

def poll (t : WantTable) (f : WantFuture) : WantOutcome :=
  match t.delivered.get? f.ticket with
  | some b => .delivered b
  | none =>
    if (t.registrations f.cid).pairs.any fun (_, r) => r.ticket == f.ticket then .pending
    else .abandoned

end WantTable
end BlockExchange
