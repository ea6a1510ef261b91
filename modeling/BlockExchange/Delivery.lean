import BlockExchange.Outbox

/-!
# Handing messages over

`deliver` hands messages to a sink one by one, in order, and stops at the first that the sink does
not take. The sinks are outboxes and collectors.
-/

namespace BlockExchange

inductive SendError
  | refused
  | outboxClosed
deriving DecidableEq, Repr

def SendError.message : SendError → String
  | .refused => "sink failure"
  | .outboxClosed => "peer outbox closed"

/-- What a sink does with a message. -/
inductive Receipt
  | accepted
  | full
  | failed (e : SendError)
deriving DecidableEq, Repr

/-- How far handing over got. -/
inductive Delivery
  | done
  /-- These messages wait for room. -/
  | waiting (rest : List Message)
  | failed (e : SendError)

def deliver {σ : Type} (send : σ → Message → σ × Receipt) (s : σ) :
    List Message → σ × Delivery
  | [] => (s, .done)
  | m :: ms =>
    match send s m with
    | (s, .accepted) => deliver send s ms
    | (s, .full) => (s, .waiting (m :: ms))
    | (s, .failed e) => (s, .failed e)

/-- Sends a message to an outbox on behalf of a task. -/
def Outbox.send (task : TaskId) (o : Outbox) (m : Message) : Outbox × Receipt :=
  match o.offer task m with
  | (o, .accepted) => (o, .accepted)
  | (o, .full) => (o, .full)
  | (o, .closed) => (o, .failed .outboxClosed)

/-- A sink that keeps what it is given, up to a limit if it has one. -/
structure Collector where
  limit : Option Nat := none
  messages : List Message := []

def Collector.send (c : Collector) (m : Message) : Collector × Receipt :=
  if c.limit.any (· ≤ c.messages.length) then (c, .failed .refused)
  else ({ c with messages := c.messages ++ [m] }, .accepted)

/-- A sink that takes every message is handed all of them, in order. -/
theorem deliver_of_accepts {σ : Type} {send : σ → Message → σ × Receipt}
    (accepts : ∀ s m, (send s m).2 = .accepted) (s : σ) (ms : List Message) :
    deliver send s ms = (ms.foldl (fun s m => (send s m).1) s, .done) := by
  induction ms generalizing s with
  | nil => rfl
  | cons m ms ih =>
    have hm : send s m = ((send s m).1, .accepted) := Prod.ext rfl (accepts s m)
    rw [deliver, hm]
    exact ih (send s m).1

end BlockExchange
