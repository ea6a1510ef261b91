import BlockExchange.Message.Basic

/-!
# Outboxes

A bounded queue of messages for one peer. A task that finds it full waits in line, and room goes to
those who wait longest (`offer`). When nobody takes from it any more it is closed and refuses every
message.
-/

namespace BlockExchange

abbrev TaskId := Nat

structure Outbox where
  capacity : Nat
  queue : List Message := []
  /-- The tasks that wait for room, in the order in which they came. -/
  waiting : List TaskId := []
  isOpen : Bool := true

namespace Outbox

inductive Answer
  | accepted
  | full
  | closed
deriving DecidableEq, Repr

def room (o : Outbox) : Nat :=
  o.capacity - o.queue.length

/-- Whether a task may put a message in now: there is room for it and for all who came before. -/
def admits (o : Outbox) (task : TaskId) : Bool :=
  o.waiting.idxOf task < o.room

def leave (o : Outbox) (task : TaskId) : Outbox :=
  { o with waiting := o.waiting.erase task }

/-- Puts a message in, or puts the task in line. -/
def offer (o : Outbox) (task : TaskId) (m : Message) : Outbox × Answer :=
  if !o.isOpen then (o.leave task, .closed)
  else if o.admits task then ({ o.leave task with queue := o.queue ++ [m] }, .accepted)
  else if o.waiting.contains task then (o, .full)
  else ({ o with waiting := o.waiting ++ [task] }, .full)

def take? (o : Outbox) : Option (Message × Outbox) :=
  match o.queue with
  | [] => none
  | m :: queue => some (m, { o with queue })

def drain (o : Outbox) : List Message × Outbox :=
  (o.queue, { o with queue := [] })

def close (o : Outbox) : Outbox :=
  { o with queue := [], isOpen := false }

end Outbox

/-- All outboxes, found by their numbers. -/
abbrev Outboxes := List Outbox

end BlockExchange
