import BlockExchange.Exchange.Drive
import BlockExchange.Proofs.Absorption
import BlockExchange.Proofs.TraceLines

/-!
# One step of a driver

`DriveState.Outcome` lists all that a step of a driver can come to, with the calls on the connection,
the exchange and the outbox that the step stands on; there is nothing else (`outcome_of_step?`). The
peer, the outbox and the registry stay what they are (`Outcome.peer_eq` and its kin): a driver touches
the registry only when it starts and when it ends (`DriveState.finish`).
-/

namespace BlockExchange

/-- The result with which a driver stops when writing comes to this. -/
def Progress.result? : Progress → Option (Except DriveError Unit)
  | .failed e => some (.error (.codec e))
  | _ => none

/-- The result with which a driver stops when it is told this. -/
def Inbound.result? : Inbound → Option (Except DriveError Unit)
  | .ended => some (.ok ())
  | .failed e => some (.error (.codec e))
  | _ => none

/-! ### One call on a connection -/

namespace Connection
variable {c c' : Connection} {io io' : Duplex} {j j' : Journal} {m : Message} {now : Timestamp}

theorem next_of_receive {answer : Inbound} (h : c.receive io j now = (c', io', j', answer)) :
    ∃ reader inbound, c.reader.next io.inbound = (reader, inbound, answer) ∧
      c' = { c with reader } ∧ io' = { io with inbound } := by
  unfold receive at h
  simp only [Prod.mk.injEq] at h
  obtain ⟨rfl, rfl, -, rfl⟩ := h
  exact ⟨_, _, rfl, rfl, rfl⟩

/-- Nothing is noted of a message as long as the pipe has not taken all of it. -/
theorem journal_of_not_finished {r : Progress} (h : c.finish io j m now = (c', io', j', r))
    (hr : r ≠ .done) : j' = j := by
  unfold finish at h
  simp only [Prod.mk.injEq] at h
  obtain ⟨-, -, rfl, rfl⟩ := h
  split
  · contradiction
  · rfl

theorem journal_of_not_received {answer : Inbound} (h : c.receive io j now = (c', io', j', answer))
    (hanswer : ∀ m, answer ≠ .message m) : j' = j := by
  unfold receive at h
  simp only [Prod.mk.injEq] at h
  obtain ⟨-, -, rfl, rfl⟩ := h
  split
  · rename_i m hm
    exact absurd hm (hanswer m)
  · rfl

end Connection

namespace Outbox
variable {o o' : Outbox} {m : Message}

theorem queue_of_take? (h : o.take? = some (m, o')) : o.queue = m :: o'.queue := by
  unfold take? at h
  split at h
  · cases h
  · rename_i hqueue
    obtain ⟨rfl, rfl⟩ := Prod.mk.inj (Option.some.inj h)
    exact hqueue

theorem queue_eq_nil_of_take? (h : o.take? = none) : o.queue = [] := by
  unfold take? at h
  split at h
  · assumption
  · cases h

end Outbox

/-! ### The outcomes of a step -/

namespace DriveState
variable {σ : Type} [BlockStore σ] {s : DriveState σ} {now : Timestamp} {held : Bool} {side : Side}
  {next : Next σ}

/-- What a step of a driver can come to. -/
inductive Outcome (s : DriveState σ) (now : Timestamp) : Bool → Side → Next σ → Prop
  /-- The writer has taken on the next message. -/
  | begun {held : Bool} {side : Side} {m : Message} {rest : List Message} {c : Connection}
      {io : Duplex} (hsending : s.driver.sending = m :: rest) (hbegun : s.driver.begun = false)
      (h : s.driver.connection.begin s.io m = (c, io, .done)) :
    Outcome s now held side
      ({ s with io, driver := { s.driver with connection := c, begun := true } }, none)
  | notBegun {held : Bool} {side : Side} {m : Message} {rest : List Message} {c : Connection}
      {io : Duplex} {r : Progress} (hsending : s.driver.sending = m :: rest)
      (hbegun : s.driver.begun = false) (h : s.driver.connection.begin s.io m = (c, io, r))
      (hr : r ≠ .done) :
    Outcome s now held side ({ s with io, driver := { s.driver with connection := c } }, r.result?)
  /-- The pipe has taken all of the message. -/
  | written {held : Bool} {side : Side} {m : Message} {rest : List Message} {c : Connection}
      {io : Duplex} {j : Journal} (hsending : s.driver.sending = m :: rest)
      (hbegun : s.driver.begun = true)
      (h : s.driver.connection.finish s.io s.exchange.journal m now = (c, io, j, .done)) :
    Outcome s now held side
      ({ s with io
                exchange := { s.exchange with journal := j }
                driver := { s.driver with connection := c, sending := rest, begun := false } }, none)
  | notWritten {held : Bool} {side : Side} {m : Message} {rest : List Message} {c : Connection}
      {io : Duplex} {r : Progress} (hsending : s.driver.sending = m :: rest)
      (hbegun : s.driver.begun = true)
      (h : s.driver.connection.finish s.io s.exchange.journal m now =
        (c, io, s.exchange.journal, r)) (hr : r ≠ .done) :
    Outcome s now held side ({ s with io, driver := { s.driver with connection := c } }, r.result?)
  /-- A message was read and is answered. -/
  | read {held : Bool} {m : Message} {c c' : Connection} {io : Duplex} {j : Journal} {x : Exchange σ}
      {replies : List Message} (hidle : s.driver.sending = [])
      (h : s.driver.connection.receive s.io s.exchange.journal now = (c, io, j, .message m))
      (hx : ({ s.exchange with journal := j } : Exchange σ).receive c.peer m = .ok (x, replies))
      (hc : c' = c ∨ c' = c.keep) :
    Outcome s now held .inbound
      ({ s with io, exchange := x
                driver := { s.driver with connection := c', sending := replies } }, none)
  | notRead {held : Bool} {c : Connection} {io : Duplex} {answer : Inbound}
      (hidle : s.driver.sending = [])
      (h : s.driver.connection.receive s.io s.exchange.journal now =
        (c, io, s.exchange.journal, answer)) (hanswer : ∀ m, answer ≠ .message m) :
    Outcome s now held .inbound
      ({ s with io, driver := { s.driver with connection := c } }, answer.result?)
  /-- A message was taken from the outbox. -/
  | taken {held : Bool} {m : Message} {queue : Outbox} (hidle : s.driver.sending = [])
      (h : s.queue.take? = some (m, queue)) :
    Outcome s now held .outbound ({ s with queue, driver := { s.driver with sending := [m] } }, none)
  /-- The outbox is empty for good. -/
  | drained (hidle : s.driver.sending = []) (h : s.queue.take? = none) :
    Outcome s now false .outbound (s, some (.ok ()))

theorem outcome_of_write? {m : Message} {rest : List Message} (hsending : s.driver.sending = m :: rest)
    (h : s.write? now m rest = some next) : s.Outcome now held side next := by
  obtain ⟨⟨connection, outbox, sending, begun⟩, x, queue, io⟩ := s
  unfold write? at h
  cases begun with
  | false =>
    obtain ⟨c, io', r, hbegin⟩ : ∃ c io' r, connection.begin io m = (c, io', r) := ⟨_, _, _, rfl⟩
    simp only [Bool.false_eq_true, if_false, hbegin] at h
    cases r with
    | done =>
      obtain rfl := Option.some.inj h
      exact .begun hsending rfl hbegin
    | failed e =>
      obtain rfl := Option.some.inj h
      exact .notBegun hsending rfl hbegin nofun
    | pending =>
      simp only at h
      split at h
      · cases h
      · obtain rfl := Option.some.inj h
        exact .notBegun hsending rfl hbegin nofun
  | true =>
    obtain ⟨c, io', j, r, hfinish⟩ : ∃ c io' j r,
      connection.finish io x.journal m now = (c, io', j, r) := ⟨_, _, _, _, rfl⟩
    have hjournal : r ≠ .done → j = x.journal := Connection.journal_of_not_finished hfinish
    simp only [if_true, hfinish] at h
    cases r with
    | done =>
      obtain rfl := Option.some.inj h
      exact .written hsending rfl hfinish
    | failed e =>
      obtain rfl := hjournal nofun
      obtain rfl := Option.some.inj h
      exact .notWritten hsending rfl hfinish nofun
    | pending =>
      obtain rfl := hjournal nofun
      simp only at h
      split at h
      · cases h
      · obtain rfl := Option.some.inj h
        exact .notWritten hsending rfl hfinish nofun

theorem outcome_of_read? (hidle : s.driver.sending = []) (h : s.read? now = some next) :
    s.Outcome now held .inbound next := by
  obtain ⟨c, io, j, answer, hreceive⟩ : ∃ c io j answer,
    s.driver.connection.receive s.io s.exchange.journal now = (c, io, j, answer) :=
      ⟨_, _, _, _, rfl⟩
  have hjournal : (∀ m, answer ≠ .message m) → j = s.exchange.journal :=
    Connection.journal_of_not_received hreceive
  unfold read? at h
  simp only [hreceive] at h
  cases answer with
  | pending =>
    obtain rfl := hjournal nofun
    simp only at h
    split at h
    · cases h
    · obtain rfl := Option.some.inj h
      exact .notRead hidle hreceive nofun
  | ended =>
    obtain rfl := hjournal nofun
    obtain rfl := Option.some.inj h
    exact .notRead hidle hreceive nofun
  | failed e =>
    obtain rfl := hjournal nofun
    obtain rfl := Option.some.inj h
    exact .notRead hidle hreceive nofun
  | message m =>
    have hx := Exchange.receive_eq ({ s.exchange with journal := j } : Exchange σ) c.peer m
    simp only [hx] at h
    obtain rfl := Option.some.inj h
    refine .read hidle hreceive hx ?_
    split
    · exact .inr rfl
    · exact .inl rfl

/-- A step comes to one of the outcomes. -/
theorem outcome_of_step? (h : s.step? now held side = some next) : s.Outcome now held side next := by
  unfold step? at h
  split at h
  · rename_i m rest hsending
    exact outcome_of_write? hsending h
  · rename_i hidle
    exact outcome_of_read? hidle h
  · rename_i hidle
    unfold take? at h
    split at h
    · rename_i m queue htake
      obtain rfl := Option.some.inj h
      exact .taken hidle htake
    · rename_i htake
      cases held with
      | true => cases h
      | false =>
        obtain rfl := Option.some.inj h
        exact .drained hidle htake

/-! ### What stays as it is -/

theorem Outcome.outbox_eq (h : s.Outcome now held side next) :
    next.1.driver.outbox = s.driver.outbox := by
  cases h <;> rfl

theorem Outcome.peer_eq (h : s.Outcome now held side next) :
    next.1.driver.connection.peer = s.driver.connection.peer := by
  cases h with
  | begun _ _ h | notBegun _ _ h =>
    have hpeer := s.driver.connection.peer_begin s.io ‹Message›
    rwa [h] at hpeer
  | written _ _ h | notWritten _ _ h => exact (congrArg (·.1.peer) h).symm
  | read _ h _ hc =>
    have hpeer := congrArg (·.1.peer) h
    rcases hc with rfl | rfl
    · exact hpeer.symm
    · exact hpeer.symm
  | notRead _ h => exact (congrArg (·.1.peer) h).symm
  | taken | drained => rfl

theorem Outcome.peers_eq (h : s.Outcome now held side next) :
    next.1.exchange.peers = s.exchange.peers := by
  cases h with
  | read _ _ hx =>
    rw [Exchange.receive_eq] at hx
    obtain ⟨rfl, -⟩ := Prod.mk.inj (Except.ok.inj hx)
    show (Exchange.absorb _ _ _).peers = _
    rw [Exchange.absorb_eq, Exchange.foldl_absorbBlock_eq]
  | begun | notBegun | written | notWritten | notRead | taken | drained => rfl

end DriveState
end BlockExchange
