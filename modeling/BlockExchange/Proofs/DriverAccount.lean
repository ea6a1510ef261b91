import BlockExchange.FarEnd
import BlockExchange.Proofs.BytesInOrder
import BlockExchange.Proofs.DriveSteps
import BlockExchange.Proofs.TwoNodes

/-!
# The account of a driver

A driver has jobs, one after the other: to forward a message of its outbox, or to answer a message of
its peer. It forwards the messages of the outbox in order and writes the messages of one job before
those of the next (`Account`). The bytes that it has put into the pipe are those of the messages
written and a beginning of the one that is being written (`Driver.Wrote`). What can be seen of it is
kept in a `Record`.
-/

namespace BlockExchange

theorem FarEnd.frames_append (ms ns : List Message) : frames (ms ++ ns) = frames ms ++ frames ns :=
  List.flatMap_append

theorem FarEnd.frames_singleton (m : Message) : frames [m] = FrameCodec.frame m.encode :=
  List.flatMap_singleton ..

/-! ### The message that is being written -/

namespace Driver

/-- The message that the writer has taken on. -/
def current (d : Driver) : List Message :=
  if d.begun then d.sending.take 1 else []

/-- The pipe has got the bytes of the messages written and the first ones of the message that the writer
has taken on, and the others wait with the writer. -/
structure Wrote (d : Driver) (out : Bytes) (written : List Message) : Prop where
  limit : d.connection.writer.codec.maxSize = maxFrameSize
  within : d.connection.writer.Within
  busy : d.begun = true → d.sending ≠ []
  bytes : ∃ front, out = FarEnd.frames written ++ front ∧
    front ++ d.connection.writer.waiting = FarEnd.frames d.current

variable {d : Driver} {out : Bytes} {written rest : List Message} {m : Message} {c : Connection}
  {io io' : Duplex} {j j' : Journal} {r : Progress} {now : Timestamp}

theorem Wrote.idle (h : d.Wrote out written) (hbegun : d.begun = false) :
    d.connection.writer.waiting = [] ∧ out = FarEnd.frames written := by
  obtain ⟨front, hout, hfront⟩ := h.bytes
  have hcurrent : d.current = [] := if_neg (by rw [hbegun]; nofun)
  rw [hcurrent] at hfront
  obtain ⟨rfl, hwaiting⟩ := List.append_eq_nil_iff.mp hfront
  exact ⟨hwaiting, by rw [hout, List.append_nil]⟩

theorem Wrote.begun_eq_false (h : d.Wrote out written) (hidle : d.sending = []) : d.begun = false := by
  cases hbegun : d.begun with
  | false => rfl
  | true => exact absurd hidle (h.busy hbegun)

theorem Wrote.prefixes (h : d.Wrote out written) :
    FarEnd.frames written <+: out ∧ out <+: FarEnd.frames (written ++ d.sending.take 1) := by
  obtain ⟨front, rfl, hfront⟩ := h.bytes
  refine ⟨List.prefix_append _ _, ?_⟩
  rw [FarEnd.frames_append, List.prefix_append_right_inj]
  unfold current at hfront
  split at hfront
  · exact ⟨_, hfront⟩
  · rw [(List.append_eq_nil_iff.mp hfront).1]
    exact List.nil_prefix

/-- Between two messages a driver may be given others to write. -/
theorem Wrote.give (h : d.Wrote out written) (hidle : d.sending = [])
    (hwriter : c.writer = d.connection.writer) (ms : List Message) :
    Wrote { d with connection := c, sending := ms } out written := by
  have hbegun := h.begun_eq_false hidle
  obtain ⟨hwaiting, hout⟩ := h.idle hbegun
  have hcurrent : current { d with connection := c, sending := ms } = [] :=
    if_neg (by rw [hbegun]; nofun)
  refine ⟨?_, ?_, fun h => absurd (hbegun.symm.trans h) nofun, [], ?_, ?_⟩
  · rw [hwriter]
    exact h.limit
  · rw [hwriter]
    exact h.within
  · rw [hout, List.append_nil]
  · rw [hwriter, hwaiting, hcurrent]
    rfl

/-- The writer has taken on the next message, or refuses it for its size. -/
theorem Wrote.begin (h : d.Wrote out written) (hsending : d.sending = m :: rest)
    (hbegun : d.begun = false) (hb : d.connection.begin io m = (c, io', r)) :
    io' = io ∧ c.reader = d.connection.reader ∧
    ((r = .done ∧ Wrote { d with connection := c, begun := true } out written) ∨
    (c = d.connection ∧ ∃ e, r = .failed e ∧ maxFrameSize < m.encodedLength)) := by
  obtain ⟨hwaiting, hout⟩ := h.idle hbegun
  obtain ⟨rfl, ⟨rfl, rfl⟩ | ⟨rfl, e, rfl, hlarge⟩⟩ := Connection.begin_spec hwaiting hb
  · refine ⟨rfl, rfl, .inl ⟨rfl, h.limit, h.within, fun _ => by rw [hsending]; nofun, [], ?_, ?_⟩⟩
    · rw [hout, List.append_nil]
    · show d.connection.writer.behind.waiting ++ FrameCodec.frame m.encode =
        FarEnd.frames (d.sending.take 1)
      rw [(List.append_eq_nil_iff.mp hwaiting).1, hsending]
      exact (FarEnd.frames_singleton m).symm
  · refine ⟨rfl, rfl, .inr ⟨rfl, e, rfl, ?_⟩⟩
    rw [h.limit] at hlarge
    have hheader : maxFrameSize < FrameCodec.maxHeader := by decide
    omega

/-- The pipe takes more bytes of the message, and all of them when it is written. -/
theorem Wrote.finish (h : d.Wrote out written) (hsending : d.sending = m :: rest)
    (hbegun : d.begun = true) (hf : d.connection.finish io j m now = (c, io', j', r)) :
    io'.inbound = io.inbound ∧ c.reader = d.connection.reader ∧
    ∃ bytes, io.outbound.Takes io'.outbound bytes ∧
      Wrote { d with connection := c } (out ++ bytes) written ∧
      (r = .done → Wrote { d with connection := c, sending := rest, begun := false } (out ++ bytes)
        (written ++ [m])) ∧
      ∀ e, r = .failed e → e = .stream .brokenPipe ∧ io.outbound.closed = true := by
  obtain ⟨hmoves, hreader, hinbound, hdone, hfailed⟩ := Connection.finish_spec h.within hf
  obtain ⟨bytes, htakes, hbytes⟩ := hmoves.taken
  obtain ⟨front, hout, hfront⟩ := h.bytes
  have hcurrent : d.current = [m] := by
    unfold current
    rw [if_pos hbegun, hsending]
    rfl
  have hlimit : c.writer.codec.maxSize = maxFrameSize := by rw [hmoves.codec]; exact h.limit
  have hout' : out ++ bytes = FarEnd.frames written ++ (front ++ bytes) := by
    rw [hout, List.append_assoc]
  have hfront' : (front ++ bytes) ++ c.writer.waiting = FarEnd.frames d.current := by
    rw [List.append_assoc, hbytes, hfront]
  refine ⟨hinbound, hreader, bytes, htakes, ⟨hlimit, hmoves.within, h.busy, _, hout', hfront'⟩,
    fun hr => ⟨hlimit, hmoves.within, nofun, [], ?_, ?_⟩, hfailed⟩
  · rw [hdone hr, List.append_nil, hcurrent] at hfront'
    rw [hout', hfront', List.append_nil, FarEnd.frames_append]
  · exact hdone hr

end Driver

/-! ### Jobs -/

/-- What a driver has to do. -/
inductive Job (σ : Type)
  | forward (m : Message)
  /-- To answer a message from what the node is and has at that moment. -/
  | answer (x : Exchange σ) (m : Message)

namespace Job
variable {σ : Type}

/-- The messages that a job consists of. -/
def messages [BlockStore σ] (peer : PeerId) : Job σ → List Message
  | forward m => [m]
  | answer x m => x.answerTo peer m

def forwarded? : Job σ → Option Message
  | forward m => some m
  | answer _ _ => none

def answered? : Job σ → Option Message
  | forward _ => none
  | answer _ m => some m

def exchange? : Job σ → Option (Exchange σ)
  | forward _ => none
  | answer x _ => some x

end Job

def Exchange.sentBytes {σ : Type} (x : Exchange σ) : Nat :=
  x.journal.counters.sentBytes

theorem Exchange.sentBytes_absorb {σ : Type} (x : Exchange σ) (peer : PeerId) (m : Message) :
    (x.absorb peer m).sentBytes = x.sentBytes := by
  rw [absorb_eq]
  show (m.payload.foldl absorbBlock x).sentBytes = x.sentBytes
  generalize m.payload = bs
  induction bs generalizing x with
  | nil => rfl
  | cons b bs ih =>
    rw [List.foldl_cons, ih]
    rcases x.absorbBlock_cases b with ⟨_, -, hx⟩ | ⟨_, -, -, hx⟩ | ⟨_, -, -, hx⟩ <;> rw [hx] <;> rfl

/-- What can be seen of a driver. -/
structure Record (σ : Type) where
  /-- All that was put into its outbox. -/
  queued : List Message
  /-- All bytes that its peer has sent. -/
  fed : Bytes
  /-- All bytes that it has put into the pipe to its peer. -/
  out : Bytes := []
  /-- By how much it has raised the counter of sent bytes. -/
  counted : Nat := 0
  /-- The exchange as each of its steps found it. -/
  seen : List (Exchange σ) := []

/-- The record after a step of the driver. -/
def Record.after {σ : Type} (r : Record σ) (s next : DriveState σ) : Record σ :=
  { r with
    out := r.out ++ next.io.outbound.content.drop s.io.outbound.content.length
    counted := r.counted + (next.exchange.sentBytes - s.exchange.sentBytes)
    seen := r.seen ++ [s.exchange] }

theorem Record.out_after {σ : Type} {r : Record σ} {s next : DriveState σ} {bytes : Bytes}
    (h : s.io.outbound.Takes next.io.outbound bytes) : (r.after s next).out = r.out ++ bytes := by
  show r.out ++ next.io.outbound.content.drop s.io.outbound.content.length = _
  rw [h.content, List.drop_left]

/-- A step at which nothing gets into the pipe. -/
theorem Driver.Wrote.quiet {σ : Type} {r : Record σ} {s next : DriveState σ} {d : Driver}
    {written : List Message} (h : d.Wrote r.out written)
    (hquiet : next.io.outbound = s.io.outbound) : d.Wrote (r.after s next).out written := by
  have htakes : s.io.outbound.Takes next.io.outbound [] := hquiet ▸ .nothing _
  rw [Record.out_after htakes, List.append_nil]
  exact h

/-- The messages of the jobs are written in order, with those `unfinished` that are still to be written,
all of them of the last job. The messages of the outbox are forwarded in order, those in `queue` not
yet, and each message is answered from the exchange as it was then. Those written are counted. -/
structure Account {σ : Type} [BlockStore σ] (peer : PeerId) (r : Record σ) (queue : List Message)
    (jobs : List (Job σ)) (written unfinished : List Message) : Prop where
  made : written ++ unfinished = jobs.flatMap (Job.messages peer)
  last : unfinished ≠ [] → ∃ job, jobs.getLast? = some job ∧ unfinished <:+ job.messages peer
  forwarded : jobs.filterMap Job.forwarded? ++ queue = r.queued
  seen : (jobs.filterMap Job.exchange?).Sublist r.seen
  counted : r.counted = (written.map Message.encodedLength).sum

namespace Account
variable {σ : Type} [BlockStore σ] {peer : PeerId} {r : Record σ} {s next : DriveState σ}
  {queue written unfinished rest : List Message} {jobs : List (Job σ)} {m : Message}

theorem stays (h : Account peer r queue jobs written unfinished)
    (hsent : next.exchange.sentBytes = s.exchange.sentBytes) :
    Account peer (r.after s next) queue jobs written unfinished := by
  refine ⟨h.made, h.last, h.forwarded, h.seen.trans (List.sublist_append_left _ _), ?_⟩
  show r.counted + _ = _
  rw [hsent, Nat.sub_self]
  exact h.counted

theorem writes (h : Account peer r queue jobs written (m :: rest))
    (hsent : next.exchange.sentBytes = s.exchange.sentBytes + m.encodedLength) :
    Account peer (r.after s next) queue jobs (written ++ [m]) rest := by
  refine ⟨?_, fun _ => ?_, h.forwarded, h.seen.trans (List.sublist_append_left _ _), ?_⟩
  · rw [List.append_assoc]
    exact h.made
  · obtain ⟨job, hjob, hrest⟩ := h.last nofun
    exact ⟨job, hjob, (List.suffix_cons m rest).trans hrest⟩
  · show r.counted + _ = _
    rw [hsent, Nat.add_sub_cancel_left, h.counted, List.map_append, List.sum_append]
    simp

theorem takes (h : Account peer r (m :: queue) jobs written [])
    (hsent : next.exchange.sentBytes = s.exchange.sentBytes) :
    Account peer (r.after s next) queue (jobs ++ [.forward m]) written [m] := by
  obtain ⟨made, -, forwarded, seen, counted⟩ := h.stays hsent
  refine ⟨?_, fun _ => ⟨.forward m, List.getLast?_concat, List.suffix_rfl⟩, ?_, ?_, counted⟩
  · rw [List.flatMap_append, ← made, List.append_nil]
    rfl
  · rw [List.filterMap_append, ← forwarded, List.append_assoc]
    rfl
  · rw [List.filterMap_append]
    exact (List.append_nil (jobs.filterMap Job.exchange?)).symm ▸ seen

theorem answers (h : Account peer r queue jobs written [])
    (hsent : next.exchange.sentBytes = s.exchange.sentBytes) (m : Message) :
    Account peer (r.after s next) queue (jobs ++ [.answer s.exchange m]) written
      (s.exchange.answerTo peer m) := by
  obtain ⟨made, -, forwarded, -, counted⟩ := h.stays hsent
  refine ⟨?_, fun _ => ⟨.answer s.exchange m, List.getLast?_concat, List.suffix_rfl⟩, ?_, ?_, counted⟩
  · rw [List.flatMap_append, ← made, List.append_nil, List.flatMap_singleton]
    rfl
  · rw [List.filterMap_append, ← forwarded]
    show (_ ++ []) ++ queue = _
    rw [List.append_nil]
  · rw [List.filterMap_append]
    exact h.seen.append (List.Sublist.refl [s.exchange])

end Account

end BlockExchange
