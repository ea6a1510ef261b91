import BlockExchange.Proofs.DriverAccount
import BlockExchange.Proofs.TextForms
import BlockExchange.Store.Memory

/-!
# What a driver writes

`DriveState.Drives` is any sequence of steps of a driver, between which others fill its outbox, its
peer reads and writes, and the exchange changes. A running driver keeps its account, its bytes are in
order, and it stands in the stream of its peer behind the messages that it has answered
(`DriveState.Serves`). A step keeps this (`Serves.goOn`), or the driver stops, and then it has finished
what it had begun unless a message could not be written (`Serves.stop`). The bytes of the peer may be any
(`FrameCodec.begins`).
-/

namespace BlockExchange

/-! ### Any bytes of a peer -/

/-- Any bytes can be filled up so that `n` of them come before the rest. -/
theorem Bytes.exists_fill (n : Nat) (b : Bytes) :
    ∃ more front rest, b ++ more = front ++ rest ∧ front.length = n ∧
      rest.length = b.length - n := by
  have hlen : (b ++ List.replicate (n - b.length) 0).length = b.length + (n - b.length) := by
    rw [List.length_append, List.length_replicate]
  refine ⟨List.replicate (n - b.length) 0, _, _, (List.take_append_drop n _).symm, ?_, ?_⟩
  · rw [List.length_take, hlen]
    omega
  · rw [List.length_drop, hlen]
    omega

namespace FrameCodec
variable {maxSize : Nat} {fed more : Bytes}

/-- What comes next can be such that these bytes belong to a stream of frames within the limit, with a
header beyond it behind them or nothing. -/
def Begins (maxSize : Nat) (fed : Bytes) : Prop :=
  ∃ (bodies : List Bytes) (tail unread : Bytes),
    (∀ b ∈ bodies, b.length ≤ min maxSize maxHeader) ∧ (tail = [] ∨ Oversized maxSize tail) ∧
    fed ++ unread = bodies.flatMap frame ++ tail

theorem Begins.of_append (h : Begins maxSize (fed ++ more)) : Begins maxSize fed := by
  obtain ⟨bodies, tail, unread, hfit, htail, hfed⟩ := h
  exact ⟨bodies, tail, more ++ unread, hfit, htail, by rw [← List.append_assoc, hfed]⟩

theorem Begins.frame (h : Begins maxSize fed) {header body : Bytes}
    (hheader : header.length = headerSize) (hbody : body.length = header.toNat)
    (hfit : body.length ≤ min maxSize maxHeader) : Begins maxSize (header ++ (body ++ fed)) := by
  obtain ⟨bodies, tail, unread, hfits, htail, hfed⟩ := h
  refine ⟨body :: bodies, tail, unread, List.forall_mem_cons.mpr ⟨hfit, hfits⟩, htail, ?_⟩
  rw [List.flatMap_cons, FrameCodec.frame, hbody, ← hheader, Bytes.ofNat_toNat]
  simp only [List.append_assoc, hfed]

/-- Whatever a peer sends begins such a stream. -/
theorem begins (maxSize : Nat) (fed : Bytes) : Begins maxSize fed := by
  induction hlen : fed.length using Nat.strong_induction_on generalizing fed with
  | h n ih =>
    subst hlen
    by_cases hnil : fed = []
    · subst hnil
      exact ⟨[], [], [], nofun, .inl rfl, rfl⟩
    have hpos : 0 < fed.length := List.length_pos_iff.mpr hnil
    obtain ⟨more, header, rest, hfed, hheader, hrest⟩ := Bytes.exists_fill headerSize fed
    suffices h : Begins maxSize (header ++ rest) from .of_append (hfed.symm ▸ h)
    by_cases hlimit : min maxSize maxHeader < header.toNat
    · exact ⟨[], header ++ rest, [], nofun, .inr ⟨header, rest, rfl, hheader, hlimit⟩,
        List.append_nil _⟩
    · obtain ⟨more', body, rest', hbody, hsize, hrest'⟩ := Bytes.exists_fill header.toNat rest
      have hless : rest'.length < fed.length := by
        have hsize : headerSize = 4 := rfl
        omega
      have hframe : Begins maxSize (header ++ (body ++ rest')) :=
        (ih _ hless rest' rfl).frame hheader hsize (hsize ▸ Nat.not_lt.mp hlimit)
      rw [← hbody, ← List.append_assoc] at hframe
      exact hframe.of_append

end FrameCodec

namespace DriveState

/-! ### The end of a driver -/

section
variable {σ : Type} {s : DriveState σ} {side : Side} {result : Except DriveError Unit}
  {out : Bytes} {written : List Message}

/-- A driver that has stopped with this result after a look at this side. -/
structure Stopped (s : DriveState σ) (side : Side) (result : Except DriveError Unit) : Prop where
  complete : result = .ok () → s.driver.sending = []
  drained : side = .outbound → result = .ok () → s.queue.queue = []
  failed : ∀ m rest, s.driver.sending = m :: rest → ∃ e, result = .error (.codec e) ∧
    (maxFrameSize < m.encodedLength ∨ (e = .stream .brokenPipe ∧ s.io.outbound.closed = true))
  closing : s.finish.io.outbound.content = s.io.outbound.content

theorem content_finish (h : s.driver.Wrote out written)
    (hquiet : s.driver.connection.writer.waiting = [] ∨ s.io.outbound.closed = true) :
    s.finish.io.outbound.content = s.io.outbound.content :=
  FrameWriter.content_close h.within hquiet

theorem stopped_of_idle (h : s.driver.Wrote out written) (hidle : s.driver.sending = [])
    (hdrained : side = .outbound → result = .ok () → s.queue.queue = []) : s.Stopped side result where
  complete _ := hidle
  drained := hdrained
  failed m rest hsending := by
    rw [hidle] at hsending
    cases hsending
  closing := content_finish h (.inl (h.idle (h.begun_eq_false hidle)).1)

theorem stopped_of_failed {m : Message} {rest : List Message} {e : CodecError}
    (h : s.driver.Wrote out written) (hsending : s.driver.sending = m :: rest)
    (hcause : (s.driver.begun = false ∧ maxFrameSize < m.encodedLength) ∨
      (e = .stream .brokenPipe ∧ s.io.outbound.closed = true)) :
    s.Stopped side (.error (.codec e)) where
  complete := nofun
  drained := nofun
  failed m' rest' hsending' := by
    obtain ⟨rfl, -⟩ := List.cons.inj (hsending.symm.trans hsending')
    exact ⟨e, rfl, hcause.imp_left And.right⟩
  closing := content_finish h (hcause.imp (fun hlarge => (h.idle hlarge.1).1) And.right)

end

/-! ### Runs of a driver -/

variable {σ : Type} [BlockStore σ]

/-- A driver that starts, its steps, and what others do between them. When it stops, the result is
there, with the side that it looked at last. -/
inductive Drives : Record σ → DriveState σ → Option (Side × Except DriveError Unit) → Prop
  | start {s : DriveState σ} {peer : PeerId} {outbox : OutboxId}
      (h : s.driver = { connection := { peer }, outbox }) :
    Drives { queued := s.queue.queue, fed := s.io.inbound.content } s none
  /-- Others put messages into the outbox and change the exchange, and the peer reads and writes. -/
  | others {r : Record σ} {s : DriveState σ} (h : Drives r s none) {x : Exchange σ} {queue : Outbox}
      {inbound outbound : Pipe} {ms : List Message} {bytes : Bytes}
      (hqueue : queue.queue = s.queue.queue ++ ms)
      (hinbound : inbound.content = s.io.inbound.content ++ bytes) :
    Drives { r with queued := r.queued ++ ms, fed := r.fed ++ bytes }
      { s with exchange := x, queue, io := ⟨inbound, outbound⟩ } none
  | step {r : Record σ} {s next : DriveState σ} (h : Drives r s none) {now : Timestamp} {held : Bool}
      {side : Side} {result : Option (Except DriveError Unit)}
      (hs : s.step? now held side = some (next, result)) :
    Drives (r.after s next) next (result.map (Prod.mk side))

/-- A driver in a stream of these bodies, of which it has `later` ones to read. -/
structure Serves (tail unread : Bytes) (bodies later : List Bytes) (r : Record σ) (s : DriveState σ)
    (jobs : List (Job σ)) (written : List Message) : Prop where
  account : Account s.driver.connection.peer r s.queue.queue jobs written s.driver.sending
  wrote : s.driver.Wrote r.out written
  answered : bodies.map FrameCodec.told =
    (jobs.filterMap Job.answered?).map .message ++ later.map FrameCodec.told
  fits : ∀ b ∈ later, b.length ≤ min maxFrameSize FrameCodec.maxHeader
  reads : s.driver.connection.reader.Follows maxFrameSize tail unread s.io.inbound later

/-- A driver has these bodies to read, or it has stopped at a look at its peer's side. If all that the
peer has to send had come, the next body is no message then, or there is none. -/
def Faces (tail unread : Bytes) (later : List Bytes) (s : DriveState σ)
    (end? : Option (Side × Except DriveError Unit)) : Prop :=
  s.driver.connection.reader.Follows maxFrameSize tail unread s.io.inbound later ∨
  ∃ result, end? = some (.inbound, result) ∧ (unread = [] → ∀ body rest, later = body :: rest →
    ∃ e, FrameCodec.told body = .failed e ∧ result = .error (.codec e))

variable {tail unread : Bytes} {bodies later : List Bytes} {r : Record σ} {s next : DriveState σ}
  {jobs : List (Job σ)} {written : List Message} {now : Timestamp} {held : Bool} {side : Side}
  {result : Except DriveError Unit}

/-- A step at which only the writer moves. -/
theorem Serves.moveWriter (h : Serves tail unread bodies later r s jobs written) {c : Connection}
    {io : Duplex} {begun : Bool} {bytes : Bytes} (hpeer : c.peer = s.driver.connection.peer)
    (hreader : c.reader = s.driver.connection.reader) (hinbound : io.inbound = s.io.inbound)
    (htakes : s.io.outbound.Takes io.outbound bytes)
    (hwrote : Driver.Wrote { s.driver with connection := c, begun } (r.out ++ bytes) written)
    (hnext : next = { s with io, driver := { s.driver with connection := c, begun } }) :
    Serves tail unread bodies later (r.after s next) next jobs written := by
  subst hnext
  refine ⟨?_, ?_, h.answered, h.fits, ?_⟩
  · show Account c.peer _ _ _ _ _
    rw [hpeer]
    exact h.account.stays rfl
  · rw [Record.out_after htakes]
    exact hwrote
  · show c.reader.Follows _ _ _ io.inbound later
    rw [hreader, hinbound]
    exact h.reads

theorem Serves.goOn (h : Serves tail unread bodies later r s jobs written)
    (htail : tail = [] ∨ FrameCodec.Oversized maxFrameSize tail)
    (hs : s.Outcome now held side (next, none)) :
    ∃ later jobs written, Serves tail unread bodies later (r.after s next) next jobs written := by
  have hpeer : next.driver.connection.peer = s.driver.connection.peer := hs.peer_eq
  generalize hnext : (next, none) = outcome at hs
  cases hs with
  | begun hsending hbegun hb =>
    obtain ⟨rfl, -⟩ := Prod.mk.inj hnext
    obtain ⟨rfl, hreader, ⟨-, hwrote⟩ | ⟨-, _, hfailed, -⟩⟩ := h.wrote.begin hsending hbegun hb
    · rw [← List.append_nil r.out] at hwrote
      exact ⟨_, _, _, h.moveWriter hpeer hreader rfl (.nothing _) hwrote rfl⟩
    · cases hfailed
  | notBegun hsending hbegun hb hr =>
    obtain ⟨-, -, ⟨hdone, -⟩ | ⟨-, _, hfailed, -⟩⟩ := h.wrote.begin hsending hbegun hb
    · exact absurd hdone hr
    · subst hfailed
      cases (Prod.mk.inj hnext).2
  | @written _ _ m rest c io j hsending hbegun hf =>
    obtain ⟨rfl, -⟩ := Prod.mk.inj hnext
    obtain ⟨hinbound, hreader, bytes, htakes, -, hdone, -⟩ := h.wrote.finish hsending hbegun hf
    have haccount := h.account
    rw [hsending] at haccount
    refine ⟨later, jobs, written ++ [m], ?_, ?_, h.answered, h.fits, ?_⟩
    · rw [hpeer]
      refine haccount.writes ?_
      rw [Connection.journal_of_finish hf]
      rfl
    · rw [Record.out_after htakes]
      exact hdone rfl
    · show c.reader.Follows _ _ _ io.inbound later
      rw [hreader, hinbound]
      exact h.reads
  | @notWritten _ _ m rest c io p hsending hbegun hf hr =>
    obtain ⟨rfl, -⟩ := Prod.mk.inj hnext
    obtain ⟨hinbound, hreader, bytes, htakes, hwrote, -⟩ := h.wrote.finish hsending hbegun hf
    exact ⟨_, _, _, h.moveWriter hpeer hreader hinbound htakes hwrote rfl⟩
  | @read _ m c c' io j x replies hidle hread hx hc =>
    obtain ⟨rfl, -⟩ := Prod.mk.inj hnext
    obtain ⟨reader, inbound, hread', rfl, rfl⟩ := Connection.next_of_receive hread
    obtain ⟨body, rest, rfl, htold, hreads⟩ := h.reads.message h.fits htail hread'
    rw [Exchange.receive_eq] at hx
    obtain ⟨rfl, rfl⟩ := Prod.mk.inj (Except.ok.inj hx)
    have haccount := h.account
    rw [hidle] at haccount
    refine ⟨rest, jobs ++ [.answer s.exchange m], written, ?_, ?_, ?_,
      fun b hb => h.fits b (List.mem_cons_of_mem _ hb), ?_⟩
    · rw [hpeer]
      refine haccount.answers ?_ m
      show (Exchange.absorb _ _ m).sentBytes = _
      rw [Exchange.sentBytes_absorb, Connection.journal_of_receive hread]
      rfl
    · refine (h.wrote.give hidle ?_ _).quiet rfl
      rcases hc with rfl | rfl <;> rfl
    · rw [h.answered, List.filterMap_append, List.map_append, List.append_assoc, List.map_cons, htold]
      rfl
    · rcases hc with rfl | rfl
      · exact hreads
      · exact hreads.withBuffer rfl
  | @notRead _ c io answer hidle hread hanswer =>
    obtain ⟨rfl, hresult⟩ := Prod.mk.inj hnext
    obtain ⟨reader, inbound, hread', rfl, rfl⟩ := Connection.next_of_receive hread
    have hpending : answer = .pending := by
      cases answer with
      | pending => rfl
      | message m => exact absurd rfl (hanswer m)
      | ended | failed e => cases hresult
    subst hpending
    refine ⟨later, jobs, written, ?_, ?_, h.answered, h.fits, h.reads.pending h.fits htail hread'⟩
    · exact h.account.stays rfl
    · refine (h.wrote.give hidle ?_ s.driver.sending).quiet rfl
      rfl
  | @taken _ m queue hidle htake =>
    obtain ⟨rfl, -⟩ := Prod.mk.inj hnext
    have haccount := h.account
    rw [hidle, Outbox.queue_of_take? htake] at haccount
    refine ⟨later, jobs ++ [.forward m], written, haccount.takes rfl, ?_, ?_, h.fits, h.reads⟩
    · exact (h.wrote.give hidle rfl [m]).quiet rfl
    · rw [List.filterMap_append]
      exact (List.append_nil (jobs.filterMap Job.answered?)).symm ▸ h.answered
  | drained => cases hnext

theorem Serves.others {ms : List Message} {bytes : Bytes} {x : Exchange σ} {queue : Outbox}
    {inbound outbound : Pipe} (h : Serves tail (bytes ++ unread) bodies later r s jobs written)
    (hqueue : queue.queue = s.queue.queue ++ ms)
    (hinbound : inbound.content = s.io.inbound.content ++ bytes) :
    Serves tail unread bodies later { r with queued := r.queued ++ ms, fed := r.fed ++ bytes }
      { s with exchange := x, queue, io := ⟨inbound, outbound⟩ } jobs written := by
  obtain ⟨made, last, forwarded, seen, counted⟩ := h.account
  refine ⟨⟨made, last, ?_, seen, counted⟩, h.wrote, h.answered, h.fits, h.reads.feed hinbound⟩
  show jobs.filterMap Job.forwarded? ++ queue.queue = r.queued ++ ms
  rw [hqueue, ← List.append_assoc, forwarded]

/-- A running driver stands in the stream with what its peer has not sent yet. -/
theorem Drives.serves (h : Drives r s none)
    (hfit : ∀ b ∈ bodies, b.length ≤ min maxFrameSize FrameCodec.maxHeader)
    (htail : tail = [] ∨ FrameCodec.Oversized maxFrameSize tail)
    (hfed : r.fed ++ unread = bodies.flatMap FrameCodec.frame ++ tail) :
    ∃ later jobs written, Serves tail unread bodies later r s jobs written := by
  generalize hrunning : none = result at h
  induction h generalizing unread with
  | @start s peer outbox hdriver =>
    refine ⟨bodies, [], [], ⟨?_, ?_, rfl, List.Sublist.slnil, rfl⟩, ?_, rfl, hfit, ?_⟩
    · rw [hdriver]
      rfl
    · rw [hdriver]
      exact fun h => absurd rfl h
    · rw [hdriver]
      exact ⟨rfl, Nat.le_refl 0, nofun, [], rfl, rfl⟩
    · rw [hdriver]
      exact ⟨.between hfed, fun _ => (by decide : 0 < FrameCodec.headerSize), rfl, rfl⟩
  | @others r s _ x queue inbound outbound ms bytes hqueue hinbound ih =>
    rw [List.append_assoc] at hfed
    obtain ⟨later, jobs, written, hserves⟩ := ih hfed rfl
    exact ⟨later, jobs, written, hserves.others hqueue hinbound⟩
  | @step r s next _ now held side result hs ih =>
    obtain rfl := Option.map_eq_none_iff.mp hrunning.symm
    obtain ⟨later, jobs, written, hserves⟩ := ih hfed rfl
    exact hserves.goOn htail (outcome_of_step? hs)

theorem Serves.stop (h : Serves tail unread bodies later r s jobs written)
    (htail : tail = [] ∨ FrameCodec.Oversized maxFrameSize tail)
    (hs : s.Outcome now held side (next, some result)) :
    Account next.driver.connection.peer (r.after s next) next.queue.queue jobs written
      next.driver.sending ∧
    next.driver.Wrote (r.after s next).out written ∧ next.Stopped side result ∧
    next.Faces tail unread later (some (side, result)) := by
  have hpeer : next.driver.connection.peer = s.driver.connection.peer := hs.peer_eq
  generalize hnext : (next, some result) = outcome at hs
  cases hs with
  | begun | written | read | taken => cases (Prod.mk.inj hnext).2
  | notBegun hsending hbegun hb hr =>
    obtain ⟨rfl, hresult⟩ := Prod.mk.inj hnext
    obtain ⟨rfl, -, ⟨hdone, -⟩ | ⟨rfl, e, rfl, hlarge⟩⟩ := h.wrote.begin hsending hbegun hb
    · exact absurd hdone hr
    · obtain rfl := Option.some.inj hresult
      exact ⟨h.account.stays rfl, h.wrote.quiet rfl,
        stopped_of_failed h.wrote hsending (.inl ⟨hbegun, hlarge⟩), .inl h.reads⟩
  | @notWritten _ _ m rest c io p hsending hbegun hf hr =>
    obtain ⟨rfl, hresult⟩ := Prod.mk.inj hnext
    obtain ⟨hinbound, hreader, bytes, htakes, hwrote, -, hfailed⟩ :=
      h.wrote.finish hsending hbegun hf
    cases p with
    | done | pending => cases hresult
    | failed e =>
      obtain rfl := Option.some.inj hresult
      obtain ⟨rfl, hclosed⟩ := hfailed e rfl
      have hserves := h.moveWriter hpeer hreader hinbound htakes hwrote rfl
      exact ⟨hserves.account, hserves.wrote, stopped_of_failed hserves.wrote hsending
        (.inr ⟨rfl, htakes.closed.trans hclosed⟩), .inl hserves.reads⟩
  | @notRead _ c io answer hidle hread hanswer =>
    obtain ⟨rfl, hresult⟩ := Prod.mk.inj hnext
    obtain ⟨reader, inbound, hread', rfl, rfl⟩ := Connection.next_of_receive hread
    have hwrote := h.wrote.give hidle (c := { s.driver.connection with reader }) rfl s.driver.sending
    refine ⟨h.account.stays rfl, hwrote.quiet rfl, stopped_of_idle hwrote hidle nofun,
      .inr ⟨result, rfl, ?_⟩⟩
    rintro rfl body rest rfl
    obtain ⟨e, htold, rfl⟩ := h.reads.failed h.fits htail hread' hanswer
    exact ⟨e, htold, Option.some.inj hresult⟩
  | drained hidle htake =>
    obtain ⟨rfl, hresult⟩ := Prod.mk.inj hnext
    obtain rfl := Option.some.inj hresult
    exact ⟨h.account.stays rfl, h.wrote.quiet rfl,
      stopped_of_idle h.wrote hidle fun _ _ => Outbox.queue_eq_nil_of_take? htake, .inl h.reads⟩

/-- However a driver runs and whatever its peer sends (`FrameCodec.begins`), the messages that it writes
are those of its jobs, in order: to forward what is put into its outbox, in order and without a gap, and
to answer what its peer sends, in order and without a gap, each with the messages that the node then
answers it with. Only the last job may be cut short, by a message that cannot be written because it is
too large or the pipe is closed. A driver that stops because nobody holds its outbox any more has
forwarded all that was put into it, and one that stops because its peer has sent everything has answered
all of it up to the first body that is no message. The pipe gets the frames of the messages written and
a beginning of the next at most, also when the driver lets go of the connection, and the messages
written are the ones that are counted. -/
theorem output_of_drives {end? : Option (Side × Except DriveError Unit)} (h : Drives r s end?)
    (hfit : ∀ b ∈ bodies, b.length ≤ maxFrameSize)
    (htail : tail = [] ∨ FrameCodec.Oversized maxFrameSize tail)
    (hfed : r.fed ++ unread = bodies.flatMap FrameCodec.frame ++ tail) :
    ∃ jobs written later,
      Account s.driver.connection.peer r s.queue.queue jobs written s.driver.sending ∧
      bodies.map FrameCodec.told =
        (jobs.filterMap Job.answered?).map .message ++ later.map FrameCodec.told ∧
      s.Faces tail unread later end? ∧
      FarEnd.frames written <+: r.out ∧
      r.out <+: FarEnd.frames (written ++ s.driver.sending.take 1) ∧
      ∀ side result, end? = some (side, result) → s.Stopped side result := by
  have hheader : maxFrameSize ≤ FrameCodec.maxHeader := by decide
  have hfit : ∀ b ∈ bodies, b.length ≤ min maxFrameSize FrameCodec.maxHeader := fun b hb =>
    Nat.le_min.mpr ⟨hfit b hb, Nat.le_trans (hfit b hb) hheader⟩
  cases end? with
  | none =>
    obtain ⟨later, jobs, written, hserves⟩ := h.serves hfit htail hfed
    obtain ⟨hbefore, hafter⟩ := hserves.wrote.prefixes
    exact ⟨jobs, written, later, hserves.account, hserves.answered, .inl hserves.reads, hbefore, hafter,
      nofun⟩
  | some last =>
    generalize hlast : some last = end? at h
    cases h with
    | start | others => cases hlast
    | @step r s next h now held side result hs =>
      obtain ⟨result, rfl, rfl⟩ := Option.map_eq_some_iff.mp hlast.symm
      obtain ⟨later, jobs, written, hserves⟩ := h.serves hfit htail hfed
      obtain ⟨haccount, hwrote, hstopped, hfaces⟩ := hserves.stop htail (outcome_of_step? hs)
      obtain ⟨hbefore, hafter⟩ := hwrote.prefixes
      refine ⟨jobs, written, later, haccount, hserves.answered, hfaces, hbefore, hafter,
        fun side' result' hend => ?_⟩
      obtain ⟨rfl, rfl⟩ := Prod.mk.inj (Option.some.inj hend)
      exact hstopped

/-! ### Looks at both sides -/

/-- The step of a driver that looks at this side when nobody else holds its outbox, with its record;
none if it makes none or stops. -/
def look? (rs : Record σ × DriveState σ) (side : Side) : Option (Record σ × DriveState σ) :=
  match rs.2.step? ⟨0⟩ false side with
  | some (next, none) => some (rs.1.after rs.2 next, next)
  | _ => none

theorem Drives.looks {rs rs' : Record σ × DriveState σ} {sides : List Side}
    (h : Drives rs.1 rs.2 none) (hlooks : sides.foldlM look? rs = some rs') :
    Drives rs'.1 rs'.2 none := by
  induction sides generalizing rs with
  | nil =>
    obtain rfl := Option.some.inj hlooks
    exact h
  | cons side sides ih =>
    rw [List.foldlM_cons] at hlooks
    obtain ⟨mid, hlook, hrest⟩ := Option.bind_eq_some_iff.mp hlooks
    unfold look? at hlook
    split at hlook
    · obtain rfl := Option.some.inj hlook
      exact ih (h.step ‹_›) hrest
    · cases hlook

theorem step?_of_drained (hidle : s.driver.sending = []) (hqueue : s.queue.queue = []) :
    s.step? now false .outbound = some (s, some (.ok ())) := by
  have htake : s.queue.take? = none := by rw [Outbox.take?, hqueue]
  unfold step? take?
  rw [hidle, htake]
  rfl

/-- A node that has a block. -/
def holder : Exchange MemoryStore :=
  .new {} (BlockStore.put ({} : MemoryStore) Codec.raw [3]).1 .allowAll .disabled

/-- A message that wants the block. -/
def request : Message where
  wantlist := some { entries := [.want ⟨.raw [3], none⟩ .block true] }

/-- Two messages to forward. -/
def notices : List Message :=
  [{ pendingBytes := 1 }, { pendingBytes := 2 }]

/-- A driver of the node, with those in its outbox and the other one in its pipe. -/
def beginning : DriveState MemoryStore where
  driver :=
    let peer : PeerId := ⟨⟨Multihash.identity, [1, 2], by decide⟩, .inr ⟨rfl, by decide⟩⟩
    { connection := { peer }, outbox := 0 }
  exchange := holder
  queue := { capacity := Driver.outboxCapacity, queue := notices }
  io := ⟨{ capacity := 64, content := FrameCodec.frame request.encode }, { capacity := 64 }⟩

/-- What the node answers the request with. -/
def response : List Message :=
  holder.answerTo beginning.driver.connection.peer request

/-- The driver writes the response between the two messages. -/
theorem exists_drives_between :
    ∃ (r : Record MemoryStore) (s : DriveState MemoryStore), Drives r s none ∧
      s.driver.sending = [] ∧ s.queue.queue = [] ∧ r.queued = notices ∧
      r.fed = FrameCodec.frame request.encode ∧
      r.out = FarEnd.frames (notices.take 1 ++ response ++ notices.drop 1) := by
  let rs : Record MemoryStore × DriveState MemoryStore :=
    ({ queued := beginning.queue.queue, fed := beginning.io.inbound.content }, beginning)
  -- A message to forward and one to answer take three steps each: to get it, to begin and to finish.
  let sides : List Side := [.outbound, .inbound, .outbound].flatMap (List.replicate 3)
  have hend : ((sides.foldlM look? rs).any fun rs => decide (
      rs.2.driver.sending = [] ∧ rs.2.queue.queue = [] ∧ rs.1.queued = notices ∧
      rs.1.fed = FrameCodec.frame request.encode ∧
      rs.1.out = FarEnd.frames (notices.take 1 ++ response ++ notices.drop 1))) = true := by
    decide +kernel
  obtain ⟨rs', hlooks, hrs'⟩ := (Option.any_eq_true _ _).mp hend
  exact ⟨rs'.1, rs'.2, (Drives.start rfl : Drives rs.1 rs.2 none).looks hlooks, of_decide_eq_true hrs'⟩

/-- A driver forwards a message, answers one of its peer and forwards another. Then nobody holds its
outbox any more, and it stops. -/
theorem output_of_drives_answered :
    ∃ (r : Record MemoryStore) (s : DriveState MemoryStore) (jobs : List (Job MemoryStore))
      (written : List Message),
      Drives r s (some (.outbound, .ok ())) ∧ r.queued = notices ∧
      r.fed = FrameCodec.frame request.encode ∧ response ≠ [] ∧
      r.out = FarEnd.frames (notices.take 1 ++ response ++ notices.drop 1) ∧
      Account s.driver.connection.peer r s.queue.queue jobs written s.driver.sending ∧
      FarEnd.frames written = r.out ∧ s.driver.sending = [] ∧ s.queue.queue = [] := by
  obtain ⟨r, s, hdrives, hidle, hqueue, hqueued, hfed, hout⟩ := exists_drives_between
  have hstop : s.step? ⟨0⟩ false .outbound = some (s, some (.ok ())) := step?_of_drained hidle hqueue
  have hlast : Drives (r.after s s) s (some (.outbound, .ok ())) := hdrives.step hstop
  have hsame : (r.after s s).out = r.out :=
    (Record.out_after (.nothing _)).trans (List.append_nil _)
  have hfit : ∀ b ∈ [request.encode], b.length ≤ maxFrameSize := by decide +kernel
  have hstream : (r.after s s).fed ++ [] = [request.encode].flatMap FrameCodec.frame ++ [] := by
    rw [List.flatMap_singleton, ← hfed]
    rfl
  obtain ⟨jobs, written, later, haccount, -, -, hbefore, hafter, -⟩ :=
    output_of_drives hlast hfit (.inl rfl) hstream
  rw [hidle, List.take_nil, List.append_nil] at hafter
  exact ⟨_, s, jobs, written, hlast, hqueued, hfed, by decide +kernel, hsame.trans hout, haccount,
    hbefore.eq_of_length_le hafter.length_le, hidle, hqueue⟩

end DriveState
end BlockExchange
