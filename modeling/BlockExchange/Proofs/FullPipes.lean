import BlockExchange.Proofs.DriverOutput

/-!
# Full pipes

A writer goes on until all is written or the pipe has no room left (`FrameWriter.full_of_flush`). So a
driver that is suspended in writing faces a full pipe and has bytes left that go into none
(`DriveState.Suspended.full`). No step changes how much a pipe can hold (`DriveState.Outcome.pours`).
-/

namespace BlockExchange

/-! ### Writing until there is no room -/

theorem Pipe.full_of_write? {p p' : Pipe} {b left : Bytes} (h : p.write? b = some (p', left)) :
    p'.capacity = p.capacity ∧ (left ≠ [] → p'.room = 0) := by
  unfold write? at h
  split at h
  · cases h
  · simp only [List.splitAt_eq, Option.some.injEq, Prod.mk.injEq] at h
    obtain ⟨rfl, rfl⟩ := h
    refine ⟨rfl, fun hleft => ?_⟩
    have hlong : p.room < b.length := Nat.lt_of_not_le fun hle => hleft (List.drop_eq_nil_of_le hle)
    show p.capacity - (p.content ++ b.take p.room).length = 0
    rw [List.length_append, List.length_take]
    unfold room at hlong ⊢
    omega

namespace WriteBehind
variable {b b' : WriteBehind} {p p' : Pipe} {flow : Flow} {piece left : Bytes}

theorem full_of_flush (h : b.flush p = (b', p', flow)) :
    p'.capacity = p.capacity ∧ (flow = .pending → p'.room = 0 ∧ b.waiting ≠ []) := by
  unfold flush at h
  simp only at h
  split at h
  · obtain ⟨rfl, rfl, rfl⟩ := by simpa only [Prod.mk.injEq] using h
    exact ⟨rfl, nofun⟩
  rename_i hrest
  split at h
  · obtain ⟨rfl, rfl, rfl⟩ := by simpa only [Prod.mk.injEq] using h
    exact ⟨rfl, nofun⟩
  rename_i hwrite
  obtain ⟨hcapacity, hfull⟩ := Pipe.full_of_write? hwrite
  split at h
  · obtain ⟨rfl, rfl, rfl⟩ := by simpa only [Prod.mk.injEq] using h
    exact ⟨hcapacity, nofun⟩
  · rename_i hleft
    obtain ⟨rfl, rfl, rfl⟩ := by simpa only [Prod.mk.injEq] using h
    exact ⟨hcapacity, fun _ => ⟨hfull (mt List.isEmpty_iff.mpr hleft), mt List.isEmpty_iff.mpr hrest⟩⟩

/-- A piece that is not taken on at all finds no room, and one that is gets shorter. -/
theorem full_of_write (hpiece : piece ≠ []) (h : b.write p piece = (b', p', flow, left)) :
    p'.capacity = p.capacity ∧ (flow = .pending → p'.room = 0) ∧
    (flow = .done → left.length < piece.length) := by
  unfold write at h
  generalize hfirst : (if limit < b.held.length + piece.length then b.flush p else (b, p, .done)) =
    first at h
  obtain ⟨c, q, f⟩ := first
  obtain ⟨hcapacity, hfull⟩ : q.capacity = p.capacity ∧ (f = .pending → q.room = 0) := by
    split at hfirst
    · obtain ⟨hcapacity, hfull⟩ := full_of_flush hfirst
      exact ⟨hcapacity, fun hf => (hfull hf).1⟩
    · obtain ⟨rfl, rfl, rfl⟩ := by simpa only [Prod.mk.injEq] using hfirst
      exact ⟨rfl, nofun⟩
  cases f with
  | done =>
    simp only at h
    split at h
    · obtain ⟨rfl, rfl, rfl, rfl⟩ := by simpa only [Prod.mk.injEq] using h
      exact ⟨hcapacity, nofun, fun _ => List.length_pos_iff.mpr hpiece⟩
    split at h
    · obtain ⟨rfl, rfl, rfl, rfl⟩ := by simpa only [Prod.mk.injEq] using h
      exact ⟨hcapacity, nofun, nofun⟩
    · rename_i hwrite
      obtain ⟨hcapacity', hfull'⟩ := Pipe.full_of_write? hwrite
      simp only [Prod.mk.injEq] at h
      obtain ⟨rfl, rfl, rfl, rfl⟩ := h
      refine ⟨hcapacity'.trans hcapacity, fun hflow => ?_, fun hflow => ?_⟩
      · split at hflow
        · cases hflow
        · rename_i hsame
          refine hfull' fun hnil => hsame ?_
          rw [hnil]
          exact List.length_pos_iff.mpr hpiece
      · split at hflow
        · assumption
        · cases hflow
  | pending | broken =>
    obtain ⟨rfl, rfl, rfl, rfl⟩ := by simpa only [Prod.mk.injEq] using h
    exact ⟨hcapacity, hfull, nofun⟩

end WriteBehind

namespace FrameWriter
variable {w w' : FrameWriter} {p p' : Pipe} {r : Progress}

/-- A writer stops at a full pipe only. -/
theorem full_of_flush (h : w.flush p = (w', p', r)) :
    p'.capacity = p.capacity ∧ (r = .pending → p'.room = 0 ∧ w.waiting ≠ []) := by
  generalize hsize : w.unsent.length = size
  induction size using Nat.strongRecOn generalizing w p with
  | ind size ih =>
  rw [flush] at h
  split at h
  · obtain ⟨b, q, flow, hflush⟩ : ∃ b q flow, w.behind.flush p = (b, q, flow) := ⟨_, _, _, rfl⟩
    simp only [hflush, Prod.mk.injEq] at h
    obtain ⟨rfl, rfl, rfl⟩ := h
    obtain ⟨hcapacity, hfull⟩ := WriteBehind.full_of_flush hflush
    refine ⟨hcapacity, fun hr => ?_⟩
    cases flow with
    | pending => exact ⟨(hfull rfl).1, fun hnil => (hfull rfl).2 (List.append_eq_nil_iff.mp hnil).1⟩
    | done | broken => cases hr
  · rename_i hunsent
    have hunsent : w.unsent ≠ [] := mt List.isEmpty_iff.mpr hunsent
    have hwaiting : w.waiting ≠ [] := fun hnil => hunsent (List.append_eq_nil_iff.mp hnil).2
    obtain ⟨b, q, flow, left, hwrite⟩ : ∃ b q flow left,
      w.behind.write p w.unsent = (b, q, flow, left) := ⟨_, _, _, _, rfl⟩
    obtain ⟨hcapacity, hfull, hless⟩ := WriteBehind.full_of_write hunsent hwrite
    simp only [hwrite] at h
    cases flow with
    | done =>
      rw [if_pos (hless rfl)] at h
      obtain ⟨hcapacity', hfull'⟩ := ih left.length (hsize ▸ hless rfl) h rfl
      exact ⟨hcapacity'.trans hcapacity, fun hr => ⟨(hfull' hr).1, hwaiting⟩⟩
    | pending =>
      obtain ⟨rfl, rfl, rfl⟩ := by simpa only [Prod.mk.injEq] using h
      exact ⟨hcapacity, fun _ => ⟨hfull rfl, hwaiting⟩⟩
    | broken =>
      obtain ⟨rfl, rfl, rfl⟩ := by simpa only [Prod.mk.injEq] using h
      refine ⟨hcapacity, fun hr => ?_⟩
      cases hr

/-- How many bytes wait can be told from the backlog. -/
theorem length_waiting (w : FrameWriter) :
    w.waiting.length = w.backlog.2.1 - w.backlog.2.2 + w.backlog.1 := by
  rw [waiting, List.length_append, WriteBehind.waiting, List.length_drop]
  rfl

/-- A writer that waits and has not moved a byte finds the pipe full already. -/
theorem full_of_stuck (hw : w.Within) (h : w.flush p = (w', p', .pending))
    (hsame : w'.backlog = w.backlog) : p.room = 0 ∧ w.waiting ≠ [] := by
  obtain ⟨hcapacity, hfull⟩ := full_of_flush h
  obtain ⟨bytes, htakes, hbytes⟩ := (flush_spec hw h).1.taken
  have hlength : w'.waiting.length = w.waiting.length := by
    rw [length_waiting, length_waiting, hsame]
  have hnone : bytes = [] := by
    have htotal := congrArg List.length hbytes
    rw [List.length_append] at htotal
    exact List.eq_nil_of_length_eq_zero (by omega)
  have hroom : p.room = p'.room := by
    unfold Pipe.room
    rw [hcapacity, htakes.content, hnone, List.append_nil]
  exact ⟨hroom.trans (hfull rfl).1, (hfull rfl).2⟩

end FrameWriter

/-! ### Reading -/

theorem ReadAhead.capacity_read {a a' : ReadAhead} {p p' : Pipe} {n : Nat} {bytes : Option Bytes}
    (h : a.read p n = (a', p', bytes)) : p'.capacity = p.capacity := by
  have hp : p' = (a.read p n).2.1 := by rw [h]
  rw [hp]
  unfold read
  split
  · rfl
  split
  · rfl
  split <;> rfl

namespace FrameReader

theorem capacity_read (r : FrameReader) (p : Pipe) : (r.read p).2.1.capacity = p.capacity := by
  fun_induction FrameReader.read r p with
  | case1 => rfl
  | case2 | case3 | case4 | case6 => exact ReadAhead.capacity_read ‹ReadAhead.read _ _ _ = _›
  | case5 =>
    rename_i ih
    exact ih.trans (ReadAhead.capacity_read ‹ReadAhead.read _ _ _ = _›)

theorem capacity_next (r : FrameReader) (p : Pipe) : (r.next p).2.1.capacity = p.capacity := by
  unfold next
  split
  · rfl
  · exact capacity_read r p

end FrameReader

/-! ### Suspended drivers -/

/-- What comes of going on with `m`: the writer after it, and how far that is. -/
def Driver.attempt (d : Driver) (io : Duplex) (m : Message) : FrameWriter × Progress :=
  if d.begun then
    let (writer, _, r) := d.connection.writer.flush io.outbound
    (writer, r)
  else
    let (connection, _, r) := d.connection.begin io m
    (connection.writer, r)

/-- The driver cannot go on with writing `m`: no byte is moved. -/
def Driver.Halts (d : Driver) (io : Duplex) (m : Message) : Prop :=
  (d.attempt io m).2 = .pending ∧ (d.attempt io m).1.backlog = d.connection.writer.backlog

namespace DriveState
variable {σ : Type} {s : DriveState σ} {out : Bytes} {written rest : List Message} {m : Message}

theorem write?_eq_none_iff {now : Timestamp} :
    s.write? now m rest = none ↔ s.driver.Halts s.io m := by
  obtain ⟨⟨connection, outbox, sending, begun⟩, x, queue, io⟩ := s
  unfold write? Driver.Halts Driver.attempt
  cases begun with
  | false =>
    obtain ⟨c, io', r, hbegin⟩ : ∃ c io' r, connection.begin io m = (c, io', r) := ⟨_, _, _, rfl⟩
    simp only [Bool.false_eq_true, if_false, hbegin]
    cases r with
    | done | failed e => simp only [goOn, stop, reduceCtorEq, false_and]
    | pending => simp only [ite_eq_left_iff, reduceCtorEq, imp_false, not_not, true_and]
  | true =>
    obtain ⟨w, p, r, hflush⟩ : ∃ w p r, connection.writer.flush io.outbound = (w, p, r) :=
      ⟨_, _, _, rfl⟩
    simp only [if_true, Connection.finish, hflush]
    cases r with
    | done | failed e => simp only [goOn, stop, reduceCtorEq, false_and]
    | pending => simp only [ite_eq_left_iff, reduceCtorEq, imp_false, not_not, true_and]

variable [BlockStore σ]

/-- The driver is in the middle of writing and cannot go on, whenever it is looked at. -/
structure Suspended (s : DriveState σ) : Prop where
  sending : s.driver.sending ≠ []
  stuck : ∀ now held side, s.step? now held side = none

/-- The bytes on their way to the peer: in the pipe, or with the writer. -/
def outstanding (s : DriveState σ) : Nat :=
  s.io.outbound.content.length + s.driver.connection.writer.waiting.length

theorem step?_of_sending (hsending : s.driver.sending = m :: rest) (now : Timestamp) (held : Bool)
    (side : Side) : s.step? now held side = s.write? now m rest := by
  unfold step?
  rw [hsending]

/-- A look at the connection tells whether a driver is suspended. -/
theorem suspended_iff (hsending : s.driver.sending = m :: rest) :
    s.Suspended ↔ s.driver.Halts s.io m := by
  constructor
  · intro h
    have hstuck := h.stuck ⟨0⟩ true .inbound
    rw [step?_of_sending hsending] at hstuck
    exact write?_eq_none_iff.mp hstuck
  · intro h
    refine ⟨by rw [hsending]; exact nofun, fun now held side => ?_⟩
    rw [step?_of_sending hsending]
    exact write?_eq_none_iff.mpr h

instance (s : DriveState σ) : Decidable s.Suspended :=
  decidable_of_iff ((!s.driver.sending.isEmpty && (s.step? ⟨0⟩ true .outbound).isNone) = true) <| by
    rw [Bool.and_eq_true, Option.isNone_iff_eq_none]
    cases hsending : s.driver.sending with
    | nil => exact iff_of_false nofun fun h => h.sending hsending
    | cons m rest =>
      rw [suspended_iff hsending, step?_of_sending hsending, write?_eq_none_iff]
      exact and_iff_right rfl

theorem Suspended.others (h : s.Suspended) (x : Exchange σ) (queue : Outbox) :
    Suspended { s with exchange := x, queue } := by
  obtain ⟨m, rest, hsending⟩ := List.exists_cons_of_ne_nil h.sending
  have hhalts := (suspended_iff hsending).mp h
  exact (suspended_iff (s := { s with exchange := x, queue }) hsending).mpr hhalts

/-- A driver is suspended in the middle of a message, at a full pipe. -/
theorem Suspended.full (h : s.Suspended) (hw : s.driver.Wrote out written) :
    s.driver.begun = true ∧ s.io.outbound.room = 0 ∧ s.driver.connection.writer.waiting ≠ [] := by
  obtain ⟨m, rest, hsending⟩ := List.exists_cons_of_ne_nil h.sending
  obtain ⟨hpending, hsame⟩ := (suspended_iff hsending).mp h
  unfold Driver.attempt at hpending hsame
  cases hbegun : s.driver.begun with
  | false =>
    -- a message is taken on or refused at once
    obtain ⟨c, io, r, hbegin⟩ : ∃ c io r, s.driver.connection.begin s.io m = (c, io, r) :=
      ⟨_, _, _, rfl⟩
    simp only [hbegun, Bool.false_eq_true, if_false, hbegin] at hpending
    obtain ⟨-, -, ⟨hr, -⟩ | ⟨-, e, hr, -⟩⟩ := hw.begin hsending hbegun hbegin <;>
      cases hr.symm.trans hpending
  | true =>
    obtain ⟨w, p, r, hflush⟩ : ∃ w p r,
      s.driver.connection.writer.flush s.io.outbound = (w, p, r) := ⟨_, _, _, rfl⟩
    simp only [hbegun, if_true, hflush] at hpending hsame
    rw [hpending] at hflush
    exact ⟨rfl, FrameWriter.full_of_stuck hw.within hflush hsame⟩

theorem Suspended.lt_outstanding (h : s.Suspended) (hw : s.driver.Wrote out written) :
    s.io.outbound.capacity < s.outstanding := by
  obtain ⟨-, hroom, hwaiting⟩ := h.full hw
  have hpos := List.length_pos_iff.mpr hwaiting
  unfold Pipe.room at hroom
  unfold outstanding
  omega

/-! ### Drivers at rest -/

/-- No step can be made as long as somebody holds the outbox. -/
def Rests (s : DriveState σ) : Prop :=
  ∀ now side, s.step? now true side = none

/-- There is nothing to write, nothing to forward and nothing to read. -/
structure Idle (s : DriveState σ) : Prop where
  sending : s.driver.sending = []
  queue : s.queue.queue = []
  inbound : s.io.inbound.content = []
  ahead : s.driver.connection.reader.ahead.held = []

theorem nothing_of_read? {now : Timestamp} (h : s.read? now = none) :
    s.driver.connection.reader.ahead.held = [] ∧ s.io.inbound.content = [] := by
  obtain ⟨c, io, j, answer, hreceive⟩ : ∃ c io j answer,
    s.driver.connection.receive s.io s.exchange.journal now = (c, io, j, answer) :=
      ⟨_, _, _, _, rfl⟩
  unfold read? at h
  simp only [hreceive] at h
  cases answer with
  | pending =>
    simp only [ite_eq_left_iff, reduceCtorEq, imp_false, not_not, Bool.and_eq_true,
      List.isEmpty_iff] at h
    exact h
  | ended | failed e => cases h
  | message m =>
    simp only at h
    split at h <;> cases h

/-- A driver rests only in the middle of writing or when there is nothing to do. -/
theorem Rests.cases (h : s.Rests) : s.Suspended ∨ s.Idle := by
  cases hsending : s.driver.sending with
  | cons m rest =>
    have hstuck := h ⟨0⟩ .inbound
    rw [step?_of_sending hsending] at hstuck
    exact .inl ((suspended_iff hsending).mpr (write?_eq_none_iff.mp hstuck))
  | nil =>
    have hread := h ⟨0⟩ .inbound
    have htake := h ⟨0⟩ .outbound
    unfold step? at hread htake
    rw [hsending] at hread htake
    obtain ⟨hahead, hinbound⟩ := nothing_of_read? hread
    refine .inr ⟨hsending, ?_, hinbound, hahead⟩
    have htake : s.take? true = none := htake
    unfold take? at htake
    split at htake
    · cases htake
    · rename_i hqueue
      exact Outbox.queue_eq_nil_of_take? hqueue

end DriveState

/-! ### What a step does to the pipes -/

/-- More bytes may be in the pipe to the peer, and the pipes are as large as before. -/
structure Duplex.Pours (io io' : Duplex) : Prop where
  takes : ∃ bytes, io.outbound.Takes io'.outbound bytes
  outbound : io'.outbound.capacity = io.outbound.capacity
  inbound : io'.inbound.capacity = io.inbound.capacity

theorem Duplex.Pours.refl (io : Duplex) : io.Pours io :=
  ⟨⟨[], .nothing _⟩, rfl, rfl⟩

theorem Connection.capacity_finish {c c' : Connection} {io io' : Duplex} {j j' : Journal} {m : Message}
    {now : Timestamp} {r : Progress} (h : c.finish io j m now = (c', io', j', r)) :
    io'.outbound.capacity = io.outbound.capacity := by
  obtain ⟨w, p, r', hflush⟩ : ∃ w p r', c.writer.flush io.outbound = (w, p, r') := ⟨_, _, _, rfl⟩
  unfold finish at h
  simp only [hflush, Prod.mk.injEq] at h
  obtain ⟨-, rfl, -⟩ := h
  exact (FrameWriter.full_of_flush hflush).1

theorem FrameReader.pours_next {r r' : FrameReader} {io : Duplex} {inbound : Pipe} {answer : Inbound}
    (h : r.next io.inbound = (r', inbound, answer)) : io.Pours { io with inbound } := by
  have hcapacity := r.capacity_next io.inbound
  rw [h] at hcapacity
  exact ⟨⟨[], .nothing _⟩, rfl, hcapacity⟩

namespace DriveState
variable {σ : Type} [BlockStore σ] {s : DriveState σ} {next : Next σ} {out : Bytes}
  {written : List Message} {now : Timestamp} {held : Bool} {side : Side}

theorem Drives.wrote {r : Record σ} (h : Drives r s none) : ∃ written, s.driver.Wrote r.out written := by
  obtain ⟨bodies, tail, unread, hfit, htail, hfed⟩ := FrameCodec.begins maxFrameSize r.fed
  obtain ⟨_, _, written, hserves⟩ := h.serves hfit htail hfed
  exact ⟨written, hserves.wrote⟩

theorem Outcome.pours (h : s.Outcome now held side next) (hw : s.driver.Wrote out written) :
    s.io.Pours next.1.io := by
  cases h with
  | begun hsending hbegun hb | notBegun hsending hbegun hb =>
    obtain ⟨rfl, -⟩ := hw.begin hsending hbegun hb
    exact .refl _
  | written hsending hbegun hf | notWritten hsending hbegun hf =>
    obtain ⟨hinbound, -, bytes, htakes, -⟩ := hw.finish hsending hbegun hf
    exact ⟨⟨bytes, htakes⟩, Connection.capacity_finish hf, congrArg Pipe.capacity hinbound⟩
  | read _ hread | notRead _ hread =>
    obtain ⟨reader, inbound, hnext, -, rfl⟩ := Connection.next_of_receive hread
    exact FrameReader.pours_next hnext
  | taken | drained => exact .refl _

end DriveState
end BlockExchange
