import BlockExchange.Connection
import Mathlib

/-!
# Bytes on their way out

Bytes wait with a writer in two places, those that it has collected before those that nobody has taken
on yet (`FrameWriter.waiting`). Whatever a writer does, the pipe takes the first of them and the others
wait on (`FrameWriter.Moves`): large pieces, which go past the collected ones, do so only when none are
left. So a message is written when nothing waits any more, and writing fails only at a closed pipe
(`FrameWriter.flush_spec`).
-/

namespace BlockExchange

/-! ### The pipe -/

/-- The pipe has taken these bytes; a closed one takes none. -/
structure Pipe.Takes (p p' : Pipe) (bytes : Bytes) : Prop where
  content : p'.content = p.content ++ bytes
  closed : p'.closed = p.closed
  eq_nil : p.closed = true → bytes = []

namespace Pipe
variable {p p' p'' : Pipe} {b left first second : Bytes}

theorem Takes.nothing (p : Pipe) : p.Takes p [] :=
  ⟨(List.append_nil _).symm, rfl, fun _ => rfl⟩

theorem Takes.trans (h : p.Takes p' first) (h' : p'.Takes p'' second) :
    p.Takes p'' (first ++ second) := by
  refine ⟨by rw [h'.content, h.content, List.append_assoc], h'.closed.trans h.closed, fun hp => ?_⟩
  rw [h.eq_nil hp, h'.eq_nil (h.closed.trans hp)]
  rfl

theorem closed_of_write?_eq_none (h : p.write? b = none) : p.closed = true := by
  unfold write? at h
  split at h
  · assumption
  · cases h

theorem takes_of_write? (h : p.write? b = some (p', left)) :
    ∃ front, p.Takes p' front ∧ front ++ left = b := by
  unfold write? at h
  split at h
  · cases h
  · rename_i hopen
    simp only [List.splitAt_eq, Option.some.injEq, Prod.mk.injEq] at h
    obtain ⟨rfl, rfl⟩ := h
    exact ⟨b.take p.room, ⟨rfl, rfl, fun hclosed => absurd hclosed hopen⟩, List.take_append_drop ..⟩

end Pipe

/-! ### Bytes that were collected -/

namespace WriteBehind
variable {b b' : WriteBehind} {p p' : Pipe} {flow : Flow} {piece left : Bytes}

/-- The collected bytes that the pipe has not taken. -/
def waiting (b : WriteBehind) : Bytes :=
  b.held.drop b.written

theorem flush_spec (h : b.flush p = (b', p', flow)) :
    b'.written ≤ b'.held.length ∧
    (∃ bytes, p.Takes p' bytes ∧ bytes ++ b'.waiting = b.waiting) ∧
    (flow = .done → b' = {}) ∧ (flow = .broken → p.closed = true) := by
  unfold flush at h
  simp only at h
  split at h
  · rename_i hnone
    obtain ⟨rfl, rfl, rfl⟩ := by simpa only [Prod.mk.injEq] using h
    exact ⟨Nat.le_refl _, ⟨[], .nothing p, (List.isEmpty_iff.mp hnone).symm⟩, fun _ => rfl, nofun⟩
  split at h
  · rename_i hrefused
    obtain ⟨rfl, rfl, rfl⟩ := by simpa only [Prod.mk.injEq] using h
    exact ⟨Nat.zero_le _, ⟨[], .nothing p, rfl⟩, nofun, fun _ => Pipe.closed_of_write?_eq_none hrefused⟩
  rename_i q left hwrite
  obtain ⟨front, htakes, hfront⟩ := Pipe.takes_of_write? hwrite
  split at h
  · rename_i hall
    obtain ⟨rfl, rfl, rfl⟩ := by simpa only [Prod.mk.injEq] using h
    rw [List.isEmpty_iff.mp hall] at hfront
    exact ⟨Nat.le_refl _, ⟨front, htakes, hfront⟩, fun _ => rfl, nofun⟩
  · obtain ⟨rfl, rfl, rfl⟩ := by simpa only [Prod.mk.injEq] using h
    refine ⟨Nat.sub_le _ _, ⟨front, htakes, ?_⟩, nofun, nofun⟩
    -- what is left is the end of what was collected
    obtain ⟨before, hheld⟩ : ∃ before, b.held = before ++ left :=
      ⟨b.held.take b.written ++ front, by
        rw [List.append_assoc, hfront, List.take_append_drop]⟩
    have hdrop : b.held.drop (b.held.length - left.length) = left := by
      rw [hheld, List.length_append, Nat.add_sub_cancel, List.drop_left]
    show front ++ b.held.drop (b.held.length - left.length) = _
    rw [hdrop, hfront]
    rfl

/-- A piece waits behind what waits already. It goes past the collected bytes only if there are none. -/
theorem write_spec (hb : b.written ≤ b.held.length)
    (h : b.write p piece = (b', p', flow, left)) :
    b'.written ≤ b'.held.length ∧
    (∃ bytes, p.Takes p' bytes ∧ bytes ++ (b'.waiting ++ left) = b.waiting ++ piece) ∧
    (flow = .broken → p.closed = true) := by
  unfold write at h
  generalize hfirst : (if limit < b.held.length + piece.length then b.flush p else (b, p, .done)) =
    first at h
  obtain ⟨c, q, f⟩ := first
  -- what was collected was flushed, or there is room for the piece behind it
  obtain ⟨hc, hfree, ⟨bytes, htakes, hbytes⟩, hbroken⟩ :
      c.written ≤ c.held.length ∧ (f = .done → c.held = [] ∨ c.held.length + piece.length ≤ limit) ∧
      (∃ bytes, p.Takes q bytes ∧ bytes ++ c.waiting = b.waiting) ∧
      (f = .broken → p.closed = true) := by
    split at hfirst
    · obtain ⟨hc, hmoved, hdone, hbroken⟩ := flush_spec hfirst
      exact ⟨hc, fun hf => .inl (by rw [hdone hf]), hmoved, hbroken⟩
    · rename_i hroom
      obtain ⟨rfl, rfl, rfl⟩ := by simpa only [Prod.mk.injEq] using hfirst
      exact ⟨hb, fun _ => .inr (Nat.not_lt.mp hroom), ⟨[], .nothing p, rfl⟩, nofun⟩
  cases f with
  | done =>
    simp only at h
    split at h
    · obtain ⟨rfl, rfl, rfl, rfl⟩ := by simpa only [Prod.mk.injEq] using h
      have hkept : waiting { c with held := c.held ++ piece } = c.waiting ++ piece :=
        List.drop_append_of_le_length hc
      refine ⟨?_, ⟨bytes, htakes, ?_⟩, nofun⟩
      · show c.written ≤ (c.held ++ piece).length
        rw [List.length_append]
        omega
      · rw [hkept, List.append_nil, ← List.append_assoc, hbytes]
    · rename_i hlarge
      have hempty : c.held = [] := by
        rcases hfree rfl with hnil | hroom
        · exact hnil
        · exact List.eq_nil_of_length_eq_zero (by omega)
      have hnone : c.waiting = [] := by rw [waiting, hempty, List.drop_nil]
      rw [hnone, List.append_nil] at hbytes
      split at h
      · rename_i hrefused
        obtain ⟨rfl, rfl, rfl, rfl⟩ := by simpa only [Prod.mk.injEq] using h
        refine ⟨hc, ⟨bytes, htakes, by rw [hnone, hbytes]; rfl⟩, fun _ => ?_⟩
        exact htakes.closed ▸ Pipe.closed_of_write?_eq_none hrefused
      · rename_i hwrite
        obtain ⟨front, htakes', hfront⟩ := Pipe.takes_of_write? hwrite
        simp only [Prod.mk.injEq] at h
        obtain ⟨rfl, rfl, rfl, rfl⟩ := h
        refine ⟨hc, ⟨bytes ++ front, htakes.trans htakes', ?_⟩, fun hflow => ?_⟩
        · rw [hnone, List.nil_append, List.append_assoc, hfront, hbytes]
        · split at hflow <;> cases hflow
  | pending | broken =>
    obtain ⟨rfl, rfl, rfl, rfl⟩ := by simpa only [Prod.mk.injEq] using h
    exact ⟨hc, ⟨bytes, htakes, by rw [← List.append_assoc, hbytes]⟩, hbroken⟩

end WriteBehind

/-! ### Bytes of a writer -/

namespace FrameWriter
variable {w w' w'' : FrameWriter} {p p' p'' : Pipe} {r : Progress} {m : Message}

/-- All bytes that wait, in the order in which the pipe gets them. -/
def waiting (w : FrameWriter) : Bytes :=
  w.behind.waiting ++ w.unsent

/-- What a writer counts as written is no more than what it has collected. -/
def Within (w : FrameWriter) : Prop :=
  w.behind.written ≤ w.behind.held.length

/-- The pipe has taken some of the bytes that wait, in order, and the others wait on. -/
structure Moves (w : FrameWriter) (p : Pipe) (w' : FrameWriter) (p' : Pipe) : Prop where
  codec : w'.codec = w.codec
  within : w'.Within
  taken : ∃ bytes, p.Takes p' bytes ∧ bytes ++ w'.waiting = w.waiting

theorem Moves.trans (h : w.Moves p w' p') (h' : w'.Moves p' w'' p'') : w.Moves p w'' p'' := by
  obtain ⟨bytes, htakes, hbytes⟩ := h.taken
  obtain ⟨bytes', htakes', hbytes'⟩ := h'.taken
  exact ⟨h'.codec.trans h.codec, h'.within, bytes ++ bytes', htakes.trans htakes',
    by rw [List.append_assoc, hbytes', hbytes]⟩

/-- Writing that has come to an end has written all that waited, and only a closed pipe breaks it. -/
theorem flush_spec (hw : w.Within) (h : w.flush p = (w', p', r)) :
    w.Moves p w' p' ∧ (r = .done → w'.waiting = []) ∧
    ∀ e, r = .failed e → e = .stream .brokenPipe ∧ p.closed = true := by
  generalize hsize : w.unsent.length = size
  induction size using Nat.strongRecOn generalizing w p with
  | ind size ih =>
  rw [flush] at h
  split at h
  · rename_i hunsent
    have hunsent : w.unsent = [] := List.isEmpty_iff.mp hunsent
    obtain ⟨b, q, flow, hflush⟩ : ∃ b q flow, w.behind.flush p = (b, q, flow) := ⟨_, _, _, rfl⟩
    simp only [hflush, Prod.mk.injEq] at h
    obtain ⟨rfl, rfl, rfl⟩ := h
    obtain ⟨hwithin, ⟨bytes, htakes, hbytes⟩, hdone, hbroken⟩ := WriteBehind.flush_spec hflush
    refine ⟨⟨rfl, hwithin, bytes, htakes, ?_⟩, fun hr => ?_, fun e hr => ?_⟩
    · show bytes ++ (b.waiting ++ w.unsent) = w.behind.waiting ++ w.unsent
      rw [← List.append_assoc, hbytes]
    · show b.waiting ++ w.unsent = []
      cases flow with
      | done =>
        rw [hdone rfl, hunsent]
        rfl
      | pending | broken => cases hr
    · cases flow with
      | done | pending => cases hr
      | broken => exact ⟨(Progress.failed.inj hr).symm, hbroken rfl⟩
  · obtain ⟨b, q, flow, left, hwrite⟩ : ∃ b q flow left,
      w.behind.write p w.unsent = (b, q, flow, left) := ⟨_, _, _, _, rfl⟩
    obtain ⟨hwithin, hmoved, hbroken⟩ := WriteBehind.write_spec hw hwrite
    have hmoves : w.Moves p { w with behind := b, unsent := left } q := ⟨rfl, hwithin, hmoved⟩
    simp only [hwrite] at h
    cases flow with
    | done =>
      simp only at h
      split at h
      · rename_i hless
        obtain ⟨hrest, hdone, hfailed⟩ := ih left.length (hsize ▸ hless) hmoves.within h rfl
        obtain ⟨_, htakes, -⟩ := hmoved
        exact ⟨hmoves.trans hrest, hdone, fun e he =>
          ⟨(hfailed e he).1, htakes.closed ▸ (hfailed e he).2⟩⟩
      · obtain ⟨rfl, rfl, rfl⟩ := by simpa only [Prod.mk.injEq] using h
        refine ⟨hmoves, fun hr => ?_, fun e hr => ?_⟩
        · cases hr
        · cases hr
    | pending =>
      obtain ⟨rfl, rfl, rfl⟩ := by simpa only [Prod.mk.injEq] using h
      refine ⟨hmoves, fun hr => ?_, fun e hr => ?_⟩
      · cases hr
      · cases hr
    | broken =>
      obtain ⟨rfl, rfl, rfl⟩ := by simpa only [Prod.mk.injEq] using h
      refine ⟨hmoves, fun hr => ?_, fun e hr => ⟨(Progress.failed.inj hr).symm, hbroken rfl⟩⟩
      cases hr

/-- A message is taken on behind the bytes that wait, unless it is larger than a frame may be. -/
theorem enqueue_spec (h : w.enqueue m = (w', r)) :
    (r = .done ∧ w' = { w with unsent := w.unsent ++ FrameCodec.frame m.encode }) ∨
    (w' = w ∧ ∃ e, r = .failed e ∧
      (w.codec.maxSize < m.encodedLength ∨ FrameCodec.maxHeader < m.encodedLength)) := by
  unfold enqueue FrameCodec.append at h
  simp only at h
  split at h
  · rename_i hlarge
    obtain ⟨rfl, rfl⟩ := by simpa only [Prod.mk.injEq] using h
    exact .inr ⟨rfl, _, rfl, .inl hlarge⟩
  split at h
  · rename_i hlarge
    obtain ⟨rfl, rfl⟩ := by simpa only [Prod.mk.injEq] using h
    exact .inr ⟨rfl, _, rfl, .inr hlarge⟩
  · obtain ⟨rfl, rfl⟩ := by simpa only [Prod.mk.injEq] using h
    exact .inl ⟨rfl, rfl⟩

/-- Closing writes what still waits, and nothing more into a pipe that is closed. -/
theorem content_close (hw : w.Within) (h : w.waiting = [] ∨ p.closed = true) :
    (w.close p).2.1.content = p.content := by
  obtain ⟨w', p', r, hflush⟩ : ∃ w' p' r, w.flush p = (w', p', r) := ⟨_, _, _, rfl⟩
  obtain ⟨⟨-, -, bytes, htakes, hbytes⟩, -⟩ := flush_spec hw hflush
  have hnone : bytes = [] := by
    rcases h with hnone | hclosed
    · rw [hnone] at hbytes
      exact (List.append_eq_nil_iff.mp hbytes).1
    · exact htakes.eq_nil hclosed
  have hcontent : p'.content = p.content := by rw [htakes.content, hnone, List.append_nil]
  unfold close
  rw [hflush]
  cases r <;> exact hcontent

end FrameWriter

/-! ### Messages of a connection -/

namespace Connection
variable {c c' : Connection} {io io' : Duplex} {j j' : Journal} {m : Message} {now : Timestamp}
  {r : Progress}

/-- With nothing waiting a message is taken on without a look at the pipe, if it is no larger than a
frame may be. -/
theorem begin_spec (hidle : c.writer.waiting = []) (h : c.begin io m = (c', io', r)) :
    io' = io ∧
    ((r = .done ∧
      c' = { c with writer := { c.writer with unsent := FrameCodec.frame m.encode } }) ∨
    (c' = c ∧ ∃ e, r = .failed e ∧
      (c.writer.codec.maxSize < m.encodedLength ∨ FrameCodec.maxHeader < m.encodedLength))) := by
  have hunsent : c.writer.unsent = [] := (List.append_eq_nil_iff.mp hidle).2
  have hready : c.writer.ready io.outbound = (c.writer, io.outbound, .done) := by
    unfold FrameWriter.ready
    rw [hunsent]
    rfl
  obtain ⟨w, r', henqueue⟩ : ∃ w r', c.writer.enqueue m = (w, r') := ⟨_, _, rfl⟩
  unfold begin at h
  rw [hready] at h
  simp only [henqueue, Prod.mk.injEq] at h
  obtain ⟨rfl, rfl, rfl⟩ := h
  rcases FrameWriter.enqueue_spec henqueue with ⟨rfl, rfl⟩ | ⟨rfl, hfailed⟩
  · rw [hunsent]
    exact ⟨rfl, .inl ⟨rfl, rfl⟩⟩
  · exact ⟨rfl, .inr ⟨rfl, hfailed⟩⟩

theorem finish_spec (hw : c.writer.Within) (h : c.finish io j m now = (c', io', j', r)) :
    c.writer.Moves io.outbound c'.writer io'.outbound ∧ c'.reader = c.reader ∧
    io'.inbound = io.inbound ∧ (r = .done → c'.writer.waiting = []) ∧
    ∀ e, r = .failed e → e = .stream .brokenPipe ∧ io.outbound.closed = true := by
  obtain ⟨w, p, r', hflush⟩ : ∃ w p r', c.writer.flush io.outbound = (w, p, r') := ⟨_, _, _, rfl⟩
  unfold finish at h
  simp only [hflush, Prod.mk.injEq] at h
  obtain ⟨rfl, rfl, -, rfl⟩ := h
  obtain ⟨hmoves, hdone, hfailed⟩ := FrameWriter.flush_spec hw hflush
  exact ⟨hmoves, rfl, rfl, hdone, hfailed⟩

end Connection
end BlockExchange
