import BlockExchange.Exchange.Drive
import BlockExchange.Proofs.Chunking
import BlockExchange.Store.Memory
import Mathlib

/-!
# Streams that break off

A reader takes what arrives in its pipe and is asked for the next message whenever someone likes
(`Reading.run`). As long as no frame is cut, it stands in the stream as its codec does, with the bytes
of its buffer, of what it read ahead and of the pipe before it (`FrameReader.Reads`). When the pipe is
closed within a frame, the reader tells the messages of the frames before and then what the end is to
it (`told_of_cut`). It notices the cut by the bytes that are left over. Behind a header there are none,
since the header was taken off, and there alone the end looks like a clean one.
-/

namespace BlockExchange

/-! ### Reading ahead -/

/-- A reader that wants bytes gets some unless there are none, and no byte is lost. -/
theorem ReadAhead.read_cases (a : ReadAhead) (p : Pipe) {n : Nat} (hn : 0 < n) :
    (a.held = [] ∧ p.content = [] ∧ a.read p n = (a, p, if p.closed then some [] else none)) ∨
    ∃ bytes a' p', bytes ≠ [] ∧ a.read p n = (a', p', some bytes) ∧
      bytes ++ (a'.held ++ p'.content) = a.held ++ p.content ∧ p'.closed = p.closed := by
  obtain ⟨held⟩ := a
  obtain ⟨capacity, content, closed⟩ := p
  have htake : ∀ {b : Bytes}, b ≠ [] → b.take n ≠ [] := fun hb h => by
    rcases List.take_eq_nil_iff.mp h with h | h
    · omega
    · exact hb h
  unfold read
  by_cases hheld : held = []
  · subst hheld
    by_cases hcontent : content = []
    · subst hcontent
      refine .inl ⟨rfl, rfl, ?_⟩
      cases closed <;> simp [take]
    · have hne : content.isEmpty = false := by simpa using hcontent
      refine .inr ?_
      by_cases hchunk : chunk ≤ n
      · refine ⟨content.take n, {}, ⟨capacity, content.drop n, closed⟩, htake hcontent, ?_, ?_, rfl⟩
        · simp [hne, hchunk]
        · simp
      · have hne' : content.take chunk ≠ [] := fun h => by
          rcases List.take_eq_nil_iff.mp h with h | h
          · cases h
          · exact hcontent h
        refine ⟨(content.take chunk).take n, ⟨(content.take chunk).drop n⟩,
          ⟨capacity, content.drop chunk, closed⟩, htake hne', ?_, ?_, rfl⟩
        · simp [hne, hchunk, take]
        · rw [← List.append_assoc, List.take_append_drop, List.take_append_drop]
          rfl
  · have hne : held.isEmpty = false := by simpa using hheld
    refine .inr ⟨held.take n, ⟨held.drop n⟩, ⟨capacity, content, closed⟩, htake hheld, ?_, ?_, rfl⟩
    · simp [hne, take]
    · rw [← List.append_assoc, List.take_append_drop]

/-! ### The buffer of a reader -/

namespace FrameCodec
variable (c : FrameCodec) (buffer : Bytes)

theorem decodeBody_taken (n : Nat) :
    c.decodeBody n buffer = ⟨{ c with awaited := some n }, buffer, .ok none⟩ ∨
    ∃ body left r, buffer = body ++ left ∧ c.decodeBody n buffer = ⟨{ c with awaited := none }, left, r⟩ := by
  unfold decodeBody
  cases h : Bytes.splitAt? n buffer with
  | none => exact .inl rfl
  | some p => exact .inr ⟨p.1, p.2, _, (Bytes.splitAt?_eq_some_iff.mp h).2, rfl⟩

/-- A look takes bytes off the front. Where a body is awaited afterwards, it took the header at most. -/
theorem exists_taken : ∃ taken, buffer = taken ++ (c.decode buffer).buffer ∧
    ((c.decode buffer).codec.awaited ≠ none →
      taken.length = if c.awaited.isSome then 0 else headerSize) := by
  obtain ⟨maxSize, awaited⟩ := c
  cases awaited with
  | some n =>
    have hdecode : decode ⟨maxSize, some n⟩ buffer = decodeBody ⟨maxSize, some n⟩ n buffer := rfl
    rw [hdecode]
    rcases decodeBody_taken ⟨maxSize, some n⟩ buffer n with h | ⟨body, left, r, hb, h⟩
    · exact ⟨[], by rw [h]; rfl, fun _ => rfl⟩
    · exact ⟨body, by rw [h]; exact hb, by rw [h]; exact fun hne => absurd rfl hne⟩
  | none =>
    cases hs : Bytes.splitAt? headerSize buffer with
    | none =>
      rw [decode_of_lacks (c := ⟨maxSize, none⟩) (Bytes.splitAt?_eq_none_iff.mp hs)]
      exact ⟨[], rfl, fun hne => absurd rfl hne⟩
    | some p =>
      obtain ⟨header, rest⟩ := p
      obtain ⟨hlen, rfl⟩ := Bytes.splitAt?_eq_some_iff.mp hs
      by_cases hlimit : min maxSize maxHeader < header.toNat
      · rw [decode_oversized hlen hlimit]
        exact ⟨[], rfl, fun hne => absurd rfl hne⟩
      · rw [decode_header hlen (Nat.not_lt.mp hlimit)]
        rcases decodeBody_taken { maxSize } rest header.toNat with h | ⟨body, left, r, rfl, h⟩
        · exact ⟨header, by rw [h], fun _ => hlen⟩
        · exact ⟨header ++ body, by rw [h, List.append_assoc],
            by rw [h]; exact fun hne => absurd rfl hne⟩

theorem decodeAtEnd_of_lacks {c : FrameCodec} {buffer : Bytes} (h : c.Lacks buffer) :
    c.decodeAtEnd buffer =
      ⟨c, buffer, if buffer = [] then .ok none else .error (.stream .bytesRemaining)⟩ := by
  unfold decodeAtEnd
  simp only [decode_of_lacks h]
  cases buffer <;> rfl

theorem reading_encode {m : Message} (h : m.encode.length ≤ maxHeader) :
    reading m.encode = .ok m := by
  have hlen : m.encodedLength < UInt64.size := by
    rw [← m.length_encode]
    exact Nat.lt_of_le_of_lt h (by decide)
  unfold reading
  rw [m.decode_encode hlen]

end FrameCodec

/-- What a reader tells of a body. -/
def FrameCodec.told (body : Bytes) : Inbound :=
  match reading body with
  | .ok m => .message m
  | .error e => .failed e

theorem FrameCodec.told_of_ok {body : Bytes} {m : Message} (h : reading body = .ok m) :
    told body = .message m := by
  unfold told
  rw [h]

theorem FrameCodec.told_of_error {body : Bytes} {e : CodecError} (h : reading body = .error e) :
    told body = .failed e := by
  unfold told
  rw [h]

theorem FrameCodec.told_cases (body : Bytes) :
    (∃ m, told body = .message m) ∨ ∃ e, told body = .failed e := by
  unfold told
  split
  · exact .inl ⟨_, rfl⟩
  · exact .inr ⟨_, rfl⟩

/-- The buffer goes on with what a look left. -/
theorem GrowingBuffer.content_follow {b : GrowingBuffer} {c : FrameCodec} {step : FrameCodec.Step}
    {taken : Bytes} (hcontent : b.content = taken ++ step.buffer)
    (hawaited : step.codec.awaited ≠ none →
      taken.length = if c.awaited.isSome then 0 else FrameCodec.headerSize) :
    (b.follow c step).content = step.buffer := by
  have hlen : b.content.length - step.buffer.length = taken.length := by
    rw [hcontent, List.length_append]
    omega
  have hdrop : b.content.drop taken.length = step.buffer := by
    rw [hcontent, List.drop_left]
  unfold follow
  simp only [hlen]
  generalize hh : (if c.awaited.isSome then 0 else min taken.length FrameCodec.headerSize) = header
  have hle : header ≤ taken.length := by
    rw [← hh]
    split
    · exact Nat.zero_le _
    · exact Nat.min_le_left _ _
  cases hstep : step.codec.awaited with
  | some n =>
    have htaken := hawaited (by rw [hstep]; nofun)
    have hheader : header = taken.length := by
      rw [← hh, htaken]
      split <;> rfl
    simp only [hheader, content_reserve]
    exact hdrop
  | none =>
    simp only
    split
    · rw [content_reserve]
      show (b.content.drop header).drop (taken.length - header) = _
      rw [List.drop_drop, Nat.add_sub_cancel' hle, hdrop]
    · rename_i hnothing
      simp only [Bool.or_eq_true, decide_eq_true_eq, not_or, Nat.not_lt, Nat.le_zero] at hnothing
      obtain ⟨hc, rfl⟩ := hnothing
      rw [if_neg hc] at hh
      -- without a header nothing was taken
      have hzero : taken.length = 0 := by
        rcases Nat.min_eq_zero_iff.mp hh with h | h
        · exact h
        · cases h
      rw [← hdrop, hzero]
      rfl

/-! ### A reader in a stream -/

namespace FrameReader

/-- Where a reader is in a stream of which `unread` has not come into the pipe: it has these bodies to
read before `tail`, and it looks at its buffer unless it knows that bytes are lacking. -/
structure Follows (maxSize : Nat) (tail unread : Bytes) (r : FrameReader) (p : Pipe)
    (bodies : List Bytes) : Prop where
  stands : FrameCodec.Stands maxSize tail r.codec
    (r.buffer.content ++ (r.ahead.held ++ (p.content ++ unread))) bodies
  lacks : r.readable = false → r.codec.Lacks r.buffer.content
  ended : r.ended = false
  errored : r.errored = false

/-- A reader in a stream of frames and nothing else. -/
abbrev Reads (maxSize : Nat) (unread : Bytes) (r : FrameReader) (p : Pipe) (bodies : List Bytes) :
    Prop :=
  r.Follows maxSize [] unread p bodies

/-- Nothing more comes, and the reader knows it. -/
structure Over (r : FrameReader) (p : Pipe) : Prop where
  closed : p.closed = true
  content : p.content = []
  held : r.ahead.held = []
  ended : r.ended = true
  quiet : r.errored = true ∨ r.readable = false

variable {maxSize : Nat} {tail unread : Bytes} {r : FrameReader} {p : Pipe} {bodies : List Bytes}

theorem attempt_of_unreadable (h : r.readable = false) : r.attempt = (r, none) := by
  unfold attempt
  rw [h]
  rfl

/-- A look at the buffer lacks bytes, or it finds the next body, or it refuses what follows the last
frame. -/
theorem Follows.attempt (h : r.Follows maxSize tail unread p bodies)
    (hfit : ∀ b ∈ bodies, b.length ≤ min maxSize FrameCodec.maxHeader)
    (htail : tail = [] ∨ FrameCodec.Oversized maxSize tail) :
    (∃ next, r.attempt = (next, none) ∧ next.Follows maxSize tail unread p bodies ∧
      next.readable = false ∧ next.ahead = r.ahead) ∨
    (∃ body rest next, bodies = body :: rest ∧ r.attempt = (next, some (FrameCodec.told body)) ∧
      ∀ m, FrameCodec.reading body = .ok m → next.Follows maxSize tail unread p rest) ∨
    (bodies = [] ∧ tail ≠ [] ∧
      ∃ next, r.attempt = (next, some (.failed (.stream .frameTooBig)))) := by
  cases hreadable : r.readable with
  | false => exact .inl ⟨r, attempt_of_unreadable hreadable, h, hreadable, rfl⟩
  | true =>
    obtain ⟨taken, hcontent, hawaited⟩ := r.codec.exists_taken r.buffer.content
    have hfollow := GrowingBuffer.content_follow hcontent hawaited
    unfold FrameReader.attempt
    simp only [hreadable, h.ended, Bool.not_true, Bool.false_eq_true, if_false]
    rcases h.stands.decode hfit htail with ⟨c, left, hd, hlack, hs⟩ |
      ⟨body, rest, c, left, rfl, hd, hs⟩ | ⟨hnil, hne, hd⟩
    · rw [hd] at hfollow ⊢
      refine .inl ⟨_, rfl, ⟨?_, fun _ => ?_, rfl, h.errored⟩, rfl, rfl⟩
      · show FrameCodec.Stands maxSize tail c (GrowingBuffer.content _ ++ _) bodies
        rw [hfollow]
        exact hs
      · show c.Lacks (GrowingBuffer.content _)
        rw [hfollow]
        exact hlack
    · cases hbody : FrameCodec.reading body with
      | error e =>
        have htold : FrameCodec.told body = .failed e := FrameCodec.told_of_error hbody
        rw [hd, hbody]
        exact .inr (.inl ⟨body, rest, _, rfl, congrArg (fun a => (_, some a)) htold.symm,
          fun m hm => nomatch hbody.symm.trans hm⟩)
      | ok m =>
        have htold : FrameCodec.told body = .message m := FrameCodec.told_of_ok hbody
        rw [hd, hbody] at hfollow ⊢
        refine .inr (.inl ⟨body, rest, _, rfl, congrArg (fun a => (_, some a)) htold.symm,
          fun _ _ => ⟨?_, nofun, rfl, h.errored⟩⟩)
        show FrameCodec.Stands maxSize tail c (GrowingBuffer.content _ ++ _) rest
        rw [hfollow]
        exact hs
    · rw [hd]
      exact .inr (.inr ⟨hnil, hne, _, rfl⟩)

/-- What the end of the pipe is to a reader that has these bytes left over. -/
def ending (left : Bytes) : Inbound :=
  if left = [] then .ended else .failed (.stream .bytesRemaining)

/-- A look when nothing more comes. -/
theorem attempt_of_lacks (hreadable : r.readable = true) (hended : r.ended = true)
    (hlack : r.codec.Lacks r.buffer.content) :
    ∃ next, r.attempt = (next, some (ending r.buffer.content)) ∧ next.ahead = r.ahead ∧
      next.ended = true ∧ (next.errored = true ∨ next.readable = false) := by
  unfold attempt ending
  simp only [hreadable, hended, Bool.not_true, Bool.false_eq_true, if_false, if_true,
    FrameCodec.decodeAtEnd_of_lacks hlack]
  by_cases hnil : r.buffer.content = []
  · simp only [hnil, if_true]
    exact ⟨_, rfl, rfl, rfl, .inr rfl⟩
  · simp only [hnil, if_false]
    exact ⟨_, rfl, rfl, rfl, .inl rfl⟩

/-- Another buffer with the same bytes does as well. -/
theorem Follows.withBuffer (h : r.Follows maxSize tail unread p bodies) {buffer : GrowingBuffer}
    (hbuffer : buffer.content = r.buffer.content) :
    Follows maxSize tail unread { r with buffer } p bodies := by
  refine ⟨?_, fun hidle => ?_, h.ended, h.errored⟩
  · show FrameCodec.Stands maxSize tail r.codec (buffer.content ++ _) bodies
    rw [hbuffer]
    exact h.stands
  · show r.codec.Lacks buffer.content
    rw [hbuffer]
    exact h.lacks hidle

/-- Bytes move from the pipe into the buffer, and others are read ahead. -/
theorem Follows.refill (h : r.Follows maxSize tail unread p bodies) {bytes : Bytes}
    {ahead : ReadAhead} {rest : Pipe}
    (hall : bytes ++ (ahead.held ++ rest.content) = r.ahead.held ++ p.content) :
    Follows maxSize tail unread
      { r with ahead, buffer := r.buffer.append bytes, ended := false, readable := true } rest
      bodies := by
  refine ⟨?_, nofun, rfl, h.errored⟩
  show FrameCodec.Stands maxSize tail r.codec
    ((r.buffer.content ++ bytes) ++ (ahead.held ++ (rest.content ++ unread))) bodies
  have hmoved : bytes ++ (ahead.held ++ (rest.content ++ unread)) =
      r.ahead.held ++ (p.content ++ unread) := by
    rw [← List.append_assoc ahead.held, ← List.append_assoc bytes, hall, List.append_assoc]
  rw [List.append_assoc, hmoved]
  exact h.stands

/-- What a reader tells: nothing if it has taken all there is and the pipe is open, or what the next
body is, or that it refuses what follows the last frame, or the end, and that when its codec lacks
bytes. -/
theorem Follows.read (h : r.Follows maxSize tail unread p bodies)
    (hfit : ∀ b ∈ bodies, b.length ≤ min maxSize FrameCodec.maxHeader)
    (htail : tail = [] ∨ FrameCodec.Oversized maxSize tail) :
    (∃ next rest, r.read p = (next, rest, .pending) ∧ p.closed = false ∧ rest.closed = false ∧
      next.Follows maxSize tail unread rest bodies ∧ next.readable = false ∧
      next.ahead.held = [] ∧ rest.content = []) ∨
    (∃ body later next rest, bodies = body :: later ∧
      r.read p = (next, rest, FrameCodec.told body) ∧ rest.closed = p.closed ∧
      ∀ m, FrameCodec.reading body = .ok m → next.Follows maxSize tail unread rest later) ∨
    (∃ next rest, bodies = [] ∧ tail ≠ [] ∧
      r.read p = (next, rest, .failed (.stream .frameTooBig))) ∨
    ∃ next rest c left, r.read p = (next, rest, ending left) ∧ p.closed = true ∧ next.Over rest ∧
      c.Lacks left ∧ FrameCodec.Stands maxSize tail c (left ++ unread) bodies := by
  -- each round takes bytes from the pipe or from what was read ahead
  generalize hsize : r.ahead.held.length + p.content.length = size
  induction size using Nat.strongRecOn generalizing r p with
  | ind size ih =>
  rw [FrameReader.read]
  rcases h.attempt hfit htail with ⟨next, hattempt, hnext, hidle, hahead⟩ |
    ⟨body, later, next, rfl, hattempt, hnext⟩ | ⟨hnil, hne, next, hattempt⟩
  · rw [hattempt, ← hahead]
    rw [← hahead] at hsize
    have hroom : 0 < (next.buffer.reserve false 1).room := GrowingBuffer.le_room_reserve _ _ _
    have hready := hnext.withBuffer (GrowingBuffer.content_reserve next.buffer false 1)
    have hlack := hready.lacks hidle
    simp only
    rcases next.ahead.read_cases p hroom with ⟨hheld, hempty, hread⟩ |
      ⟨bytes, ahead, rest, hne, hread, hall, hclosed⟩
    · rw [hread]
      cases hpipe : p.closed with
      | false => exact .inl ⟨_, p, rfl, rfl, hpipe, hready, hidle, hheld, hempty⟩
      | true =>
        simp only [if_true, hnext.ended, Bool.false_eq_true, if_false]
        let after : FrameReader := { next with
          buffer := next.buffer.reserve false 1
          ended := true
          readable := true }
        obtain ⟨last, hlast, hsame, hended, hquiet⟩ := attempt_of_lacks (r := after) rfl rfl hlack
        have hs := hready.stands
        simp only [hheld, hempty, List.nil_append] at hs
        rw [hlast]
        exact .inr (.inr (.inr ⟨last, p, next.codec, after.buffer.content, rfl, trivial,
          ⟨hpipe, hempty, hsame ▸ hheld, hended, hquiet⟩, hlack, hs⟩))
    · rw [hread]
      have hlength : bytes.length + (ahead.held.length + rest.content.length) =
          next.ahead.held.length + p.content.length := by
        simpa only [List.length_append] using congrArg List.length hall
      have hpos : 0 < bytes.length := List.length_pos_iff.mpr hne
      have hless : ahead.held.length + rest.content.length <
          next.ahead.held.length + p.content.length := by omega
      obtain ⟨b, bs, rfl⟩ := List.exists_cons_of_ne_nil hne
      simp only [if_pos hless]
      rw [← hclosed]
      exact ih _ (hsize ▸ hless) (hready.refill hall) rfl
  · exact .inr (.inl ⟨body, later, next, p, rfl, by rw [hattempt], rfl, hnext⟩)
  · exact .inr (.inr (.inl ⟨next, p, hnil, hne, by rw [hattempt]⟩))

/-- When all has come, a reader tells what the next body is. -/
theorem Follows.read_of_complete {body : Bytes}
    (h : r.Follows maxSize tail [] p (body :: bodies))
    (hfit : ∀ b ∈ body :: bodies, b.length ≤ min maxSize FrameCodec.maxHeader)
    (htail : tail = [] ∨ FrameCodec.Oversized maxSize tail) :
    ∃ next rest, r.read p = (next, rest, FrameCodec.told body) := by
  rcases h.read hfit htail with ⟨next, rest, -, -, -, hnext, hidle, hheld, hempty⟩ |
    ⟨b, later, next, rest, hbodies, hread, -⟩ | ⟨_, _, hnil, -⟩ |
    ⟨_, _, c, left, -, -, -, hlack, hs⟩
  · have hs := hnext.stands
    rw [hheld, hempty, List.nil_append, List.nil_append, List.append_nil] at hs
    cases (hs.not_lacks htail (hnext.lacks hidle)).1
  · obtain ⟨rfl, -⟩ := List.cons.inj hbodies
    exact ⟨next, rest, hread⟩
  · cases hnil
  · rw [List.append_nil] at hs
    cases (hs.not_lacks htail hlack).1

/-- What a reader tells when all bodies are messages: nothing while the pipe is empty and open, the
next message, or the end. -/
theorem Reads.read (h : r.Reads maxSize unread p bodies)
    (hfit : ∀ b ∈ bodies, b.length ≤ min maxSize FrameCodec.maxHeader)
    (hdecode : ∀ b ∈ bodies, ∃ m, FrameCodec.reading b = .ok m) :
    (∃ next rest, r.read p = (next, rest, .pending) ∧ p.closed = false ∧ rest.closed = false ∧
      next.Reads maxSize unread rest bodies) ∨
    (∃ body later m next rest, bodies = body :: later ∧ FrameCodec.reading body = .ok m ∧
      r.read p = (next, rest, .message m) ∧ rest.closed = p.closed ∧
      next.Reads maxSize unread rest later) ∨
    ∃ next rest c left, r.read p = (next, rest, ending left) ∧ p.closed = true ∧ next.Over rest ∧
      c.Lacks left ∧ FrameCodec.Stands maxSize [] c (left ++ unread) bodies := by
  rcases Follows.read h hfit (.inl rfl) with ⟨next, rest, hread, hopen, hopen', hnext, -⟩ |
    ⟨body, later, next, rest, rfl, hread, hclosed, hnext⟩ | ⟨_, _, -, hne, -⟩ | hend
  · exact .inl ⟨next, rest, hread, hopen, hopen', hnext⟩
  · obtain ⟨m, hm⟩ := hdecode body List.mem_cons_self
    rw [FrameCodec.told_of_ok hm] at hread
    exact .inr (.inl ⟨body, later, m, next, rest, rfl, hm, hread, hclosed, hnext m hm⟩)
  · exact absurd rfl hne
  · exact .inr (.inr hend)

theorem Follows.next_eq (h : r.Follows maxSize tail unread p bodies) : r.next p = r.read p := by
  unfold next
  rw [h.errored]
  rfl

theorem Follows.feed {piece : Bytes} {p' : Pipe} (h : r.Follows maxSize tail (piece ++ unread) p bodies)
    (hfed : p'.content = p.content ++ piece) : r.Follows maxSize tail unread p' bodies := by
  refine ⟨?_, h.lacks, h.ended, h.errored⟩
  rw [hfed, List.append_assoc]
  exact h.stands

/-- A message that a reader tells is the next in the stream. -/
theorem Follows.message {r' : FrameReader} {p' : Pipe} {m : Message}
    (h : r.Follows maxSize tail unread p bodies)
    (hfit : ∀ b ∈ bodies, b.length ≤ min maxSize FrameCodec.maxHeader)
    (htail : tail = [] ∨ FrameCodec.Oversized maxSize tail)
    (hnext : r.next p = (r', p', .message m)) :
    ∃ body later, bodies = body :: later ∧ FrameCodec.told body = .message m ∧
      r'.Follows maxSize tail unread p' later := by
  rw [h.next_eq] at hnext
  rcases h.read hfit htail with ⟨_, _, hread, -⟩ | ⟨body, later, _, _, hbodies, hread, -, hlater⟩ |
    ⟨_, _, -, -, hread⟩ | ⟨_, _, _, left, hread, -⟩ <;> rw [hread, Prod.mk.injEq, Prod.mk.injEq] at hnext
  · cases hnext.2.2
  · obtain ⟨rfl, rfl, htold⟩ := hnext
    refine ⟨body, later, hbodies, htold, ?_⟩
    cases hbody : FrameCodec.reading body with
    | ok m' => exact hlater m' hbody
    | error e =>
      rw [FrameCodec.told_of_error hbody] at htold
      cases htold
  · cases hnext.2.2
  · have hending := hnext.2.2
    unfold ending at hending
    split at hending <;> cases hending

/-- A reader that tells nothing stands where it stood. -/
theorem Follows.pending {r' : FrameReader} {p' : Pipe}
    (h : r.Follows maxSize tail unread p bodies)
    (hfit : ∀ b ∈ bodies, b.length ≤ min maxSize FrameCodec.maxHeader)
    (htail : tail = [] ∨ FrameCodec.Oversized maxSize tail)
    (hnext : r.next p = (r', p', .pending)) :
    r'.Follows maxSize tail unread p' bodies := by
  rw [h.next_eq] at hnext
  rcases h.read hfit htail with ⟨_, _, hread, -, -, hsame, -⟩ | ⟨body, _, _, _, -, hread, -⟩ |
    ⟨_, _, -, -, hread⟩ | ⟨_, _, _, left, hread, -⟩ <;> rw [hread, Prod.mk.injEq, Prod.mk.injEq] at hnext
  · obtain ⟨rfl, rfl, -⟩ := hnext
    exact hsame
  · rcases FrameCodec.told_cases body with ⟨m, htold⟩ | ⟨e, htold⟩ <;> rw [htold] at hnext
    · cases hnext.2.2
    · cases hnext.2.2
  · cases hnext.2.2
  · have hending := hnext.2.2
    unfold ending at hending
    split at hending <;> cases hending

/-- When all has come and there is more to read, a reader that tells of no message tells that the next
body is none. -/
theorem Follows.failed {r' : FrameReader} {p' : Pipe} {body : Bytes} {answer : Inbound}
    (h : r.Follows maxSize tail [] p (body :: bodies))
    (hfit : ∀ b ∈ body :: bodies, b.length ≤ min maxSize FrameCodec.maxHeader)
    (htail : tail = [] ∨ FrameCodec.Oversized maxSize tail)
    (hnext : r.next p = (r', p', answer)) (hanswer : ∀ m, answer ≠ .message m) :
    ∃ e, FrameCodec.told body = .failed e ∧ answer = .failed e := by
  obtain ⟨_, _, hread⟩ := h.read_of_complete hfit htail
  rw [h.next_eq, hread, Prod.mk.injEq, Prod.mk.injEq] at hnext
  obtain ⟨-, -, rfl⟩ := hnext
  rcases FrameCodec.told_cases body with ⟨m, htold⟩ | ⟨e, htold⟩
  · exact absurd htold (hanswer m)
  · exact ⟨e, htold, htold⟩

/-- A new reader at a pipe that holds a whole frame tells what its body is. -/
theorem next_of_frame {body : Bytes} (h : body.length ≤ min maxSize FrameCodec.maxHeader)
    (capacity : Nat) : ∃ r' rest, ({ codec := { maxSize } } : FrameReader).next
      { capacity, content := FrameCodec.frame body } = (r', rest, FrameCodec.told body) := by
  have hstart : Follows maxSize [] [] { codec := { maxSize } }
      { capacity, content := FrameCodec.frame body } [body] := by
    refine ⟨.between ?_, fun _ => (by decide : 0 < FrameCodec.headerSize), rfl, rfl⟩
    simp
  rw [hstart.next_eq]
  exact hstart.read_of_complete (fun b hb => List.mem_singleton.mp hb ▸ h) (.inl rfl)

/-- A reader that knows the end tells it again and again. -/
theorem Over.next (h : r.Over p) : ∃ last, r.next p = (last, p, .ended) ∧ last.Over p := by
  cases herrored : r.errored with
  | true =>
    unfold FrameReader.next
    rw [herrored]
    exact ⟨_, rfl, h.closed, h.content, h.held, h.ended, .inr rfl⟩
  | false =>
    have hidle : r.readable = false := h.quiet.resolve_left (by rw [herrored]; nofun)
    have hroom : 0 < (r.buffer.reserve false 1).room := GrowingBuffer.le_room_reserve _ _ _
    unfold FrameReader.next
    rw [herrored, FrameReader.read, attempt_of_unreadable hidle]
    rcases r.ahead.read_cases p hroom with ⟨-, -, hread⟩ | ⟨bytes, _, _, hne, -, hall, -⟩
    · simp only [hread, h.closed, h.ended, Bool.false_eq_true, if_false, if_true]
      exact ⟨_, rfl, h.closed, h.content, h.held, rfl, .inr hidle⟩
    · rw [h.held, h.content] at hall
      exact absurd (List.append_eq_nil_iff.mp hall).1 hne

end FrameReader

/-! ### A frame that is cut -/

/-- When a frame is cut, the codec reads all before it. It has none of the bytes of the cut frame in
its buffer only if it has read the header and nothing else came. -/
theorem FrameCodec.Stands.of_cut {maxSize : Nat} {c : FrameCodec} {left cut lost last : Bytes}
    {bodies : List Bytes} (h : Stands maxSize [] c (left ++ lost) (bodies ++ [last]))
    (hlack : c.Lacks left) (hlast : cut ++ lost = frame last) (hcut : cut ≠ []) :
    bodies = [] ∧ (left = [] ↔ lost = last) := by
  have hlost : lost.length < headerSize + last.length := by
    rw [← length_frame, ← hlast, List.length_append]
    have := List.length_pos_iff.mpr hcut
    omega
  -- more than one frame less some bytes is more than is lost
  have hframes : ∀ more : List Bytes,
      headerSize + last.length ≤ ((more ++ [last]).flatMap frame ++ ([] : Bytes)).length := by
    intro more
    simp only [List.flatMap_append, List.flatMap_singleton, List.length_append, length_frame]
    omega
  generalize hall : bodies ++ [last] = all at h
  cases h with
  | between hs =>
    have hshort : left.length < headerSize := hlack
    cases bodies with
    | nil =>
      subst hall
      rw [List.nil_append, List.flatMap_singleton, List.append_nil, ← hlast] at hs
      obtain rfl : left = cut := List.append_cancel_right hs
      refine ⟨rfl, iff_of_false hcut fun heq => ?_⟩
      have := congrArg List.length hlast
      rw [length_frame, List.length_append, heq] at this
      omega
    | cons body more =>
      subst hall
      have hlen := congrArg List.length hs
      rw [List.cons_append, List.flatMap_cons, List.append_assoc, List.length_append,
        List.length_append, length_frame] at hlen
      have := hframes more
      omega
  | @inside _ body rest hs =>
    have hshort : left.length < body.length := hlack
    have hlen := congrArg List.length hs
    rw [List.length_append, List.length_append] at hlen
    cases bodies with
    | nil =>
      obtain ⟨rfl, rfl⟩ := List.cons.inj hall
      rw [List.flatMap_nil, List.append_nil, List.append_nil] at hs
      refine ⟨rfl, fun hleft => ?_, fun heq => ?_⟩
      · rw [← hs, hleft, List.nil_append]
      · rw [heq] at hs
        exact List.append_left_eq_self.mp hs
    | cons body' more =>
      obtain ⟨rfl, hrest⟩ := List.cons.inj hall
      have := hframes more
      rw [← show more ++ [last] = rest from hrest] at hlen
      omega

/-! ### Reading to the end -/

/-- What is heard of an answer. -/
def Inbound.heard : Inbound → List Inbound
  | .pending => []
  | answer => [answer]

/-- A reader at its pipe, with all that it told. -/
structure Reading where
  reader : FrameReader
  pipe : Pipe
  heard : List Inbound := []

namespace Reading

/-- A new reader at an empty pipe. -/
def new (maxSize capacity : Nat) : Reading where
  reader := { codec := { maxSize } }
  pipe := { capacity }

def after (s : Reading) : FrameCodec.Event → Reading
  | .feed piece => { s with pipe := { s.pipe with content := s.pipe.content ++ piece } }
  | .look =>
    let (reader, pipe, answer) := s.reader.next s.pipe
    ⟨reader, pipe, s.heard ++ answer.heard⟩

def run (s : Reading) (events : List FrameCodec.Event) : Reading :=
  events.foldl after s

def close (s : Reading) : Reading :=
  { s with pipe := s.pipe.close }

/-- A session that has told some of the messages and has the others to read, of the last of which some
bytes are lost. -/
structure Tells (maxSize : Nat) (unread : Bytes) (ms : List Message) (last : Message) (s : Reading)
    (later : List Message) : Prop where
  reads : s.reader.Reads maxSize unread s.pipe ((later ++ [last]).map Message.encode)
  fits : ∀ m ∈ later ++ [last], m.encode.length ≤ min maxSize FrameCodec.maxHeader
  told : ∃ earlier, ms = earlier ++ later ∧ s.heard = earlier.map .message

/-- A session that has told the messages and the end of its pipe. -/
structure Finished (ms : List Message) (ending : Inbound) (s : Reading) (times : Nat) : Prop where
  isOver : s.reader.Over s.pipe
  told : s.heard = ms.map .message ++ ending :: List.replicate times .ended

variable {maxSize : Nat} {unread piece lost cut : Bytes} {ms later : List Message}
  {last : Message} {s : Reading} {ending : Inbound} {times : Nat}

theorem Tells.feed (h : s.Tells maxSize (piece ++ unread) ms last later) :
    (s.after (.feed piece)).Tells maxSize unread ms last later :=
  ⟨h.reads.feed rfl, h.fits, h.told⟩

theorem Tells.close (h : s.Tells maxSize unread ms last later) :
    s.close.Tells maxSize unread ms last later :=
  ⟨⟨h.reads.stands, h.reads.lacks, h.reads.ended, h.reads.errored⟩, h.fits, h.told⟩

/-- A look tells nothing at an open pipe, or the next message, or the end of a closed pipe. -/
theorem Tells.look (h : s.Tells maxSize unread ms last later) (hunread : unread ≠ []) :
    (s.pipe.closed = false ∧ (s.after .look).pipe.closed = false ∧
      (s.after .look).Tells maxSize unread ms last later) ∨
    (∃ m rest, later = m :: rest ∧ (s.after .look).pipe.closed = s.pipe.closed ∧
      (s.after .look).Tells maxSize unread ms last rest) ∨
    (s.pipe.closed = true ∧ ∃ reader pipe c left,
      s.reader.next s.pipe = (reader, pipe, FrameReader.ending left) ∧ reader.Over pipe ∧
      c.Lacks left ∧
      FrameCodec.Stands maxSize [] c (left ++ unread) ((later ++ [last]).map Message.encode)) := by
  obtain ⟨earlier, rfl, hheard⟩ := h.told
  have hreading : ∀ m ∈ later ++ [last], FrameCodec.reading m.encode = .ok m := fun m hm =>
    FrameCodec.reading_encode (Nat.le_min.mp (h.fits m hm)).2
  have hread := h.reads.read
    (fun b hb => by obtain ⟨m, hm, rfl⟩ := List.mem_map.mp hb; exact h.fits m hm)
    (fun b hb => by obtain ⟨m, hm, rfl⟩ := List.mem_map.mp hb; exact ⟨m, hreading m hm⟩)
  rw [← h.reads.next_eq] at hread
  rcases hread with ⟨next, rest, hnext, hopen, hopen', hr⟩ |
    ⟨body, more, m, next, rest, hbodies, hm, hnext, hclosed, hr⟩ |
    ⟨next, rest, c, left, hnext, hclosed, hover, hlack, hs⟩
  · refine .inl ⟨hopen, ?_⟩
    simp only [after, hnext]
    exact ⟨hopen', hr, h.fits, earlier, rfl, by rw [hheard]; exact List.append_nil _⟩
  · refine .inr (.inl ?_)
    simp only [after, hnext]
    cases later with
    | nil =>
      -- the last frame cannot be complete
      obtain ⟨-, rfl⟩ := List.cons.inj hbodies
      have hnil := hr.stands.eq_of_nil.2
      simp only [List.append_eq_nil_iff] at hnil
      exact absurd hnil.2.2.2 hunread
    | cons m' later =>
      obtain ⟨rfl, rfl⟩ := List.cons.inj hbodies
      obtain rfl : m' = m := Except.ok.inj ((hreading m' List.mem_cons_self).symm.trans hm)
      refine ⟨m', later, rfl, hclosed, hr, fun m hm => h.fits m (List.mem_cons_of_mem _ hm),
        earlier ++ [m'], by simp, ?_⟩
      show s.heard ++ [.message m'] = _
      rw [hheard, List.map_append]
      rfl
  · exact .inr (.inr ⟨hclosed, next, rest, c, left, hnext, hover, hlack, hs⟩)

theorem Tells.run {events : List FrameCodec.Event}
    (h : s.Tells maxSize (FrameCodec.fed events ++ lost) ms last later) (hopen : s.pipe.closed = false)
    (hlost : lost ≠ []) : ∃ later, (s.run events).Tells maxSize lost ms last later := by
  induction events generalizing s later with
  | nil => exact ⟨later, h⟩
  | cons event events ih =>
    cases event with
    | feed piece =>
      have h' : s.Tells maxSize (piece ++ (FrameCodec.fed events ++ lost)) ms last later := by
        rw [← List.append_assoc]
        exact h
      exact ih h'.feed hopen
    | look =>
      have hunread : FrameCodec.fed events ++ lost ≠ [] := fun hnil =>
        hlost (List.append_eq_nil_iff.mp hnil).2
      rcases h.look hunread with ⟨-, hopen', h'⟩ | ⟨m, rest, -, hsame, h'⟩ | ⟨hclosed, -⟩
      · exact ih h' hopen'
      · exact ih h' (hsame.trans hopen)
      · exact absurd (hopen.symm.trans hclosed) nofun

theorem Finished.run (h : s.Finished ms ending times) (looks : Nat) :
    (s.run (List.replicate looks .look)).Finished ms ending (times + looks) := by
  induction looks generalizing s times with
  | zero => exact h
  | succ looks ih =>
    have hstep : (s.after .look).Finished ms ending (times + 1) := by
      obtain ⟨reader, hnext, hover⟩ := h.isOver.next
      simp only [after, hnext]
      refine ⟨hover, ?_⟩
      show s.heard ++ [.ended] = _
      rw [h.told, List.replicate_succ']
      simp
    have hcount : times + (looks + 1) = times + 1 + looks := by omega
    rw [hcount]
    exact ih hstep

/-- What the end is to a reader of a cut frame, given what is lost of it. -/
def endingOf (last : Message) (lost : Bytes) : Inbound :=
  if lost = last.encode then .ended else .failed (.stream .bytesRemaining)

theorem Tells.next_of_cut (h : s.Tells maxSize lost ms last []) (hclosed : s.pipe.closed = true)
    (hlast : cut ++ lost = FrameCodec.frame last.encode) (hcut : cut ≠ []) (hlost : lost ≠ []) :
    ∃ reader pipe, s.reader.next s.pipe = (reader, pipe, endingOf last lost) ∧ reader.Over pipe := by
  rcases h.look hlost with ⟨hopen, -⟩ | ⟨m, rest, hnil, -⟩ |
    ⟨-, reader, pipe, c, left, hnext, hover, hlack, hs⟩
  · exact absurd (hclosed.symm.trans hopen) nofun
  · cases hnil
  · rw [List.map_append] at hs
    have hleft := (hs.of_cut hlack hlast hcut).2
    have hending : FrameReader.ending left = endingOf last lost := by
      unfold FrameReader.ending endingOf
      simp only [hleft]
    exact ⟨reader, pipe, hending ▸ hnext, hover⟩

/-- Each look at the closed pipe tells one message more, and the look after the last tells the end. -/
theorem Tells.run_looks (h : s.Tells maxSize lost ms last later) (hclosed : s.pipe.closed = true)
    (hlast : cut ++ lost = FrameCodec.frame last.encode) (hcut : cut ≠ []) (hlost : lost ≠ [])
    (looks : Nat) :
    (∃ rest, later.length = looks + rest.length ∧
      (s.run (List.replicate looks .look)).pipe.closed = true ∧
      (s.run (List.replicate looks .look)).Tells maxSize lost ms last rest) ∨
    ∃ times, (s.run (List.replicate looks .look)).Finished ms (endingOf last lost) times := by
  induction looks generalizing s later with
  | zero => exact .inl ⟨later, (Nat.zero_add _).symm, hclosed, h⟩
  | succ looks ih =>
    have hstep : s.run (List.replicate (looks + 1) .look) =
      (s.after .look).run (List.replicate looks .look) := rfl
    rw [hstep]
    rcases h.look hlost with ⟨hopen, -⟩ | ⟨m, rest, rfl, hsame, h'⟩ |
      ⟨-, _, _, c, left, _, _, hlack, hs⟩
    · exact absurd (hclosed.symm.trans hopen) nofun
    · rcases ih h' (hsame.trans hclosed) with ⟨rest', hlen, h''⟩ | h''
      · refine .inl ⟨rest', ?_, h''⟩
        rw [List.length_cons, hlen]
        omega
      · exact .inr h''
    · rw [List.map_append] at hs
      obtain rfl : later = [] := List.map_eq_nil_iff.mp (hs.of_cut hlack hlast hcut).1
      obtain ⟨reader, pipe, hnext, hover⟩ := h.next_of_cut hclosed hlast hcut hlost
      have hfinished : (s.after .look).Finished ms (endingOf last lost) 0 := by
        obtain ⟨earlier, hms, hheard⟩ := h.told
        rw [List.append_nil] at hms
        simp only [after, hnext]
        refine ⟨hover, ?_⟩
        rw [hheard, ← hms]
        unfold endingOf
        split <;> rfl
      exact .inr ⟨_, hfinished.run looks⟩

/-- A driver does what the reader of its connection tells it. -/
theorem read?_of_next {σ : Type} [BlockStore σ] {d : DriveState σ} {reader : FrameReader} {pipe : Pipe}
    (h : d.driver.connection.reader.next d.io.inbound = (reader, pipe, endingOf last lost))
    (now : Timestamp) :
    ∃ next, d.read? now = some (next, some
      (if lost = last.encode then .ok () else .error (.codec (.stream .bytesRemaining)))) := by
  unfold endingOf at h
  unfold DriveState.read? Connection.receive
  by_cases hheader : lost = last.encode
  · rw [if_pos hheader] at h ⊢
    simp only [h]
    exact ⟨_, rfl⟩
  · rw [if_neg hheader] at h ⊢
    simp only [h]
    exact ⟨_, rfl⟩

/-- When the pipe is closed within the last of some frames, the messages before it are told and then
the end. The end is an error that tells of remaining bytes, with one exception: behind the header it is
the end of a stream that was closed properly, and a driver that has read so far stops without an error.
How the bytes came in and when somebody looked makes no difference. -/
theorem told_of_cut (maxSize capacity : Nat) {ms : List Message} {last : Message} {cut lost : Bytes}
    {events : List FrameCodec.Event}
    (hfit : ∀ m ∈ last :: ms, m.encode.length ≤ min maxSize 0xffffffff)
    (hlast : cut ++ lost = FrameCodec.frame last.encode) (hcut : cut ≠ []) (hlost : lost ≠ [])
    (hfed : FrameCodec.fed events = ms.flatMap (fun m => FrameCodec.frame m.encode) ++ cut)
    (looks : Nat) :
    let s := ((new maxSize capacity).run events).close.run (List.replicate looks .look)
    (ms.length < looks → ∃ times, s.heard = ms.map .message ++
      (if lost = last.encode then .ended else .failed (.stream .bytesRemaining)) ::
        List.replicate times .ended) ∧
    (s.heard = ms.map .message → ∀ {σ : Type} [BlockStore σ] (d : DriveState σ) (now : Timestamp),
      d.driver.connection.reader = s.reader → d.io.inbound = s.pipe →
      ∃ next, d.read? now = some (next, some
        (if lost = last.encode then .ok () else .error (.codec (.stream .bytesRemaining))))) := by
  have hstart : (new maxSize capacity).Tells maxSize (FrameCodec.fed events ++ lost) ms last ms := by
    refine ⟨⟨.between ?_, fun _ => (by decide : 0 < FrameCodec.headerSize), rfl, rfl⟩,
      fun m hm => hfit m (by simpa [or_comm] using hm), [], rfl, rfl⟩
    show FrameCodec.fed events ++ lost = _
    rw [hfed, List.append_assoc, hlast]
    simp [List.flatMap_map]
  obtain ⟨later, h⟩ := hstart.run rfl hlost
  intro s
  have hle : later.length ≤ ms.length := by
    obtain ⟨earlier, rfl, -⟩ := h.told
    rw [List.length_append]
    omega
  rcases h.close.run_looks rfl hlast hcut hlost looks with ⟨rest, hlen, hclosed, hs⟩ |
    ⟨times, hs⟩
  · obtain ⟨earlier, hms, hheard⟩ := hs.told
    refine ⟨fun hlooks => by omega, fun hdone σ _ d now hreader hpipe => ?_⟩
    · have hcount := congrArg List.length (hheard.symm.trans hdone)
      rw [List.length_map, List.length_map, hms, List.length_append] at hcount
      obtain rfl : rest = [] := List.eq_nil_of_length_eq_zero (by omega)
      obtain ⟨reader, pipe, hnext, -⟩ := hs.next_of_cut hclosed hlast hcut hlost
      rw [← hreader, ← hpipe] at hnext
      exact read?_of_next hnext now
  · refine ⟨fun _ => ⟨times, hs.told⟩, fun hdone => ?_⟩
    have hcount := congrArg List.length (hs.told.symm.trans hdone)
    rw [List.length_append, List.length_cons] at hcount
    omega

/-- The second frame breaks off within its body, before which the first was told. -/
theorem told_of_cut_body :
    let ms : List Message := [{ pendingBytes := 1 }]
    let last : Message := { pendingBytes := 2 }
    let events : List FrameCodec.Event :=
      [.feed [0, 0], .look, .feed [0, 2, 0x28, 1, 0, 0], .look, .feed [0, 2, 0x28]]
    (∀ m ∈ last :: ms, m.encode.length ≤ min 16 0xffffffff) ∧
    [0, 0, 0, 2, 0x28] ++ [2] = FrameCodec.frame last.encode ∧
    FrameCodec.fed events =
      ms.flatMap (fun m => FrameCodec.frame m.encode) ++ [0, 0, 0, 2, 0x28] ∧
    ∃ times, (((new 16 64).run events).close.run [.look, .look]).heard = ms.map .message ++
      (if [2] = last.encode then .ended else .failed (.stream .bytesRemaining)) ::
        List.replicate times .ended := by
  intro ms last events
  have hfit : ∀ m ∈ last :: ms, m.encode.length ≤ min 16 0xffffffff := by decide +kernel
  have hlast : [0, 0, 0, 2, 0x28] ++ [2] = FrameCodec.frame last.encode := by decide +kernel
  have hfed : FrameCodec.fed events =
      ms.flatMap (fun m => FrameCodec.frame m.encode) ++ [0, 0, 0, 2, 0x28] := by decide +kernel
  exact ⟨hfit, hlast, hfed,
    (told_of_cut 16 64 hfit hlast (by decide) (by decide) hfed 2).1 (by decide)⟩

/-- A stream that breaks off behind the header of a body of two bytes ends like one that was closed
between two frames, for the reader and for a driver. -/
theorem ended_behind_header :
    let last : Message := { pendingBytes := 1 }
    let s := ((new maxFrameSize 64).after (.feed [0, 0, 0, 2])).close
    let peer : PeerId := ⟨⟨Multihash.identity, [], by decide⟩, .inr ⟨rfl, by decide⟩⟩
    let d : DriveState MemoryStore :=
      { driver := { connection := { peer, reader := s.reader }, outbox := 0 }
        exchange := .new {} {} .allowAll .disabled
        queue := { capacity := 1 }
        io := ⟨s.pipe, { capacity := 64 }⟩ }
    [0, 0, 0, 2] ++ [0x28, 1] = FrameCodec.frame last.encode ∧
    (s.after .look).heard = [.ended] ∧
    (d.read? ⟨0⟩).map (fun next => next.2) = some (some (.ok ())) := by
  exact ⟨by decide +kernel, by cbv, by cbv⟩

end Reading
end BlockExchange
