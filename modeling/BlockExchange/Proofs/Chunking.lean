import BlockExchange.Proofs.RoundTrip

/-!
# Frames that arrive in pieces

A codec gets the bytes of a stream in pieces of any size, and somebody looks for a message whenever
they like (`Session.run`). `Stands` says where the codec is in the stream: between two frames, or
behind the header of a frame whose body has not all come. A look keeps this (`Stands.decode`): it lacks
bytes, or it takes the next body off whatever the body is, or it meets a header beyond the limit and
leaves everything as it is. So what is found depends on the bodies alone (`found_of_chunks`).
-/

namespace BlockExchange

namespace Bytes

theorem splitAt?_eq_none_iff {n : Nat} {b : Bytes} : splitAt? n b = none ↔ b.length < n := by
  unfold splitAt?
  simp only [List.splitAt_eq, List.length_take, ite_eq_right_iff, reduceCtorEq, imp_false]
  omega

/-- Of two ways to cut a byte string, the one that cuts later goes on where the other cut. -/
theorem exists_of_append_eq {a b c d : Bytes} (h : a ++ b = c ++ d) (hl : c.length ≤ a.length) :
    ∃ left, a = c ++ left ∧ left ++ b = d := by
  obtain ⟨left, rfl⟩ := List.prefix_of_prefix_length_le ⟨d, h.symm⟩ (List.prefix_append a b) hl
  rw [List.append_assoc] at h
  exact ⟨left, rfl, List.append_cancel_left h⟩

end Bytes

namespace FrameCodec

/-- What a body is read as. -/
def reading (body : Bytes) : Except CodecError Message :=
  match Message.decode body with
  | .ok m => .ok m
  | .error e => .error (.malformed e)

/-- The buffer does not hold all that the codec takes off it next. -/
def Lacks (c : FrameCodec) (buffer : Bytes) : Prop :=
  buffer.length < c.awaited.getD headerSize

/-! ### One look -/

section
variable {maxSize n : Nat} {c : FrameCodec} {body buffer rest unread : Bytes}

theorem decodeBody_of_lt (h : buffer.length < n) :
    c.decodeBody n buffer = ⟨{ c with awaited := some n }, buffer, .ok none⟩ := by
  unfold decodeBody
  rw [Bytes.splitAt?_eq_none_iff.mpr h]

/-- A body that is there is taken off, whether or not it is a message. -/
theorem decodeBody_append (c : FrameCodec) (body rest : Bytes) :
    c.decodeBody body.length (body ++ rest) =
      ⟨{ c with awaited := none }, rest, (reading body).map some⟩ := by
  unfold decodeBody reading
  simp only [Bytes.splitAt?_append]
  cases Message.decode body <;> rfl

theorem decode_of_lacks (h : c.Lacks buffer) : c.decode buffer = ⟨c, buffer, .ok none⟩ := by
  obtain ⟨maxSize, awaited⟩ := c
  cases awaited with
  | none =>
    have hsplit : Bytes.splitAt? headerSize buffer = none := Bytes.splitAt?_eq_none_iff.mpr h
    unfold decode
    simp only [hsplit]
  | some n => exact decodeBody_of_lt h

theorem decode_header {header : Bytes} (hlen : header.length = headerSize)
    (hlimit : header.toNat ≤ min maxSize maxHeader) (buffer : Bytes) :
    decode { maxSize } (header ++ buffer) = decodeBody { maxSize } header.toNat buffer := by
  have hsplit : Bytes.splitAt? headerSize (header ++ buffer) = some (header, buffer) :=
    Bytes.splitAt?_eq_some_iff.mpr ⟨hlen, rfl⟩
  unfold decode
  simp only [hsplit]
  exact if_neg (Nat.not_lt.mpr hlimit)

/-- A header beyond the limit is refused, and the buffer stays as it is. -/
theorem decode_oversized {header : Bytes} (hlen : header.length = headerSize)
    (hlimit : min maxSize maxHeader < header.toNat) (rest : Bytes) :
    decode { maxSize } (header ++ rest) =
      ⟨{ maxSize }, header ++ rest, .error (.stream .frameTooBig)⟩ := by
  have hsplit : Bytes.splitAt? headerSize (header ++ rest) = some (header, rest) :=
    Bytes.splitAt?_eq_some_iff.mpr ⟨hlen, rfl⟩
  unfold decode
  simp only [hsplit]
  exact if_pos hlimit

theorem decodeBody_cases (c : FrameCodec) (hs : buffer ++ unread = body ++ rest) :
    (buffer.length < body.length ∧
      c.decodeBody body.length buffer = ⟨{ c with awaited := some body.length }, buffer, .ok none⟩) ∨
    ∃ left, left ++ unread = rest ∧
      c.decodeBody body.length buffer = ⟨{ c with awaited := none }, left, (reading body).map some⟩ := by
  by_cases hlt : buffer.length < body.length
  · exact .inl ⟨hlt, decodeBody_of_lt hlt⟩
  · obtain ⟨left, rfl, hrest⟩ := Bytes.exists_of_append_eq hs (Nat.not_lt.mp hlt)
    exact .inr ⟨left, hrest, decodeBody_append c body left⟩

end

/-! ### A codec in a stream -/

/-- The bytes begin with a header that announces more than the limit. -/
def Oversized (maxSize : Nat) (b : Bytes) : Prop :=
  ∃ header rest, b = header ++ rest ∧ header.length = headerSize ∧
    min maxSize maxHeader < header.toNat

/-- Where a codec is that still has to read these bodies and finds `tail` after the last frame:
`stream` is all that comes, from the front of its buffer on. -/
inductive Stands (maxSize : Nat) (tail : Bytes) :
    FrameCodec → (stream : Bytes) → (bodies : List Bytes) → Prop
  | between {stream : Bytes} {bodies : List Bytes} (hs : stream = bodies.flatMap frame ++ tail) :
    Stands maxSize tail { maxSize } stream bodies
  | inside {stream body : Bytes} {bodies : List Bytes}
    (hs : stream = body ++ (bodies.flatMap frame ++ tail)) :
    Stands maxSize tail { maxSize, awaited := some body.length } stream (body :: bodies)

section
variable {maxSize : Nat} {tail buffer unread : Bytes} {c : FrameCodec} {bodies : List Bytes}

theorem Stands.of_decodeBody {body : Bytes}
    (hs : buffer ++ unread = body ++ (bodies.flatMap frame ++ tail)) :
    (∃ c left, decodeBody { maxSize } body.length buffer = ⟨c, left, .ok none⟩ ∧ c.Lacks left ∧
      Stands maxSize tail c (left ++ unread) (body :: bodies)) ∨
    ∃ c left, decodeBody { maxSize } body.length buffer = ⟨c, left, (reading body).map some⟩ ∧
      Stands maxSize tail c (left ++ unread) bodies := by
  rcases decodeBody_cases { maxSize } hs with ⟨hlt, hd⟩ | ⟨left, hleft, hd⟩
  · exact .inl ⟨_, _, hd, hlt, .inside hs⟩
  · exact .inr ⟨_, _, hd, .between hleft⟩

/-- A look lacks bytes, or reads the next body, or refuses what follows the last frame. -/
theorem Stands.decode (h : Stands maxSize tail c (buffer ++ unread) bodies)
    (hfit : ∀ b ∈ bodies, b.length ≤ min maxSize maxHeader)
    (htail : tail = [] ∨ Oversized maxSize tail) :
    (∃ c' left, c.decode buffer = ⟨c', left, .ok none⟩ ∧ c'.Lacks left ∧
      Stands maxSize tail c' (left ++ unread) bodies) ∨
    (∃ body rest c' left, bodies = body :: rest ∧
      c.decode buffer = ⟨c', left, (reading body).map some⟩ ∧
      Stands maxSize tail c' (left ++ unread) rest) ∨
    (bodies = [] ∧ tail ≠ [] ∧
      c.decode buffer = ⟨c, buffer, .error (.stream .frameTooBig)⟩) := by
  by_cases hlack : c.Lacks buffer
  · exact .inl ⟨c, buffer, decode_of_lacks hlack, hlack, h⟩
  cases h with
  | @inside _ body rest hs =>
    rcases Stands.of_decodeBody hs with h | ⟨c', left, hd, h⟩
    · exact .inl h
    · exact .inr (.inl ⟨body, rest, c', left, rfl, hd, h⟩)
  | between hs =>
    have hlen : headerSize ≤ buffer.length := Nat.not_lt.mp hlack
    cases bodies with
    | nil =>
      obtain rfl | ⟨header, rest, rfl, hheader, hlimit⟩ := htail
      · obtain ⟨rfl, -⟩ := List.append_eq_nil_iff.mp hs
        exact absurd hlen (by decide)
      · rw [List.flatMap_nil, List.nil_append] at hs
        obtain ⟨left, rfl, -⟩ := Bytes.exists_of_append_eq hs (Nat.le_trans (Nat.le_of_eq hheader) hlen)
        refine .inr (.inr ⟨rfl, fun hnil => ?_, decode_oversized hheader hlimit left⟩)
        obtain ⟨rfl, -⟩ := List.append_eq_nil_iff.mp hnil
        cases hheader
    | cons body rest =>
      have hbody := hfit body List.mem_cons_self
      have hnum : (Bytes.ofNat headerSize body.length).toNat = body.length :=
        Bytes.toNat_ofNat (Nat.lt_of_le_of_lt (Nat.le_min.mp hbody).2 (by decide))
      have hheader := Bytes.length_ofNat headerSize body.length
      rw [List.flatMap_cons, frame, List.append_assoc, List.append_assoc] at hs
      obtain ⟨left, rfl, hleft⟩ := Bytes.exists_of_append_eq hs (hheader.symm ▸ hlen)
      rw [decode_header hheader (hnum.symm ▸ hbody), hnum]
      rcases Stands.of_decodeBody hleft with h | ⟨c', left', hd, h⟩
      · exact .inl h
      · exact .inr (.inl ⟨body, rest, c', left', rfl, hd, h⟩)

/-- A codec lacks nothing of a stream that has all come. -/
theorem Stands.not_lacks (h : Stands maxSize tail c buffer bodies)
    (htail : tail = [] ∨ Oversized maxSize tail) (hlack : c.Lacks buffer) :
    bodies = [] ∧ tail = [] := by
  cases h with
  | inside hs =>
    have hlt : buffer.length < _ := hlack
    rw [hs, List.length_append] at hlt
    simp only [Option.getD_some] at hlt
    omega
  | between hs =>
    have hlt : buffer.length < headerSize := hlack
    cases bodies with
    | nil =>
      obtain rfl | ⟨header, rest, rfl, hheader, -⟩ := htail
      · exact ⟨rfl, rfl⟩
      · rw [hs, List.flatMap_nil, List.nil_append, List.length_append] at hlt
        omega
    | cons body rest =>
      rw [hs, List.flatMap_cons, List.length_append, List.length_append, length_frame] at hlt
      omega

theorem Stands.eq_of_nil (h : Stands maxSize tail c buffer []) : c = { maxSize } ∧ buffer = tail := by
  cases h with
  | between hs => exact ⟨rfl, hs⟩

end

/-! ### Pieces and looks in any order -/

/-- What happens at a codec. -/
inductive Event
  | feed (piece : Bytes)
  | look

/-- All that is fed. -/
def fed : List Event → Bytes
  | [] => []
  | .feed piece :: events => piece ++ fed events
  | .look :: events => fed events

/-- A codec with its buffer and all that was found, but for looks that lacked bytes. -/
structure Session where
  codec : FrameCodec
  buffer : Bytes := []
  found : List (Except CodecError Message) := []

/-- What a look found, if it did not lack bytes. -/
def Step.found (step : Step) : List (Except CodecError Message) :=
  match step.result with
  | .ok none => []
  | .ok (some m) => [.ok m]
  | .error e => [.error e]

namespace Session

/-- A new codec with an empty buffer. -/
def new (maxSize : Nat) : Session where
  codec := { maxSize }

def after (s : Session) : Event → Session
  | .feed piece => { s with buffer := s.buffer ++ piece }
  | .look =>
    let step := s.codec.decode s.buffer
    ⟨step.codec, step.buffer, s.found ++ step.found⟩

def run (s : Session) (events : List Event) : Session :=
  events.foldl after s

theorem run_append (s : Session) (es es' : List Event) : s.run (es ++ es') = (s.run es).run es' :=
  List.foldl_append

variable {maxSize : Nat} {tail unread : Bytes} {s : Session} {bodies : List Bytes}

theorem after_look_of_lacks {c : FrameCodec} {left : Bytes}
    (h : s.codec.decode s.buffer = ⟨c, left, .ok none⟩) : s.after .look = ⟨c, left, s.found⟩ := by
  simp only [after, h, Step.found, List.append_nil]

theorem after_look_of_body {c : FrameCodec} {body left : Bytes}
    (h : s.codec.decode s.buffer = ⟨c, left, (reading body).map some⟩) :
    s.after .look = ⟨c, left, s.found ++ [reading body]⟩ := by
  simp only [after, h, Step.found]
  cases reading body <;> rfl

theorem after_look_of_error {e : CodecError}
    (h : s.codec.decode s.buffer = ⟨s.codec, s.buffer, .error e⟩) :
    s.after .look = { s with found := s.found ++ [.error e] } := by
  simp only [after, h, Step.found]

/-- A session with the bytes that have not come: the bodies before `bodies` have been read, and
refusals were only met behind the last. -/
structure Reads (maxSize : Nat) (tail : Bytes) (all : List Bytes) (unread : Bytes) (s : Session)
    (bodies : List Bytes) (refusals : Nat) : Prop where
  stands : Stands maxSize tail s.codec (s.buffer ++ unread) bodies
  found : ∃ read, all = read ++ bodies ∧
    s.found = read.map reading ++ List.replicate refusals (.error (.stream .frameTooBig))
  refused : refusals ≠ 0 → bodies = [] ∧ tail ≠ []

variable {all : List Bytes} {refusals : Nat}

theorem Reads.feed {piece : Bytes} (h : s.Reads maxSize tail all (piece ++ unread) bodies refusals) :
    (s.after (.feed piece)).Reads maxSize tail all unread bodies refusals := by
  refine ⟨?_, h.found, h.refused⟩
  show Stands maxSize tail s.codec (s.buffer ++ piece ++ unread) bodies
  rw [List.append_assoc]
  exact h.stands

theorem Reads.look (h : s.Reads maxSize tail all unread bodies refusals)
    (hfit : ∀ b ∈ all, b.length ≤ min maxSize maxHeader)
    (htail : tail = [] ∨ Oversized maxSize tail) :
    ∃ bodies refusals, (s.after .look).Reads maxSize tail all unread bodies refusals := by
  obtain ⟨read, rfl, hfound⟩ := h.found
  have hfit' : ∀ b ∈ bodies, b.length ≤ min maxSize maxHeader :=
    fun b hb => hfit b (List.mem_append_right read hb)
  rcases h.stands.decode hfit' htail with ⟨c, left, hd, -, hs⟩ | ⟨body, rest, c, left, rfl, hd, hs⟩ |
    ⟨rfl, hne, hd⟩
  · rw [after_look_of_lacks hd]
    exact ⟨bodies, refusals, hs, ⟨read, rfl, hfound⟩, h.refused⟩
  · rw [after_look_of_body hd]
    -- nothing was refused, since a body was still to be read
    obtain rfl : refusals = 0 := Decidable.byContradiction fun hr => nomatch (h.refused hr).1
    refine ⟨rest, 0, hs, ⟨read ++ [body], by simp, ?_⟩, by simp⟩
    rw [hfound]
    simp
  · rw [after_look_of_error hd]
    refine ⟨[], refusals + 1, h.stands, ⟨read, rfl, ?_⟩, fun _ => ⟨rfl, hne⟩⟩
    show s.found ++ _ = _
    rw [hfound, List.append_assoc, List.replicate_succ']

theorem Reads.run (events : List Event)
    (h : s.Reads maxSize tail all (fed events ++ unread) bodies refusals)
    (hfit : ∀ b ∈ all, b.length ≤ min maxSize maxHeader)
    (htail : tail = [] ∨ Oversized maxSize tail) :
    ∃ bodies refusals, (s.run events).Reads maxSize tail all unread bodies refusals := by
  induction events generalizing s bodies refusals with
  | nil => exact ⟨bodies, refusals, h⟩
  | cons event events ih =>
    cases event with
    | feed piece =>
      have h' : s.Reads maxSize tail all (piece ++ (fed events ++ unread)) bodies refusals := by
        rw [← List.append_assoc]
        exact h
      exact ih h'.feed
    | look =>
      obtain ⟨bodies, refusals, h'⟩ := h.look hfit htail
      exact ih h'

/-- When all has come, each look reads one body, and then every look finds the same. -/
theorem run_looks (hs : Stands maxSize tail s.codec s.buffer bodies)
    (hfit : ∀ b ∈ bodies, b.length ≤ min maxSize maxHeader)
    (htail : tail = [] ∨ Oversized maxSize tail) {looks : Nat} (hlooks : bodies.length ≤ looks) :
    ∃ n, s.run (List.replicate looks .look) = ⟨{ maxSize }, tail,
        s.found ++ bodies.map reading ++ List.replicate n (.error (.stream .frameTooBig))⟩ ∧
      (tail = [] → n = 0) ∧ (tail ≠ [] → looks ≤ bodies.length + n) := by
  induction looks generalizing s bodies with
  | zero =>
    obtain rfl := List.eq_nil_of_length_eq_zero (Nat.le_zero.mp hlooks)
    obtain ⟨hc, hb⟩ := hs.eq_of_nil
    refine ⟨0, ?_, fun _ => rfl, fun _ => Nat.zero_le _⟩
    obtain ⟨codec, buffer, found⟩ := s
    obtain rfl : codec = { maxSize } := hc
    obtain rfl : buffer = tail := hb
    simp [run]
  | succ looks ih =>
    have hstep : s.run (List.replicate (looks + 1) .look) =
      (s.after .look).run (List.replicate looks .look) := rfl
    have hs' : Stands maxSize tail s.codec (s.buffer ++ []) bodies := by rwa [List.append_nil]
    rw [hstep]
    rcases hs'.decode hfit htail with ⟨c, left, hd, hlack, h⟩ | ⟨body, rest, c, left, rfl, hd, h⟩ |
      ⟨rfl, hne, hd⟩
    · rw [List.append_nil] at h
      obtain ⟨rfl, rfl⟩ := h.not_lacks htail hlack
      rw [after_look_of_lacks hd]
      obtain ⟨n, hn, hzero, -⟩ := @ih ⟨c, left, s.found⟩ [] h hfit (Nat.zero_le _)
      exact ⟨n, hn, hzero, fun hne => absurd rfl hne⟩
    · rw [List.append_nil] at h
      rw [after_look_of_body hd]
      obtain ⟨n, hn, hzero, hle⟩ := @ih ⟨c, left, s.found ++ [reading body]⟩ rest h
        (fun b hb => hfit b (List.mem_cons_of_mem _ hb)) (Nat.le_of_succ_le_succ hlooks)
      refine ⟨n, by rw [hn]; simp, hzero, fun hne => ?_⟩
      have := hle hne
      rw [List.length_cons]
      omega
    · rw [after_look_of_error hd]
      obtain ⟨n, hn, -, hle⟩ :=
        @ih { s with found := s.found ++ [.error (.stream .frameTooBig)] } [] hs hfit (Nat.zero_le _)
      refine ⟨n + 1, ?_, fun hnil => absurd hnil hne, fun _ => ?_⟩
      · rw [hn]
        simp [List.replicate_succ]
      · have := hle hne
        omega

end Session

/-- However the frames of some bodies are cut into pieces and whenever somebody looks, what is found is
a beginning of what the bodies are read as, one by one. When all has come, as many looks as there are
bodies find the rest. A header beyond the limit behind the last frame is refused at every look, and
neither it nor what follows it is taken off the buffer. -/
theorem found_of_chunks (maxSize : Nat) (bodies : List Bytes)
    (hfit : ∀ b ∈ bodies, b.length ≤ min maxSize 0xffffffff) (tail : Bytes)
    (htail : tail = [] ∨ Oversized maxSize tail) (events : List Event) (unread : Bytes)
    (hfed : fed events ++ unread = bodies.flatMap frame ++ tail) :
    (∃ n, ((Session.new maxSize).run events).found <+:
        bodies.map reading ++ List.replicate n (.error (.stream .frameTooBig)) ∧
      (tail = [] → n = 0)) ∧
    (unread = [] → ∀ looks, bodies.length ≤ looks →
      ∃ n, (Session.new maxSize).run (events ++ List.replicate looks .look) =
          ⟨{ maxSize }, tail,
            bodies.map reading ++ List.replicate n (.error (.stream .frameTooBig))⟩ ∧
        (tail = [] → n = 0) ∧ (tail ≠ [] → looks ≤ bodies.length + n)) := by
  have hstart : (Session.new maxSize).Reads maxSize tail bodies (fed events ++ unread) bodies 0 :=
    ⟨.between hfed, ⟨[], rfl, rfl⟩, by simp⟩
  obtain ⟨rest, refusals, hr⟩ := hstart.run events hfit htail
  obtain ⟨read, hall, hfound⟩ := hr.found
  have hnone : tail = [] → refusals = 0 := fun hnil =>
    Decidable.byContradiction fun h0 => (hr.refused h0).2 hnil
  constructor
  · refine ⟨refusals, ?_, hnone⟩
    rw [hfound, hall]
    by_cases h0 : refusals = 0
    · subst h0
      simp
    · rw [(hr.refused h0).1]
      simp
  · rintro rfl looks hlooks
    have hs := hr.stands
    rw [List.append_nil] at hs
    have hle : rest.length ≤ looks := by
      rw [hall, List.length_append] at hlooks
      omega
    obtain ⟨n, hn, hzero, hcount⟩ := Session.run_looks hs
      (fun b hb => hfit b (hall ▸ List.mem_append_right read hb)) htail hle
    refine ⟨refusals + n, ?_, fun hnil => ?_, fun hne => ?_⟩
    · rw [Session.run_append, hn, hfound, hall]
      by_cases h0 : refusals = 0
      · subst h0
        simp
      · rw [(hr.refused h0).1]
        simp [List.replicate_append_replicate]
    · rw [hnone hnil, hzero hnil]
    · have := hcount hne
      rw [hall, List.length_append]
      omega

/-- The second of three bodies is no message, the third is empty, and what follows is too long. -/
theorem found_of_chunks_bad_body :
    let bodies : List Bytes := [[0x28, 1], [0xff], []]
    let tail : Bytes := [0, 0, 0, 9, 7]
    let events : List Event := [.feed [0, 0], .look, .feed [0, 2, 0x28], .look, .look,
      .feed [1, 0, 0, 0, 1, 0xff, 0, 0, 0], .look, .feed [0, 0, 0, 0, 9, 7]]
    (∀ b ∈ bodies, b.length ≤ min 2 0xffffffff) ∧ (tail = [] ∨ Oversized 2 tail) ∧
    fed events ++ [] = bodies.flatMap frame ++ tail ∧
    bodies.map reading =
      [.ok { pendingBytes := 1 }, .error (.malformed { fault := .invalidVarint }), .ok {}] ∧
    ∃ n, (Session.new 2).run (events ++ List.replicate 4 .look) =
        ⟨{ maxSize := 2 }, tail,
          bodies.map reading ++ List.replicate n (.error (.stream .frameTooBig))⟩ ∧
      (tail = [] → n = 0) ∧ (tail ≠ [] → 4 ≤ bodies.length + n) := by
  intro bodies tail events
  have hfit : ∀ b ∈ bodies, b.length ≤ min 2 0xffffffff := by decide
  have htail : tail = [] ∨ Oversized 2 tail := .inr ⟨[0, 0, 0, 9], [7], rfl, rfl, by decide⟩
  have hfed : fed events ++ [] = bodies.flatMap frame ++ tail := by decide
  exact ⟨hfit, htail, hfed, rfl,
    (found_of_chunks 2 bodies hfit tail htail events [] hfed).2 rfl 4 (by decide)⟩

end FrameCodec
end BlockExchange
