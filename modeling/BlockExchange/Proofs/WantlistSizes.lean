import BlockExchange.Exchange.Drive
import BlockExchange.Proofs.FileNames
import BlockExchange.Proofs.Lookups
import BlockExchange.Store.Memory

/-!
# How large wantlists get

No exchange packs two entries into a message that exceeds a frame, but an entry that is larger than
a frame by itself goes out all the same: unlike that of a block, its length is not looked at. So a
message of a wantlist fits a frame or holds a single want, whose token then is about as long as a
frame or longer (`wantlist_frames`). A driver that takes up such a message stops
(`DriveState.Ready.write?_eq`).
-/

namespace BlockExchange

open Protobuf

/-! ### The length of one entry -/

theorem Varint.length_le_four {n : Nat} (h : n < 268435456) : length n ≤ 4 := by
  refine length_le_succ (length_le_succ (length_le_succ ?_))
  exact Nat.le_of_eq (length_of_lt (by omega))

theorem Varint.length_eq_four {n : Nat} (hn : 2097152 ≤ n) (h : n < 268435456) : length n = 4 := by
  rw [length, if_neg (by omega), length, if_neg (by omega), length, if_neg (by omega),
    length_of_lt (by omega)]

theorem Protobuf.numberLength_eq_two {tag n : Nat} (ht : tag < 16) (hpos : 0 < n) (hn : n < 128) :
    numberLength tag n = 2 := by
  rw [numberLength, if_neg (by omega), length_key ht, Varint.length_of_lt hn]

theorem TraceLog.utf8ByteSize_traceId (n : Nat) : (traceId n).utf8ByteSize = 32 := by
  have hchars : ∀ c ∈ (Bytes.ofNat 16 n).flatMap fun x =>
      [Hex.digit (x.toNat / 16), Hex.digit (x.toNat % 16)], Directory.IsNameChar c := by
    intro c hc
    obtain ⟨x, -, hc⟩ := List.mem_flatMap.mp hc
    have hx := x.toNat_lt
    rcases List.mem_pair.mp hc with rfl | rfl
    · exact .inl (Hex.isAlphanum_digit (by omega))
    · exact .inl (Hex.isAlphanum_digit (by omega))
  have hsize := Directory.utf8ByteSize_of_nameChars hchars
  rw [List.length_flatMap] at hsize
  simpa [traceId, Hex.encode] using hsize

theorem Exchange.baseLength_newTraceId_le {σ : Type} (x : Exchange σ) :
    Message.baseLength x.newTraceId.2 ≤ 34 := by
  unfold newTraceId
  split
  · have hlen := bytesLength_le (show Message.traceIdTag < 16 by decide) 32
    rw [Varint.length_of_lt (by omega)] at hlen
    unfold Message.baseLength
    rw [TraceLog.utf8ByteSize_traceId]
    exact hlen
  · exact Nat.zero_le _

/-- In an entry for a want there are the identifier, the token, a priority and a flag. -/
theorem Entry.encodedLength_want (v : Want) : (want v .block true).encodedLength =
    bytesLength 1 v.cid.toBytes.length + bytesLength 6 v.authBytes.length + 4 := by
  have hpriority : numberLength 2 (signed 1) = 2 :=
    numberLength_eq_two (by decide) (by decide) (by decide)
  have hcancel : flagLength 3 false = 0 := rfl
  have htype : numberLength 4 (signed WantType.block.toNumber) = 0 := rfl
  have hflag : flagLength 5 true = 2 := numberLength_eq_two (by decide) (by decide) (by decide)
  show bytesLength 1 v.cid.toBytes.length + numberLength 2 (signed 1) + flagLength 3 false
    + numberLength 4 (signed WantType.block.toNumber) + flagLength 5 true
    + bytesLength 6 v.authBytes.length = _
  omega

theorem Entry.encodedLength_want_le (v : Want) : (want v .block true).encodedLength ≤
    v.authBytes.length + Varint.length v.authBytes.length + 111 := by
  have hcid := v.cid.length_toBytes_bounded
  have hname := bytesLength_le (show 1 < 16 by decide) v.cid.toBytes.length
  have hauth := bytesLength_le (show 6 < 16 by decide) v.authBytes.length
  rw [Varint.length_of_lt (by omega)] at hname
  rw [encodedLength_want]
  omega

namespace Message
variable {m : Message} {es : List Entry} {maxSize : Nat} {traceId : String} {e : Entry}

/-- The length of a message that holds a single entry. -/
theorem encodedLength_of_single (hm : m ∈ pack maxSize traceId es [] []) (he : m.entries = [e])
    (hp : m.presences = []) (hb : m.payload = []) :
    m.encodedLength = wantlistLength e.fieldLength + baseLength traceId := by
  have hpos := e.fieldLength_pos
  rw [encodedLength_of_mem_pack maxSize traceId hm]
  unfold recordsLength listLength
  rw [he, hp, hb, total_cons, total_nil, total_nil, total_nil, if_neg (by omega)]
  rfl

/-- A single want with a token that is not very long fits a frame. -/
theorem encodedLength_le_of_short {v : Want} (hm : m ∈ pack maxSize traceId es [] [])
    (he : m.entries = [.want v .block true]) (hp : m.presences = []) (hb : m.payload = [])
    (hid : baseLength traceId ≤ 34) (hshort : v.authBytes.length + 160 ≤ maxFrameSize) :
    m.encodedLength ≤ maxFrameSize := by
  have hmax : maxFrameSize = 8388608 := rfl
  have hentry := Entry.encodedLength_want_le v
  have hauth := Varint.length_le_four (show v.authBytes.length < 268435456 by omega)
  have hlen := Varint.length_le_four
    (show (Entry.want v .block true).encodedLength < 268435456 by omega)
  rw [encodedLength_of_single hm he hp hb]
  unfold wantlistLength Entry.fieldLength delimitedLength
  rw [length_key (by decide), length_key (by decide)]
  have hfield := Varint.length_le_four (show
    1 + Varint.length (Entry.want v .block true).encodedLength +
      (Entry.want v .block true).encodedLength < 268435456 by omega)
  omega

/-- The length of a single want whose identifier has the usual length, and whose token is long. -/
theorem encodedLength_of_long {v : Want} (hcid : v.cid.toBytes.length = 36)
    (hlong : 2097152 ≤ v.authBytes.length) (hshort : v.authBytes.length < maxFrameSize) :
    ({ wantlist := some { entries := [.want v .block true] } } : Message).encodedLength =
      v.authBytes.length + 57 := by
  have hmax : maxFrameSize = 8388608 := rfl
  have hentry : (Entry.want v .block true).encodedLength = v.authBytes.length + 47 := by
    rw [Entry.encodedLength_want, hcid, bytesLength, bytesLength, if_neg (by omega),
      if_neg (by omega), delimitedLength, delimitedLength, length_key (by decide),
      length_key (by decide), Varint.length_of_lt (by omega),
      Varint.length_eq_four hlong (by omega)]
    omega
  have hfield : (Entry.want v .block true).fieldLength = v.authBytes.length + 52 := by
    rw [Entry.fieldLength, hentry, delimitedLength, length_key (by decide),
      Varint.length_eq_four (by omega) (by omega)]
    omega
  show delimitedLength Wantlist.tag (Entry.want v .block true).fieldLength = _
  rw [hfield, delimitedLength, length_key (by decide),
    Varint.length_eq_four (by omega) (by omega)]
  omega

end Message

/-! ### Writing a message -/

namespace DriveState
variable {σ : Type} {s : DriveState σ}

/-- A driver that is about to take up a message, with room in its writer. -/
structure Ready (s : DriveState σ) : Prop where
  begun : s.driver.begun = false
  limit : s.driver.connection.writer.codec.maxSize = maxFrameSize
  room : s.driver.connection.writer.unsent.length < FrameWriter.highWater

/-- A driver goes on with a message that fits a frame, and stops at one that does not. -/
theorem Ready.write?_eq (h : s.Ready) (now : Timestamp) (m : Message) (rest : List Message) :
    ∃ next, s.write? now m rest = some (next, if m.encodedLength ≤ maxFrameSize then none
      else some (.error (.codec (.tooLarge m.encodedLength maxFrameSize)))) := by
  have hready : s.driver.connection.writer.ready s.io.outbound =
      (s.driver.connection.writer, s.io.outbound, .done) := if_pos h.room
  have hheader : maxFrameSize ≤ FrameCodec.maxHeader := by decide
  unfold write? Connection.begin FrameWriter.enqueue FrameCodec.append
  simp only [h.begun, hready, h.limit, Bool.false_eq_true, if_false]
  by_cases hfit : m.encodedLength ≤ maxFrameSize
  · rw [if_neg (Nat.not_lt.mpr hfit), if_neg (Nat.not_lt.mpr (Nat.le_trans hfit hheader)),
      if_pos hfit]
    exact ⟨_, rfl⟩
  · rw [if_pos (Nat.lt_of_not_le hfit), if_neg hfit]
    exact ⟨_, rfl⟩

end DriveState

/-! ### The messages of a wantlist -/

namespace Exchange

variable {σ : Type} {x y z : Exchange σ} {b c : Broadcast} {p : PeerId} {o : OutboxId}
  {m : Message} {w : Want} {now : Duration}

/-- The ways in which an exchange begins to tell peers what is wanted. A call of `getBlocks` does
so when it has looked for all its wants. -/
inductive Announces (x : Exchange σ) : Exchange σ → Broadcast → Prop
  | sendWants (now : Duration) (peers : List PeerId) : Announces x x (x.sendWants now peers)
  | wantBlock (now : Duration) (w : Want) (peers : List PeerId) :
      Announces x (x.wantBlock now w peers).1 (x.wantBlock now w peers).2.2
  | getBlocks (now : Duration) (slots : List FetchSlot) (peers : List PeerId) :
      Announces x x (x.advertise now slots peers)

theorem Announces.waiting (h : Announces x y b) : b.waiting = none := by
  cases h with
  | sendWants | wantBlock => rfl
  | getBlocks => exact waiting_advertise ..

theorem Announces.exists_want (h : Announces x y b) {e : Entry} (he : e ∈ b.entries) :
    ∃ v, e = .want v .block true := by
  cases h with
  | sendWants =>
    obtain ⟨v, -, rfl⟩ := List.mem_map.mp he
    exact ⟨v, rfl⟩
  | wantBlock now w => exact ⟨w, List.mem_singleton.mp he⟩
  | getBlocks =>
    obtain ⟨v, rfl, -⟩ := isPending_of_mem_advertise he
    exact ⟨v, rfl⟩

variable [BlockStore σ] {given : List (Want × WantFuture)} {moves : List (Move σ)} {task : TaskId}

theorem Announces.maxMessageSize_le (h : Announces x y b) (hx : Run x given) :
    y.maxMessageSize ≤ maxFrameSize := by
  cases h with
  | sendWants | getBlocks => exact hx.maxMessageSize_le
  | wantBlock now w peers => exact (hx.step (.wantBlock now w peers)).maxMessageSize_le

/-- A message that does not fit a frame holds a single want under a very long token. -/
theorem fits_or_long_token (hx : Run x given) (ha : Announces x y b)
    (ht : Broadcast.Tells task b y moves c z) (hm : m ∈ postedTo o moves) :
    m.encodedLength ≤ maxFrameSize ∨ maxFrameSize < m.encodedLength ∧
      ∃ v, m.entries = [.want v .block true] ∧ m.presences = [] ∧ m.payload = [] ∧
        maxFrameSize < v.authBytes.length + 160 := by
  by_cases hfit : m.encodedLength ≤ maxFrameSize
  · exact .inl hfit
  refine .inr ⟨Nat.lt_of_not_le hfit, ?_⟩
  obtain ⟨frames, ⟨u, rfl⟩, hpack⟩ :
      ∃ frames, Broadcast.Framing y b.entries frames ∧ m ∈ frames := by
    rcases ht.mem_posted hm with ⟨ms, hms, -⟩ | hframes
    · rw [ha.waiting] at hms
      cases hms
    · exact hframes
  have hmax := ha.maxMessageSize_le hx
  have hp : m.presences = [] := List.flatMap_eq_nil_iff.mp
    (flatMap_pack_presences y.maxMessageSize u.newTraceId.2 b.entries [] []) m hpack
  have hb : m.payload = [] := List.flatMap_eq_nil_iff.mp
    (flatMap_pack_payload y.maxMessageSize u.newTraceId.2 b.entries [] []) m hpack
  rcases pack_within y.maxMessageSize u.newTraceId.2 _ _ _ m hpack with hsize | hcount
  · exact absurd (Nat.le_trans hsize hmax) hfit
  · rw [Message.recordCount, hp, hb] at hcount
    obtain ⟨e, he⟩ := List.length_eq_one_iff.mp hcount
    have hentry := ht.mem_entries ha.waiting hm (he ▸ List.mem_singleton_self e)
    obtain ⟨v, rfl⟩ := ha.exists_want hentry
    refine ⟨v, he, hp, hb, Nat.lt_of_not_le fun hshort => hfit ?_⟩
    exact Message.encodedLength_le_of_short hpack he hp hb u.baseLength_newTraceId_le hshort

/-- Whatever an exchange puts into an outbox to tell what is wanted, a driver writes it if it fits
a frame; else it is a single want under a token about as long as a frame, and the driver that takes
it up stops. -/
theorem wantlist_frames (hx : Run x given) (ha : Announces x y b)
    (ht : Broadcast.Tells task b y moves c z) (hm : m ∈ postedTo o moves) :
    (m.encodedLength ≤ maxFrameSize ∧ ∀ (s : DriveState σ) (now : Timestamp) (rest : List Message),
      s.Ready → ∃ next, s.write? now m rest = some (next, none)) ∨
    ((∃ v, m.entries = [.want v .block true] ∧ m.presences = [] ∧ m.payload = [] ∧
        maxFrameSize < v.authBytes.length + 160) ∧
      maxFrameSize < m.encodedLength ∧
      ∀ (s : DriveState σ) (now : Timestamp) (rest : List Message), s.Ready →
        ∃ next, s.write? now m rest =
          some (next, some (.error (.codec (.tooLarge m.encodedLength maxFrameSize))))) := by
  rcases fits_or_long_token hx ha ht hm with hfit | ⟨hlarge, hv⟩
  · refine .inl ⟨hfit, fun s now rest hs => ?_⟩
    obtain ⟨next, hnext⟩ := hs.write?_eq now m rest
    exact ⟨next, by rw [hnext, if_pos hfit]⟩
  · refine .inr ⟨hv, hlarge, fun s now rest hs => ?_⟩
    obtain ⟨next, hnext⟩ := hs.write?_eq now m rest
    exact ⟨next, by rw [hnext, if_neg (Nat.not_le.mpr hlarge)]⟩

/-- A want that is announced to one connected peer gets into its outbox. -/
theorem exists_posted_wantBlock (hp : x.peers.outbox? p = some 0) (now : Duration) (w : Want) :
    ∃ moves c z, Broadcast.Tells 0 (x.wantBlock now w [p]).2.2 (x.wantBlock now w [p]).1 moves c z ∧
      c.isDone = true ∧ (∀ m ∈ moves, Linked p 0 m.before m.boxes) ∧
      postedTo 0 moves = [{ wantlist := some { entries := [.want w .block true] }
                            traceId := (x.wantBlock now w [p]).1.newTraceId.2 }] := by
  have hpeer : (x.wantBlock now w [p]).1.peers.outbox? p = some 0 := hp
  obtain ⟨moves, c, ht, hdone, hlinked, hposted⟩ :=
    Broadcast.exists_tells (b := (x.wantBlock now w [p]).2.2) 0 rfl rfl hpeer
  exact ⟨moves, c, _, ht, hdone, hlinked, hposted⟩

/-- A want under a short token is announced to one peer. -/
theorem wantlist_frames_short_token :
    let w : Want := ⟨.raw [104, 101, 108, 108, 111], some ⟨[9]⟩⟩
    let p : PeerId := ⟨⟨Multihash.identity, [1, 2], by decide⟩, .inr ⟨rfl, by decide⟩⟩
    let x : Exchange MemoryStore := (Exchange.new {} {} .allowAll .disabled).connect p 0
    let y := (x.wantBlock ⟨0⟩ w [p]).1
    let b := (x.wantBlock ⟨0⟩ w [p]).2.2
    Run x [] ∧ Announces x y b ∧ ∃ moves c z m, Broadcast.Tells 0 b y moves c z ∧
      m ∈ postedTo 0 moves ∧ m.encodedLength ≤ maxFrameSize ∧
      ∀ (s : DriveState MemoryStore) (now : Timestamp) (rest : List Message), s.Ready →
        ∃ next, s.write? now m rest = some (next, none) := by
  intro w p x y b
  have hx : Run x [] := (Run.start {} {} .allowAll .disabled).step (.connect p 0)
  have hp : x.peers.outbox? p = some 0 := by decide
  have ha : Announces x y b := .wantBlock ⟨0⟩ w [p]
  obtain ⟨moves, c, z, ht, -, -, hposted⟩ := exists_posted_wantBlock hp ⟨0⟩ w
  have hm := hposted ▸ List.mem_singleton_self _
  refine ⟨hx, ha, moves, c, z, _, ht, hm, ?_⟩
  rcases wantlist_frames hx ha ht hm with hfit | ⟨⟨v, he, -, -, hlong⟩, -, -⟩
  · exact hfit
  · have hauth : w.authBytes = v.authBytes := congrArg Entry.auth (List.cons.inj he).1
    rw [← hauth] at hlong
    exact absurd hlong (by decide)

/-- A want under a token that is a little shorter than a frame is announced to one peer: its
message is longer than a frame by one byte, and the driver of the connection stops when it takes it
up. -/
theorem wantBlock_exceeds_frame :
    let w : Want := ⟨.raw [104, 101, 108, 108, 111], some ⟨List.replicate 8388552 0⟩⟩
    let p : PeerId := ⟨⟨Multihash.identity, [1, 2], by decide⟩, .inr ⟨rfl, by decide⟩⟩
    let x : Exchange MemoryStore := (Exchange.new {} {} .allowAll .disabled).connect p 0
    let m : Message := { wantlist := some { entries := [.want w .block true] } }
    let s : DriveState MemoryStore :=
      { driver := { connection := { peer := p }, outbox := 0 }
        exchange := x
        queue := { capacity := Driver.outboxCapacity }
        io := .ofCapacity maxFrameSize }
    Run x [] ∧ s.Ready ∧ (∃ moves c z,
      Broadcast.Tells 0 (x.wantBlock ⟨0⟩ w [p]).2.2 (x.wantBlock ⟨0⟩ w [p]).1 moves c z ∧
      c.isDone = true ∧ (∀ m ∈ moves, Linked p 0 m.before m.boxes) ∧ postedTo 0 moves = [m]) ∧
      m.encodedLength = maxFrameSize + 1 ∧ ∀ now, ∃ next, s.write? now m [] =
        some (next, some (.error (.codec (.tooLarge (maxFrameSize + 1) maxFrameSize)))) := by
  intro w p x m s
  have hx : Run x [] := (Run.start {} {} .allowAll .disabled).step (.connect p 0)
  have hp : x.peers.outbox? p = some 0 := by decide
  have hs : s.Ready := ⟨rfl, rfl, by decide⟩
  have hauth : w.authBytes.length = 8388552 := List.length_replicate
  have hcid : w.cid.toBytes.length = 36 := by decide +kernel
  have hlarge : m.encodedLength = maxFrameSize + 1 := by
    rw [Message.encodedLength_of_long hcid (by omega) (hauth ▸ by decide), hauth]
    rfl
  refine ⟨hx, hs, exists_posted_wantBlock hp ⟨0⟩ w, hlarge, fun now => ?_⟩
  obtain ⟨next, hnext⟩ := hs.write?_eq now m []
  rw [hlarge, if_neg (by omega)] at hnext
  exact ⟨next, hnext⟩

end Exchange
end BlockExchange
