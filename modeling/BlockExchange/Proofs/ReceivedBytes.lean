import BlockExchange.Proofs.DriveSteps
import BlockExchange.Proofs.InboundCost

/-!
# The count of received bytes

A connection counts of a message not the bytes it came in but those of its own encoding
(`Connection.journal_of_receive`). `Connection.Listens` lists what can happen to a connection that is
listened to. In whatever order it happens, the messages heard are what the bodies read decode to
(`Listens.hears`), and the count has grown by their own lengths (`Listens.receivedBytes_eq`).

The two lengths differ where the peer spells a message in another way. Fields that nobody knows, fields
given twice and spare bytes of numbers are not counted; a negative number counts with the ten bytes of
its 64-bit form even if it came in five. That is the only way up, so the count is not more than twice
the bytes that came (`Message.encodedLength_le_two_mul`).
-/

namespace BlockExchange

open Protobuf

/-! ### Lengths of numbers -/

namespace Varint

theorem length_add_le (m n : Nat) : length (m + n) ≤ length m + length n := by
  have hgroup : ∀ k, length (128 * k) ≤ length k + 1 := fun k => by
    simpa using length_group_le (x := 0) (by decide) k
  rcases Nat.le_total m n with h | h
  · have hmono := length_mono (show m + n ≤ 128 * n by omega)
    have := hgroup n
    have := length_pos m
    omega
  · have hmono := length_mono (show m + n ≤ 128 * m by omega)
    have := hgroup m
    have := length_pos n
    omega

end Varint

namespace Protobuf

theorem signed_ofSigned {n : Nat} (h : n < 0x80000000) : signed (ofSigned n) = n := by
  have hsize : Int32.size = 0x100000000 := rfl
  unfold signed ofSigned
  rw [Int32.toInt_ofInt, Int.bmod_eq_of_le (by omega) (by omega)]
  omega

/-- A number that is negative in 32 bits is spelled with five bytes at least and ten at most. -/
theorem length_signed_le (n : Nat) : Varint.length (signed (ofSigned n)) ≤ 2 * Varint.length n := by
  by_cases h : n < 0x80000000
  · rw [signed_ofSigned h]
    omega
  · have hmost := Varint.length_le_maxLength (signed_lt (ofSigned n))
    have hleast : Varint.length 0x80000000 ≤ Varint.length n :=
      Varint.length_mono (Nat.le_of_not_lt h)
    have hfive : Varint.length 0x80000000 = 5 := by simp [Varint.length]
    unfold Varint.maxLength at hmost
    omega

end Protobuf

/-! ### The length of a message against the bytes it came in -/

/-- A nested record takes no more than twice the bytes it came in, if its content does not. -/
theorem delimitedLength_le_two_mul {tag len n : Nat} (htag : tag < 16) (h : len ≤ 2 * n) :
    delimitedLength tag len ≤ 2 * (1 + Varint.length n + n) := by
  have hmono := Varint.length_mono h
  have hadd := Varint.length_add_le n n
  rw [← Nat.two_mul] at hadd
  unfold delimitedLength
  rw [length_key htag]
  omega

/-- The same where the content goes on from an earlier one. The byte to spare is what rounding up may
cost. -/
theorem delimitedLength_le_add {tag len len' n : Nat} (htag : tag < 16)
    (h : len' ≤ len + 2 * n + 1) :
    delimitedLength tag len' ≤ delimitedLength tag len + 2 * (1 + Varint.length n + n) := by
  have hlen : Varint.length len' ≤ Varint.length len + 2 * Varint.length n + 1 := by
    have hmono := Varint.length_mono (show len' ≤ len + (n + n) + 1 by omega)
    have hone := Varint.length_add_le (len + (n + n)) 1
    have hsum := Varint.length_add_le len (n + n)
    have htwice := Varint.length_add_le n n
    rw [Varint.length_of_lt (show 1 < 128 by decide)] at hone
    omega
  unfold delimitedLength
  rw [length_key htag]
  omega

namespace Protobuf.Reader
variable {c c' : Cursor} {w : WireType} {tag : Nat}

theorem length_of_bytes (htag : tag < 16) {b : Bytes} (h : bytes w c = .ok (b, c')) :
    bytesLength tag b.length + 2 * c'.size ≤ 2 * (c.size + 1) := by
  have hsize := size_bytes h
  have hlen := bytesLength_le htag b.length
  omega

theorem length_of_text (htag : tag < 16) {s : String} (h : text w c = .ok (s, c')) :
    bytesLength tag s.utf8ByteSize + 2 * c'.size ≤ 2 * (c.size + 1) := by
  have hsize := size_text h
  have hlen := bytesLength_le htag s.utf8ByteSize
  omega

theorem length_of_flag (htag : tag < 16) {b : Bool} (h : flag w c = .ok (b, c')) :
    flagLength tag b + 2 * c'.size ≤ 2 * (c.size + 1) := by
  have hsize := size_flag h
  have hlen := flagLength_le htag b
  omega

/-- The only field that may take more bytes than it came in, and not more than twice as many. -/
theorem length_of_signed (htag : tag < 16) {x : Int32} (h : signed w c = .ok (x, c')) :
    numberLength tag (Protobuf.signed x) + 2 * c'.size ≤ 2 * (c.size + 1) := by
  obtain ⟨-, n, hn, rfl⟩ := signed_eq_ok_iff.mp h
  have hsize := Cursor.size_of_read? hn
  have hlen := length_signed_le n
  unfold numberLength
  rw [length_key htag]
  split <;> omega

end Protobuf.Reader

/-- Half a length, rounded up. -/
def halfLength (len : Nat) : Nat :=
  (len + 1) / 2

theorem halfLength_add_size_le {c c' : Cursor} {len len' field : Nat}
    (hfield : field + 2 * c'.size ≤ 2 * (c.size + 1)) (h : len' ≤ len + field) :
    halfLength len' + c'.size ≤ halfLength len + c.size + 1 := by
  unfold halfLength
  omega

namespace Protobuf.Schema
variable {α : Type} {S : Schema α} {len : α → Nat} {depth tag : Nat} {w : WireType} {a a' : α}
  {c c' : Cursor}

/-- A nested record, as a field of the record around it. -/
theorem Pays.length_of_message (hS : S.Pays fun a => halfLength (len a)) (htag : tag < 16)
    (ha : len a = 0) (h : S.readMessage depth w a c = .ok (a', c')) :
    delimitedLength tag (len a') + 2 * c'.size ≤ 2 * (c.size + 1) := by
  obtain ⟨n, hn, hsize⟩ := hS.readMessage h
  have htwice : len a' ≤ 2 * n := by
    unfold halfLength at hn
    omega
  have hlen := delimitedLength_le_two_mul htag htwice
  omega

end Protobuf.Schema

theorem Entry.pays_halfLength : Entry.schema.Pays fun e => halfLength e.encodedLength := by
  intro tag field read hf depth w e e' c c' h
  unfold schema at hf
  simp only at hf
  split at hf <;> cases hf <;> obtain ⟨x, hx, rfl⟩ := Reader.bind_pure_eq_ok_iff.mp h
  · refine halfLength_add_size_le (Reader.length_of_bytes (show 1 < 16 by decide) hx) ?_
    simp only [encodedLength]
    omega
  · refine halfLength_add_size_le (Reader.length_of_signed (show 2 < 16 by decide) hx) ?_
    simp only [encodedLength]
    omega
  · refine halfLength_add_size_le (Reader.length_of_flag (show 3 < 16 by decide) hx) ?_
    simp only [encodedLength]
    omega
  · refine halfLength_add_size_le (Reader.length_of_signed (show 4 < 16 by decide) hx) ?_
    simp only [encodedLength]
    omega
  · refine halfLength_add_size_le (Reader.length_of_flag (show 5 < 16 by decide) hx) ?_
    simp only [encodedLength]
    omega
  · refine halfLength_add_size_le (Reader.length_of_bytes (show 6 < 16 by decide) hx) ?_
    simp only [encodedLength]
    omega

theorem Wantlist.pays_halfLength : Wantlist.schema.Pays fun l => halfLength l.encodedLength := by
  intro tag field read hf depth w l l' c c' h
  unfold schema at hf
  simp only at hf
  split at hf <;> cases hf <;> obtain ⟨x, hx, rfl⟩ := Reader.bind_pure_eq_ok_iff.mp h
  · refine halfLength_add_size_le
      (Entry.pays_halfLength.length_of_message (show Entry.tag < 16 by decide) rfl hx) ?_
    simp only [encodedLength, total_append, total_cons, total_nil, Entry.fieldLength]
    omega
  · refine halfLength_add_size_le (Reader.length_of_flag (show 2 < 16 by decide) hx) ?_
    simp only [encodedLength]
    omega

theorem BlockRecord.pays_halfLength :
    BlockRecord.schema.Pays fun b => halfLength b.encodedLength := by
  intro tag field read hf depth w b b' c c' h
  unfold schema at hf
  simp only at hf
  split at hf <;> cases hf <;> obtain ⟨x, hx, rfl⟩ := Reader.bind_pure_eq_ok_iff.mp h
  · refine halfLength_add_size_le (Reader.length_of_bytes (show 1 < 16 by decide) hx) ?_
    simp only [encodedLength]
    omega
  · refine halfLength_add_size_le (Reader.length_of_bytes (show 2 < 16 by decide) hx) ?_
    simp only [encodedLength]
    omega
  · refine halfLength_add_size_le (Reader.length_of_bytes (show 3 < 16 by decide) hx) ?_
    simp only [encodedLength]
    omega

theorem Presence.pays_halfLength : Presence.schema.Pays fun p => halfLength p.encodedLength := by
  intro tag field read hf depth w p p' c c' h
  unfold schema at hf
  simp only at hf
  split at hf <;> cases hf <;> obtain ⟨x, hx, rfl⟩ := Reader.bind_pure_eq_ok_iff.mp h
  · refine halfLength_add_size_le (Reader.length_of_bytes (show 1 < 16 by decide) hx) ?_
    simp only [encodedLength]
    omega
  · refine halfLength_add_size_le (Reader.length_of_signed (show 2 < 16 by decide) hx) ?_
    simp only [encodedLength]
    omega
  · refine halfLength_add_size_le (Reader.length_of_bytes (show 3 < 16 by decide) hx) ?_
    simp only [encodedLength]
    omega

theorem Message.pays_halfLength : Message.schema.Pays fun m => halfLength m.encodedLength := by
  intro tag field read hf depth w m m' c c' h
  unfold schema at hf
  simp only at hf
  split at hf <;> cases hf <;> obtain ⟨x, hx, rfl⟩ := Reader.bind_pure_eq_ok_iff.mp h
  · obtain ⟨n, hn, hsize⟩ := Wantlist.pays_halfLength.readMessage hx
    have hfield : 2 * (1 + Varint.length n + n) + 2 * c'.size ≤ 2 * (c.size + 1) := by omega
    refine halfLength_add_size_le hfield ?_
    -- a wantlist that is given again goes on from the earlier one
    unfold halfLength at hn
    cases hw : m.wantlist with
    | none =>
      rw [hw] at hn
      have hempty : (none.getD {} : Wantlist).encodedLength = 0 := rfl
      have hlist := delimitedLength_le_two_mul (show Wantlist.tag < 16 by decide)
        (show x.encodedLength ≤ 2 * n by omega)
      simp only [encodedLength, hw, Wantlist.fieldLength]
      omega
    | some l =>
      rw [hw, Option.getD_some] at hn
      have hlist := delimitedLength_le_add (show Wantlist.tag < 16 by decide)
        (show x.encodedLength ≤ l.encodedLength + 2 * n + 1 by omega)
      simp only [encodedLength, hw, Wantlist.fieldLength]
      omega
  · refine halfLength_add_size_le
      (BlockRecord.pays_halfLength.length_of_message (show BlockRecord.tag < 16 by decide) rfl hx) ?_
    simp only [encodedLength, total_append, total_cons, total_nil, BlockRecord.fieldLength]
    omega
  · refine halfLength_add_size_le
      (Presence.pays_halfLength.length_of_message (show Presence.tag < 16 by decide) rfl hx) ?_
    simp only [encodedLength, total_append, total_cons, total_nil, Presence.fieldLength]
    omega
  · refine halfLength_add_size_le (Reader.length_of_signed (show 5 < 16 by decide) hx) ?_
    simp only [encodedLength]
    omega
  · refine halfLength_add_size_le (Reader.length_of_text (show traceIdTag < 16 by decide) hx) ?_
    simp only [encodedLength, baseLength]
    omega

/-- However a message is spelled, its own encoding is not longer than twice the spelling. -/
theorem Message.encodedLength_le_two_mul {b : Bytes} {m : Message} (h : decode b = .ok m) :
    m.encodedLength ≤ 2 * b.length := by
  have hempty : halfLength (encodedLength {}) = 0 := rfl
  have hpay := Message.pays_halfLength.decode h
  simp only [hempty] at hpay
  unfold halfLength at hpay
  omega

/-! ### Listening to a connection -/

theorem FrameCodec.told_eq_message_iff {body : Bytes} {m : Message} :
    told body = .message m ↔ Message.decode body = .ok m := by
  unfold told reading
  cases Message.decode body with
  | ok m' => exact ⟨fun h => congrArg Except.ok (Inbound.message.inj h),
      fun h => congrArg Inbound.message (Except.ok.inj h)⟩
  | error e => exact ⟨nofun, nofun⟩

/-- What is counted of messages that came in bytes: each with the length of its own encoding. -/
theorem Message.total_encodedLength_of_decoded {read : List Bytes} {heard : List Message}
    (h : List.Forall₂ (fun body m => Message.decode body = .ok m) read heard)
    (hfit : ∀ b ∈ read, b.length ≤ maxFrameSize) :
    total Message.encodedLength heard ≤ 2 * total List.length read ∧
    ((∀ body ∈ read, ∃ m : Message, m.encode = body) →
      total Message.encodedLength heard = total List.length read) := by
  induction h with
  | nil => exact ⟨Nat.le_refl 0, fun _ => rfl⟩
  | @cons body m read heard hm _ ih =>
    obtain ⟨hle, hexact⟩ := ih fun b hb => hfit b (List.mem_cons_of_mem _ hb)
    have hbody := m.encodedLength_le_two_mul hm
    simp only [total_cons]
    refine ⟨by omega, fun hown => ?_⟩
    obtain ⟨m', rfl⟩ := hown body List.mem_cons_self
    have hlt : m'.encodedLength < UInt64.size := by
      rw [← m'.length_encode]
      exact Nat.lt_of_le_of_lt (hfit _ List.mem_cons_self) (by decide)
    obtain rfl : m' = m := Except.ok.inj ((m'.decode_encode hlt).symm.trans hm)
    rw [m'.length_encode, hexact fun b hb => hown b (List.mem_cons_of_mem _ hb)]

/-- What has gone on at the inbound side of a connection. -/
structure Listening where
  /-- What came into its pipe. -/
  fed : Bytes := []
  heard : List Message := []
  /-- By how much other connections have raised the count of received bytes. -/
  elsewhere : Nat := 0

namespace Connection

/-- A connection that is listened to. Meanwhile its peer sends, messages are written to it, and other
connections use the journal. -/
inductive Listens (j₀ : Journal) : Listening → Connection → Duplex → Journal → Prop
  | start (peer : PeerId) (io : Duplex) :
    Listens j₀ { fed := io.inbound.content } { peer } io j₀
  | others {l : Listening} {c : Connection} {io : Duplex} {j j' : Journal} {bytes : Bytes} {n : Nat}
      {writer : FrameWriter} {inbound outbound : Pipe} (h : Listens j₀ l c io j)
      (hinbound : inbound.content = io.inbound.content ++ bytes)
      (hjournal : j'.counters.receivedBytes = j.counters.receivedBytes + n) :
    Listens j₀ { l with fed := l.fed ++ bytes, elsewhere := l.elsewhere + n } { c with writer }
      ⟨inbound, outbound⟩ j'
  | quiet {l : Listening} {c c' : Connection} {io io' : Duplex} {j j' : Journal} {now : Timestamp}
      (h : Listens j₀ l c io j) (hreceive : c.receive io j now = (c', io', j', .pending)) :
    Listens j₀ l c' io' j'
  | heard {l : Listening} {c c' : Connection} {io io' : Duplex} {j j' : Journal} {m : Message}
      {now : Timestamp} (h : Listens j₀ l c io j)
      (hreceive : c.receive io j now = (c', io', j', .message m)) :
    Listens j₀ { l with heard := l.heard ++ [m] } c' io' j'
  | kept {l : Listening} {c : Connection} {io : Duplex} {j : Journal} (h : Listens j₀ l c io j) :
    Listens j₀ l c.keep io j

/-- Where a connection is in what its peer sends: these bodies were read and heard, and those are
still to be read. -/
structure Hears (tail unread : Bytes) (l : Listening) (c : Connection) (io : Duplex)
    (read later : List Bytes) : Prop where
  decoded : List.Forall₂ (fun body m => Message.decode body = .ok m) read l.heard
  follows : c.reader.Follows maxFrameSize tail unread io.inbound later

variable {j₀ j : Journal} {l : Listening} {c : Connection} {io : Duplex} {tail unread : Bytes}
  {bodies : List Bytes}

theorem Listens.receivedBytes_eq (h : Listens j₀ l c io j) : j.counters.receivedBytes =
    j₀.counters.receivedBytes + l.elsewhere + total Message.encodedLength l.heard := by
  induction h with
  | start => rfl
  | others _ _ hjournal ih =>
    rw [hjournal, ih]
    dsimp only
    omega
  | quiet _ hreceive ih => rwa [journal_of_not_received hreceive nofun]
  | @heard l c _ _ _ j _ m _ _ hreceive ih =>
    rw [journal_of_receive hreceive, total_append, total_cons, total_nil]
    show j.counters.receivedBytes + m.encodedLength = _ + l.elsewhere + _
    omega
  | kept _ ih => exact ih

theorem Listens.hears (h : Listens j₀ l c io j)
    (hfit : ∀ b ∈ bodies, b.length ≤ min maxFrameSize FrameCodec.maxHeader)
    (htail : tail = [] ∨ FrameCodec.Oversized maxFrameSize tail)
    (hfed : l.fed ++ unread = bodies.flatMap FrameCodec.frame ++ tail) :
    ∃ read later, bodies = read ++ later ∧ Hears tail unread l c io read later := by
  induction h generalizing unread with
  | start => exact ⟨[], bodies, rfl, .nil,
      .between hfed, fun _ => (by decide : 0 < FrameCodec.headerSize), rfl, rfl⟩
  | others _ hinbound _ ih =>
    rw [List.append_assoc] at hfed
    obtain ⟨read, later, rfl, hdecoded, hfollows⟩ := ih hfed
    exact ⟨read, later, rfl, hdecoded, hfollows.feed hinbound⟩
  | quiet _ hreceive ih =>
    obtain ⟨read, later, rfl, hdecoded, hfollows⟩ := ih hfed
    obtain ⟨reader, inbound, hnext, rfl, rfl⟩ := next_of_receive hreceive
    have hlater := fun b hb => hfit b (List.mem_append_right read hb)
    exact ⟨read, later, rfl, hdecoded, hfollows.pending hlater htail hnext⟩
  | heard _ hreceive ih =>
    obtain ⟨read, later, rfl, hdecoded, hfollows⟩ := ih hfed
    obtain ⟨reader, inbound, hnext, rfl, rfl⟩ := next_of_receive hreceive
    have hlater := fun b hb => hfit b (List.mem_append_right read hb)
    obtain ⟨body, rest, rfl, htold, hrest⟩ := hfollows.message hlater htail hnext
    have hbody := FrameCodec.told_eq_message_iff.mp htold
    exact ⟨read ++ [body], rest, by simp, List.rel_append hdecoded (.cons hbody .nil), hrest⟩
  | kept _ ih =>
    obtain ⟨read, later, rfl, hdecoded, hfollows⟩ := ih hfed
    exact ⟨read, later, rfl, hdecoded, hfollows.withBuffer rfl⟩

/-- A connection that has all of the next body tells the message that it is. -/
theorem Hears.receive_eq {read later : List Bytes} {body : Bytes} {m : Message}
    (h : Hears tail [] l c io read (body :: later))
    (hfit : ∀ b ∈ body :: later, b.length ≤ min maxFrameSize FrameCodec.maxHeader)
    (htail : tail = [] ∨ FrameCodec.Oversized maxFrameSize tail) (hm : Message.decode body = .ok m)
    (j : Journal) (now : Timestamp) :
    ∃ c' io', c.receive io j now = (c', io', j.received c.peer m now, .message m) := by
  obtain ⟨reader, inbound, hnext⟩ := h.follows.read_of_complete hfit htail
  rw [← h.follows.next_eq, FrameCodec.told_eq_message_iff.mpr hm] at hnext
  exact ⟨_, _, receive_of_next hnext j now⟩

/-- Whatever a peer sends and however it is listened to, the messages heard are what the bodies read
decode to, and the count of received bytes has grown by the lengths of the messages' own encodings.
That is the number of bytes in the bodies if each of them is the encoding of a message, and never more
than twice that number. When a whole body has come that decodes, the next call reads it and counts its
message in the same way. -/
theorem received_bytes_of_listens (h : Listens j₀ l c io j)
    (hfit : ∀ b ∈ bodies, b.length ≤ maxFrameSize)
    (htail : tail = [] ∨ FrameCodec.Oversized maxFrameSize tail)
    (hfed : l.fed ++ unread = bodies.flatMap FrameCodec.frame ++ tail) :
    ∃ read later, bodies = read ++ later ∧
      List.Forall₂ (fun body m => Message.decode body = .ok m) read l.heard ∧
      j.counters.receivedBytes =
        j₀.counters.receivedBytes + l.elsewhere + total Message.encodedLength l.heard ∧
      ((∀ body ∈ read, ∃ m : Message, m.encode = body) →
        total Message.encodedLength l.heard = total List.length read) ∧
      total Message.encodedLength l.heard ≤ 2 * total List.length read ∧
      (unread = [] → ∀ body rest m, later = body :: rest → Message.decode body = .ok m →
        ∀ now, ∃ c' io', c.receive io j now = (c', io', j.received c.peer m now, .message m)) := by
  have hheader : maxFrameSize ≤ FrameCodec.maxHeader := by decide
  have hfit' : ∀ b ∈ bodies, b.length ≤ min maxFrameSize FrameCodec.maxHeader := fun b hb =>
    Nat.le_min.mpr ⟨hfit b hb, Nat.le_trans (hfit b hb) hheader⟩
  obtain ⟨read, later, rfl, hhears⟩ := h.hears hfit' htail hfed
  obtain ⟨hle, hexact⟩ := Message.total_encodedLength_of_decoded hhears.decoded
    fun b hb => hfit b (List.mem_append_left later hb)
  refine ⟨read, later, rfl, hhears.decoded, h.receivedBytes_eq, hexact, hle, ?_⟩
  rintro rfl body rest m rfl hm now
  exact hhears.receive_eq (fun b hb => hfit' b (List.mem_append_right read hb)) htail hm j now

/-- A new connection hears the message whose frame is in its pipe. -/
theorem listens_of_frame {body : Bytes} {m : Message} (hm : Message.decode body = .ok m)
    (hfit : body.length ≤ maxFrameSize) (peer : PeerId) (j : Journal) (now : Timestamp) :
    ∃ c io, Listens j { fed := FrameCodec.frame body, heard := [m] } c io
      (j.received peer m now) := by
  obtain ⟨c', io', hreceive⟩ := receive_of_body (FrameCodec.told_eq_message_iff.mpr hm) hfit peer 64
    { capacity := 64 } j now
  exact ⟨c', io', (Listens.start peer _).heard hreceive⟩

/-- The two bytes of a message that its own encoder wrote count as two. -/
theorem received_bytes_of_listens_encoded :
    let peer : PeerId := ⟨⟨Multihash.identity, [1, 2], by decide⟩, .inr ⟨rfl, by decide⟩⟩
    let m : Message := { pendingBytes := 1 }
    let l : Listening := { fed := FrameCodec.frame [0x28, 1], heard := [m] }
    let j : Journal := Journal.received {} peer m ⟨0⟩
    (∃ c io, Listens {} l c io j) ∧ (∀ b ∈ ([[0x28, 1]] : List Bytes), b.length ≤ maxFrameSize) ∧
    l.fed ++ [] = ([[0x28, 1]] : List Bytes).flatMap FrameCodec.frame ++ [] ∧
    ∃ read later, ([[0x28, 1]] : List Bytes) = read ++ later ∧
      List.Forall₂ (fun body m => Message.decode body = .ok m) read l.heard ∧
      j.counters.receivedBytes = total List.length read := by
  intro peer m l j
  have hm : Message.decode [0x28, 1] = .ok m := by decide +kernel
  have hfit : ∀ b ∈ ([[0x28, 1]] : List Bytes), b.length ≤ maxFrameSize := by decide +kernel
  have hfed : l.fed ++ [] = ([[0x28, 1]] : List Bytes).flatMap FrameCodec.frame ++ [] := by
    decide +kernel
  obtain ⟨c, io, hlistens⟩ := listens_of_frame hm (by decide +kernel) peer {} ⟨0⟩
  obtain ⟨read, later, hbodies, hdecoded, hcount, hexact, -⟩ :=
    received_bytes_of_listens hlistens hfit (.inl rfl) hfed
  refine ⟨⟨c, io, hlistens⟩, hfit, hfed, read, later, hbodies, hdecoded, ?_⟩
  have hown : ∀ body ∈ read, ∃ m : Message, m.encode = body := fun body hbody => by
    have hmem : body ∈ ([[0x28, 1]] : List Bytes) := hbodies ▸ List.mem_append_left later hbody
    exact ⟨m, by rw [List.mem_singleton.mp hmem]; decide +kernel⟩
  rw [hcount, hexact hown]
  exact Nat.zero_add _

/-- A connection that is sent a frame with this body hears this message and counts so many bytes. -/
def CountsAs (body : Bytes) (m : Message) (n : Nat) : Prop :=
  Message.decode body = .ok m ∧ ∃ c io j,
    Listens {} { fed := FrameCodec.frame body, heard := [m] } c io j ∧ j.counters.receivedBytes = n

theorem countsAs_of_decode {body : Bytes} {m : Message} (hm : Message.decode body = .ok m)
    (hfit : body.length ≤ maxFrameSize) : CountsAs body m m.encodedLength := by
  let peer : PeerId := ⟨⟨Multihash.identity, [1, 2], by decide⟩, .inr ⟨rfl, by decide⟩⟩
  obtain ⟨c, io, hlistens⟩ := listens_of_frame hm hfit peer {} ⟨0⟩
  exact ⟨hm, c, io, _, hlistens, Nat.zero_add _⟩

/-- Three bodies that are not counted with their lengths: a number with a byte to spare, a field that
nobody knows, and a negative number in five bytes. -/
theorem received_bytes_differ :
    let spare : Bytes := [0x28, 0x81, 0]
    let unknown : Bytes := [0x78, 0x0a]
    let negative : Bytes := [0x28, 0xff, 0xff, 0xff, 0xff, 0x0f]
    (spare.length = 3 ∧ CountsAs spare { pendingBytes := 1 } 2) ∧
    (unknown.length = 2 ∧ CountsAs unknown {} 0) ∧
    (negative.length = 6 ∧ CountsAs negative { pendingBytes := -1 } 11) := by
  intro spare unknown negative
  have hspare : Message.decode spare = .ok { pendingBytes := 1 } := by decide +kernel
  have hunknown : Message.decode unknown = .ok {} := by decide +kernel
  have hnegative : Message.decode negative = .ok { pendingBytes := -1 } := by decide +kernel
  have hone : ({ pendingBytes := 1 } : Message).encodedLength = 2 := by decide +kernel
  have hminus : ({ pendingBytes := -1 } : Message).encodedLength = 11 := by decide +kernel
  refine ⟨⟨rfl, hone ▸ countsAs_of_decode hspare ?_⟩, ⟨rfl, countsAs_of_decode hunknown ?_⟩,
    rfl, hminus ▸ countsAs_of_decode hnegative ?_⟩ <;> decide +kernel

end Connection
end BlockExchange
