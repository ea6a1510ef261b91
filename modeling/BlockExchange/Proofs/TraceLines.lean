import BlockExchange.Connection
import BlockExchange.Proofs.FileNames
import BlockExchange.Proofs.TraceFiles
import BlockExchange.Proofs.Truncation

/-!
# The lines of a trace log

A message that crosses a connection leaves nothing in the log if it has no trace id, and else one
piece of text (`Connection.Notes`, `traced_line`). All that the node puts into that text itself is free
of tabs and newlines. The trace id is put in as it is, and it is the sender's: the text is one line of
seven fields (`TraceRecord.IsRecord`) exactly if the trace id has no tab and no newline in it.
-/

namespace BlockExchange

/-! ### Plain texts -/

namespace Text

/-- Nothing in the text ends a field or a line. -/
def Plain (s : String) : Prop :=
  ∀ c ∈ s.toList, c ≠ '\t' ∧ c ≠ '\n'

instance (s : String) : Decidable (Plain s) :=
  decidable_of_iff ((s.toList.all fun c => c != '\t' && c != '\n') = true) (by simp [Plain])

variable {s t : String}

theorem plain_append : Plain (s ++ t) ↔ Plain s ∧ Plain t := by
  unfold Plain
  rw [String.toList_append]
  exact List.forall_mem_append

theorem Plain.append (hs : Plain s) (ht : Plain t) : Plain (s ++ t) :=
  plain_append.mpr ⟨hs, ht⟩

theorem plain_of_isAlphanum (h : ∀ c ∈ s.toList, c.isAlphanum = true) : Plain s := fun c hc =>
  ⟨Directory.ne_of_isAlphanum (h c hc) (by decide), Directory.ne_of_isAlphanum (h c hc) (by decide)⟩

theorem plain_iff_not_mem : Plain s ↔ '\t' ∉ s.toList ∧ '\n' ∉ s.toList := by
  constructor
  · intro h
    exact ⟨fun hc => (h _ hc).1 rfl, fun hc => (h _ hc).2 rfl⟩
  · rintro ⟨htab, hline⟩ c hc
    exact ⟨fun heq => htab (heq ▸ hc), fun heq => hline (heq ▸ hc)⟩

theorem plain_toString (n : Nat) : Plain (toString n) := by
  refine plain_of_isAlphanum fun c hc => ?_
  have hdigits : (toString n).toList = Nat.toDigits 10 n := Nat.toList_repr
  rw [hdigits] at hc
  have hdigit : c.isDigit = true := Nat.isDigit_of_mem_toDigits (by decide) (by decide) hc
  unfold Char.isAlphanum
  rw [hdigit, Bool.or_true]

end Text

open Text

theorem Timestamp.plain_digits (width n : Nat) : Plain (digits width n) := by
  refine Plain.append (plain_of_isAlphanum fun c hc => ?_) (plain_toString n)
  rw [String.toList_ofList] at hc
  rw [List.eq_of_mem_replicate hc]
  decide

theorem Timestamp.plain_calendar (t : Timestamp) : Plain t.calendar := by
  unfold calendar
  simp only [plain_append, plain_digits, true_and, and_true]
  decide

theorem PeerId.plain_text (p : PeerId) : Plain p.text := by
  refine plain_of_isAlphanum fun c hc => ?_
  unfold PeerId.text Base58.encode at hc
  rw [String.toList_ofList] at hc
  rcases List.mem_append.mp hc with hc | hc
  · obtain ⟨x, -, rfl⟩ := List.mem_map.mp hc
    decide
  · exact Base58.isAlphanum_of_mem_digits hc

theorem TraceEvent.plain_name (e : TraceEvent) : Plain e.name := by
  cases e <;> decide

theorem Message.plain_summary (m : Message) : Plain m.summary := by
  unfold summary
  simp only [plain_append, plain_toString, and_true]
  decide

/-! ### The text of a record -/

namespace TraceRecord
variable {r : TraceRecord} {node : String} {now : Timestamp}

/-- What stands behind the trace id, between the tabs and to the end. -/
def fields (r : TraceRecord) (node : String) (now : Timestamp) : List String :=
  [node, r.peer, toString now.nanos, now.calendar, r.event.name, r.details ++ "\n"]

/-- The parts of a record that the node makes are plain. -/
structure Tidy (r : TraceRecord) (node : String) : Prop where
  node : Plain node
  peer : Plain r.peer
  details : Plain r.details

/-- One line that names its record: its only newline is at the end, and there are seven fields with
tabs between, the first of which is the trace id. -/
structure IsRecord (line : List Char) (traceId : String) : Prop where
  newlines : line.count '\n' = 1
  ends : line.getLast? = some '\n'
  fields : ∃ rest, line.splitOn '\t' = traceId.toList :: rest ∧ rest.length = 6

theorem toList_newline : "\n".toList = ['\n'] :=
  String.toList_ofList

theorem map_fields (r : TraceRecord) (node : String) (now : Timestamp) :
    (r.fields node now).map String.toList = [node.toList, r.peer.toList, (toString now.nanos).toList,
      now.calendar.toList, r.event.name.toList, r.details.toList ++ ['\n']] := by
  unfold fields
  simp only [List.map_cons, List.map_nil, String.toList_append, toList_newline]

theorem toList_line (r : TraceRecord) (node : String) (now : Timestamp) : (r.line node now).toList =
    r.traceId.toList ++ '\t' :: ['\t'].intercalate ((r.fields node now).map String.toList) := by
  have htab : "\t".toList = ['\t'] := String.toList_ofList
  have hmove : ∀ a b c d e f g : List Char, ['\t'].intercalate [a, b, c, d, e, f, g] ++ ['\n'] =
      a ++ '\t' :: ['\t'].intercalate [b, c, d, e, f, g ++ ['\n']] := fun a b c d e f g => by
    simp only [List.intercalate_cons_cons, List.intercalate_singleton, List.append_assoc,
      List.cons_append, List.nil_append]
  rw [map_fields, ← hmove]
  unfold line
  rw [String.toList_append, String.toList_intercalate, htab, toList_newline]
  rfl

theorem Tidy.not_mem_tab (h : r.Tidy node) (now : Timestamp) :
    ∀ f ∈ (r.fields node now).map String.toList, '\t' ∉ f := by
  intro f hf
  obtain ⟨s, hs, rfl⟩ := List.mem_map.mp hf
  simp only [fields, List.mem_cons, List.not_mem_nil, or_false] at hs
  rcases hs with rfl | rfl | rfl | rfl | rfl | rfl
  · exact (plain_iff_not_mem.mp h.node).1
  · exact (plain_iff_not_mem.mp h.peer).1
  · exact (plain_iff_not_mem.mp (plain_toString _)).1
  · exact (plain_iff_not_mem.mp now.plain_calendar).1
  · exact (plain_iff_not_mem.mp r.event.plain_name).1
  · rw [String.toList_append, List.mem_append, not_or]
    exact ⟨(plain_iff_not_mem.mp h.details).1, by decide⟩

/-- The tabs in the trace id split it like those between the fields. -/
theorem Tidy.splitOn_line (h : r.Tidy node) (now : Timestamp) :
    (r.line node now).toList.splitOn '\t' =
      r.traceId.toList.splitOn '\t' ++ (r.fields node now).map String.toList := by
  rw [toList_line, List.splitOn_append_cons_self,
    List.splitOn_intercalate '\t' (h.not_mem_tab now) (List.cons_ne_nil _ _)]

theorem Tidy.count_line (h : r.Tidy node) (now : Timestamp) :
    (r.line node now).toList.count '\n' = r.traceId.toList.count '\n' + 1 := by
  have hzero : ∀ {s : String}, Plain s → s.toList.count '\n' = 0 := fun hs =>
    List.count_eq_zero.mpr (plain_iff_not_mem.mp hs).2
  have htab : ['\t'].count '\n' = 0 := by decide
  have hend : "\n".toList.count '\n' = 1 := by decide
  rw [toList_line]
  simp only [fields, List.map_cons, List.map_nil, List.intercalate_cons_cons,
    List.intercalate_singleton, List.count_append, List.count_cons, String.toList_append, hzero h.node,
    hzero h.peer, hzero h.details, hzero (plain_toString _), hzero now.plain_calendar,
    hzero r.event.plain_name, htab, hend]
  rfl

theorem getLast?_line (r : TraceRecord) (node : String) (now : Timestamp) :
    (r.line node now).toList.getLast? = some '\n' := by
  unfold line
  rw [String.toList_append]
  exact List.getLast?_concat

theorem length_splitOn (cs : List Char) (x : Char) : (cs.splitOn x).length = cs.count x + 1 := by
  induction cs with
  | nil => rfl
  | cons c cs ih =>
    rw [List.splitOn_cons_eq_if_modifyHead, List.count_cons]
    split
    · rw [List.length_cons, ih]
    · rw [List.length_modifyHead, ih, Nat.add_zero]

/-- A trace id that begins with a line of the log makes two lines of one message. -/
theorem line_append (r : TraceRecord) (front : String) (node : String) (now : Timestamp) :
    ({ r with traceId := front ++ r.traceId } : TraceRecord).line node now =
      front ++ r.line node now := by
  refine String.toList_inj.mp ?_
  rw [String.toList_append, toList_line, toList_line, String.toList_append, List.append_assoc]
  rfl

/-- Only the trace id can spoil a record. -/
theorem Tidy.isRecord_line_iff (h : r.Tidy node) (now : Timestamp) :
    IsRecord (r.line node now).toList r.traceId ↔ Plain r.traceId := by
  constructor
  · rintro ⟨hnewlines, -, rest, hfields, hrest⟩
    rw [h.count_line] at hnewlines
    have hlen := congrArg List.length hfields
    rw [h.splitOn_line, List.length_append, length_splitOn, List.length_map, List.length_cons,
      hrest] at hlen
    have hsix : (r.fields node now).length = 6 := rfl
    exact plain_iff_not_mem.mpr
      ⟨List.count_eq_zero.mp (by omega), List.count_eq_zero.mp (by omega)⟩
  · intro hid
    obtain ⟨htab, hline⟩ := plain_iff_not_mem.mp hid
    refine ⟨?_, r.getLast?_line node now, (r.fields node now).map String.toList, ?_, rfl⟩
    · rw [h.count_line, List.count_eq_zero.mpr hline]
    · rw [h.splitOn_line, List.splitOn_eq_singleton htab]
      rfl

end TraceRecord

theorem TraceLog.record_of_traceId {node : String} {w : TraceWriter} {r : TraceRecord}
    (h : r.traceId ≠ "") (now : Timestamp) : (TraceLog.enabled node w false).record r now =
      .enabled node (w.write (r.line node now) now) false :=
  if_neg fun hempty => h (String.isEmpty_iff.mp hempty)

/-! ### Noting a message -/

/-- The connection notes in the journal that the message crossed: it has read it, or has written it to
the end. -/
inductive Connection.Notes (c : Connection) (j : Journal) (now : Timestamp) (m : Message)
    (j' : Journal) : Prop
  | received {io io' : Duplex} {c' : Connection}
      (h : c.receive io j now = (c', io', j', .message m)) : Notes c j now m j'
  | finished {io io' : Duplex} {c' : Connection}
      (h : c.finish io j m now = (c', io', j', .done)) : Notes c j now m j'
  | sent {io io' : Duplex} {c' : Connection}
      (h : c.send io j m now = (c', io', j', .done)) : Notes c j now m j'

namespace Connection
variable {c c' : Connection} {io io' : Duplex} {j j' : Journal} {now : Timestamp} {m : Message}

theorem journal_of_receive (h : c.receive io j now = (c', io', j', .message m)) :
    j' = j.received c.peer m now := by
  unfold receive at h
  simp only [Prod.mk.injEq] at h
  obtain ⟨-, -, rfl, hanswer⟩ := h
  rw [hanswer]

theorem journal_of_finish (h : c.finish io j m now = (c', io', j', .done)) :
    j' = j.sent c.peer m now := by
  unfold finish at h
  simp only [Prod.mk.injEq] at h
  obtain ⟨-, -, rfl, hdone⟩ := h
  rw [hdone]

theorem peer_begin (c : Connection) (io : Duplex) (m : Message) :
    (c.begin io m).1.peer = c.peer := by
  unfold begin
  split <;> rfl

theorem journal_of_send (h : c.send io j m now = (c', io', j', .done)) :
    j' = j.sent c.peer m now := by
  unfold send at h
  split at h
  rename_i begun c₁ io₁ r hbegin
  have hpeer : c₁.peer = c.peer := by
    have hfirst := c.peer_begin io m
    split at hbegin
    · rename_i c₂ io₂ hpending
      rw [hpending] at hfirst
      have hsecond := c₂.peer_begin io₂ m
      rw [hbegin] at hsecond
      exact hsecond.trans hfirst
    · rwa [hbegin] at hfirst
  split at h
  · rw [journal_of_finish h, hpeer]
  · rename_i hne
    simp only [Prod.mk.injEq] at h
    exact absurd h.2.2.2 hne

theorem Notes.journal_eq (h : c.Notes j now m j') :
    j' = j.received c.peer m now ∨ j' = j.sent c.peer m now := by
  cases h with
  | received h => exact .inl (journal_of_receive h)
  | finished h => exact .inr (journal_of_finish h)
  | sent h => exact .inr (journal_of_send h)

/-- A message that crosses leaves a record of it in the log, with the peer and the kind of event. -/
theorem Notes.trace_eq (h : c.Notes j now m j') : ∃ event,
    j'.trace = j.trace.record ⟨m.traceId, c.peer.text, event, m.summary⟩ now := by
  rcases h.journal_eq with rfl | rfl
  · exact ⟨.received m, rfl⟩
  · exact ⟨.sent m, rfl⟩

/-- A message with a trace id that crosses a connection adds one piece to the text of the log: the
trace id as it is and six more fields, with a newline of the node's own at the end. That is one line
with the trace id as the first of seven fields if and only if the trace id, which may be anything the
sender chose, is plain. A message without a trace id adds nothing. -/
theorem traced_line {node : String} {w : TraceWriter} (h : c.Notes j now m j')
    (hlog : j.trace = .enabled node w false) (hnode : Plain node) :
    (m.traceId = "" → j'.trace = j.trace) ∧
    (m.traceId ≠ "" → ∃ line fields, j'.trace = .enabled node (w.write line now) false ∧
      (w.InPlace → (w.write line now).InPlace ∧ (w.write line now).text = w.text ++ line.toList) ∧
      line.toList.splitOn '\t' = m.traceId.toList.splitOn '\t' ++ fields ∧ fields.length = 6 ∧
      line.toList.count '\n' = m.traceId.toList.count '\n' + 1 ∧
      line.toList.getLast? = some '\n' ∧
      (TraceRecord.IsRecord line.toList m.traceId ↔ Plain m.traceId)) := by
  obtain ⟨event, htrace⟩ := h.trace_eq
  let r : TraceRecord := ⟨m.traceId, c.peer.text, event, m.summary⟩
  have htidy : r.Tidy node := ⟨hnode, c.peer.plain_text, m.plain_summary⟩
  rw [htrace, hlog]
  constructor
  · intro hid
    rw [hid]
    rfl
  · intro hid
    exact ⟨r.line node now, (r.fields node now).map String.toList,
      TraceLog.record_of_traceId hid now, fun hplace => hplace.write _ now, htidy.splitOn_line now,
      rfl, htidy.count_line now, r.getLast?_line node now, htidy.isRecord_line_iff now⟩

theorem trace_received {node : String} {w : TraceWriter} (h : m.traceId ≠ "") (peer : PeerId)
    (now : Timestamp) : (Journal.received { trace := .enabled node w false } peer m now).trace =
      .enabled node (w.write
        ((⟨m.traceId, peer.text, .received m, m.summary⟩ : TraceRecord).line node now) now) false :=
  TraceLog.record_of_traceId h now

theorem receive_of_next {reader : FrameReader} {inbound : Pipe}
    (h : c.reader.next io.inbound = (reader, inbound, .message m)) (j : Journal) (now : Timestamp) :
    c.receive io j now =
      ({ c with reader }, { io with inbound }, j.received c.peer m now, .message m) := by
  unfold receive
  rw [h]

/-- A new connection reads the message that the body of the frame in its pipe is. -/
theorem receive_of_body {body : Bytes} (hbody : FrameCodec.told body = .message m)
    (h : body.length ≤ maxFrameSize) (peer : PeerId) (capacity : Nat) (outbound : Pipe) (j : Journal)
    (now : Timestamp) :
    ∃ c' io', ({ peer } : Connection).receive
      ⟨{ capacity, content := FrameCodec.frame body }, outbound⟩ j now =
        (c', io', j.received peer m now, .message m) := by
  have hfit : body.length ≤ min maxFrameSize FrameCodec.maxHeader :=
    Nat.le_min.mpr ⟨h, Nat.le_trans h (by decide)⟩
  obtain ⟨r, rest, hnext⟩ := FrameReader.next_of_frame hfit capacity
  rw [hbody] at hnext
  exact ⟨_, _, receive_of_next hnext j now⟩

/-- A new connection reads a message whose frame is in the pipe. -/
theorem receive_of_frame (h : m.encode.length ≤ maxFrameSize) (peer : PeerId) (capacity : Nat)
    (outbound : Pipe) (j : Journal) (now : Timestamp) :
    ∃ c' io', ({ peer } : Connection).receive
      ⟨{ capacity, content := FrameCodec.frame m.encode }, outbound⟩ j now =
        (c', io', j.received peer m now, .message m) :=
  receive_of_body (FrameCodec.told_of_ok (FrameCodec.reading_encode (Nat.le_trans h (by decide)))) h
    peer capacity outbound j now

/-- A message with the trace id `a` is read by a node whose log has just been opened. -/
theorem traced_line_plain :
    let peer : PeerId := ⟨⟨Multihash.identity, [1, 2], by decide⟩, .inr ⟨rfl, by decide⟩⟩
    let m : Message := { traceId := "a" }
    let now : Timestamp := ⟨1700000000123456789⟩
    let io : Duplex := ⟨{ capacity := 64, content := FrameCodec.frame m.encode }, { capacity := 64 }⟩
    ∃ w c' io' j', TraceLog.open { enabled := true } "node" none false now =
        .ok (.enabled "node" w false) ∧
      ({ peer } : Connection).receive io { trace := .enabled "node" w false } now =
        (c', io', j', .message m) ∧
      Plain "node" ∧ w.InPlace ∧ ∃ line fields, j'.trace = .enabled "node" (w.write line now) false ∧
        (w.write line now).text = w.text ++ line.toList ∧
        line.toList.splitOn '\t' = ['a'] :: fields ∧ fields.length = 6 ∧
        line.toList.count '\n' = 1 ∧ line.toList.getLast? = some '\n' := by
  intro peer m now io
  have hfit : m.encode.length ≤ maxFrameSize := by decide +kernel
  obtain ⟨w, hopen⟩ : ∃ w, TraceLog.open { enabled := true } "node" none false now =
    .ok (.enabled "node" w false) := ⟨_, rfl⟩
  obtain ⟨c', io', hreceive⟩ := receive_of_frame hfit peer 64 { capacity := 64 }
    { trace := .enabled "node" w false } now
  have hplace := (TraceLog.inPlace_of_open hopen).2.2.1
  have hnode : Plain "node" := by decide
  have hid : m.traceId ≠ "" := by decide
  have hchars : m.traceId.toList = ['a'] := String.toList_ofList
  obtain ⟨line, fields, hlog, htext, hfields, hsix, hcount, hlast, -⟩ :=
    (traced_line (.received hreceive) rfl hnode).2 hid
  rw [hchars] at hfields hcount
  exact ⟨w, c', io', _, hopen, hreceive, hnode, hplace, line, fields, hlog, (htext hplace).2,
    hfields, hsix, hcount, hlast⟩

/-- A peer chooses as its trace id a line of the log and one more letter. The message leaves two
lines: the one that it brought along, which is a record of a message that never was, and its own. -/
theorem forged_record :
    let peer : PeerId := ⟨⟨Multihash.identity, [1, 2], by decide⟩, .inr ⟨rfl, by decide⟩⟩
    let now : Timestamp := ⟨1700000000123456789⟩
    let forged : TraceRecord := ⟨"a", "QmPeer", .clientStart, "entries=1 presences=0 blocks=0"⟩
    let m : Message := { traceId := forged.line "node" now ++ "b" }
    let own : TraceRecord := ⟨"b", peer.text, .received m, m.summary⟩
    let io : Duplex := ⟨{ capacity := 4096, content := FrameCodec.frame m.encode }, { capacity := 4096 }⟩
    ∃ w c' io' j' w', TraceLog.open { enabled := true } "node" none false now =
        .ok (.enabled "node" w false) ∧
      ({ peer } : Connection).receive io { trace := .enabled "node" w false } now =
        (c', io', j', .message m) ∧
      j'.trace = .enabled "node" w' false ∧
      w'.text = w.text ++ (forged.line "node" now).toList ++ (own.line "node" now).toList ∧
      TraceRecord.IsRecord (forged.line "node" now).toList "a" ∧
      TraceRecord.IsRecord (own.line "node" now).toList "b" := by
  intro peer now forged m own io
  have hfit : m.encode.length ≤ maxFrameSize := by decide +kernel
  have hid : m.traceId ≠ "" := by decide +kernel
  obtain ⟨w, hopen⟩ : ∃ w, TraceLog.open { enabled := true } "node" none false now =
    .ok (.enabled "node" w false) := ⟨_, rfl⟩
  obtain ⟨c', io', hreceive⟩ := receive_of_frame hfit peer 4096 { capacity := 4096 }
    { trace := .enabled "node" w false } now
  have hplace := (TraceLog.inPlace_of_open hopen).2.2.1
  have hline : (⟨m.traceId, peer.text, .received m, m.summary⟩ : TraceRecord).line "node" now =
      forged.line "node" now ++ own.line "node" now := own.line_append _ _ _
  have hlog : (Journal.received { trace := .enabled "node" w false } peer m now).trace = _ :=
    trace_received hid peer now
  rw [hline] at hlog
  have htext := (hplace.write (forged.line "node" now ++ own.line "node" now) now).2
  rw [String.toList_append, ← List.append_assoc] at htext
  have htidy : forged.Tidy "node" := ⟨by decide, by decide, by decide⟩
  have htidy' : own.Tidy "node" := ⟨by decide, peer.plain_text, m.plain_summary⟩
  exact ⟨w, c', io', _, _, hopen, hreceive, hlog, htext,
    (htidy.isRecord_line_iff now).mpr (by decide), (htidy'.isRecord_line_iff now).mpr (by decide)⟩

end Connection
end BlockExchange
