import BlockExchange.Proofs.Packing
import BlockExchange.Proofs.Varints

/-!
# How large packed messages get

A batch never measures a message. `Batch.Counted` says that the lengths it counts are those of the
open message all the same, although an entry may lengthen the number in front of the wantlist as
well (`counts_exact`). So a message is closed before it grows past the limit, and only a record that
finds the message empty can exceed it (`Batch.Within`, `fits_or_single`).
-/

namespace BlockExchange

/-- The records that a batch is filled with. -/
inductive PackRecord
  | entry (e : Entry)
  | presence (p : Presence)
  | block (r : BlockRecord)

/-- Three lists as one, in the order in which they are packed. -/
def PackRecord.ofLists (entries : List Entry) (presences : List Presence)
    (blocks : List BlockRecord) : List PackRecord :=
  entries.map .entry ++ presences.map .presence ++ blocks.map .block

namespace Message

def recordCount (m : Message) : Nat :=
  m.entries.length + m.presences.length + m.payload.length

theorem isEmpty_iff_recordCount {m : Message} : m.isEmpty = true ↔ m.recordCount = 0 := by
  rw [isEmpty_iff, recordCount]
  constructor
  · rintro ⟨he, hp, hb⟩; rw [he, hp, hb]; rfl
  · intro h
    refine ⟨?_, ?_, ?_⟩ <;> apply List.eq_nil_of_length_eq_zero <;> omega

/-- The length of the wantlist's field when a message without entries has none. -/
def listLength (entriesLength : Nat) : Nat :=
  if entriesLength = 0 then 0 else wantlistLength entriesLength

theorem listLength_mono {m n : Nat} (h : m ≤ n) : listLength m ≤ listLength n := by
  unfold listLength
  split
  · exact Nat.zero_le _
  · have hlen := Varint.length_mono h
    rw [if_neg (by omega)]
    unfold wantlistLength Protobuf.delimitedLength
    omega

/-- A message of a batch has a wantlist only to hold entries. -/
def Listed (m : Message) : Prop :=
  ∀ w, m.wantlist = some w → w.entries ≠ []

end Message

theorem Entry.fieldLength_pos (e : Entry) : 0 < e.fieldLength := by
  unfold fieldLength Protobuf.delimitedLength
  have := Varint.length_pos e.encodedLength
  omega

theorem total_fieldLength_pos {es : List Entry} (h : es ≠ []) : 0 < total Entry.fieldLength es := by
  cases es with
  | nil => exact absurd rfl h
  | cons e es => exact Nat.lt_of_lt_of_le e.fieldLength_pos (Nat.le_add_right _ _)

/-- The length of the records in a message that has a wantlist only to hold entries. -/
def Message.recordsLength (m : Message) : Nat :=
  listLength (total Entry.fieldLength m.entries) + total BlockRecord.fieldLength m.payload
    + total Presence.fieldLength m.presences

theorem Message.Stamped.encodedLength_eq {traceId : String} {m : Message} (h : m.Stamped traceId)
    (hl : m.Listed) : m.encodedLength = m.recordsLength + baseLength traceId := by
  have hpending : Protobuf.numberLength 5 (Protobuf.signed m.pendingBytes) = 0 := by
    rw [h.pendingBytes]; rfl
  unfold encodedLength recordsLength
  rw [hpending, h.traceId_eq, Nat.add_zero]
  cases hw : m.wantlist with
  | none =>
    have he : m.entries = [] := by unfold entries; rw [hw]
    rw [he]; rfl
  | some w =>
    have he : m.entries = w.entries := by unfold entries; rw [hw]
    have hpos := total_fieldLength_pos (hl w hw)
    have hfield : w.fieldLength = listLength (total Entry.fieldLength w.entries) := by
      unfold Wantlist.fieldLength Wantlist.encodedLength listLength
      rw [h.full w hw, if_neg (by omega)]
      rfl
    rw [he, ← hfield]

namespace Batch

def push (b : Batch) : PackRecord → Batch
  | .entry e => b.pushEntry e
  | .presence p => b.pushPresence p
  | .block r => b.pushBlock r

/-- A new batch after some pushes. -/
def filled (maxSize : Nat) (traceId : String) (records : List PackRecord) : Batch :=
  records.foldl push { maxSize, traceId }

/-- The lengths that a batch counts are those of its open message. -/
structure Counted (b : Batch) : Prop where
  sound : b.Sound b.traceId
  listed : ∀ m ∈ b.messages, m.Listed
  entriesLength_eq : b.entriesLength = total Entry.fieldLength b.opened.entries
  openLength_eq : b.openLength = b.opened.encodedLength

/-- The messages that are larger than the limit hold one record at most. -/
def Within (b : Batch) : Prop :=
  ∀ m ∈ b.messages, m.encodedLength ≤ b.maxSize ∨ m.recordCount ≤ 1

section
variable {b : Batch}

theorem opened_mem_messages : b.opened ∈ b.messages :=
  List.mem_append_right _ (List.mem_singleton.mpr rfl)

theorem Counted.encodedLength_opened (h : b.Counted) :
    b.opened.encodedLength = b.opened.recordsLength + Message.baseLength b.traceId :=
  (h.sound.stamped _ opened_mem_messages).encodedLength_eq (h.listed _ opened_mem_messages)

/-- What an entry costs, on top of what the wantlist takes already. -/
theorem listLength_add_entryCost (b : Batch) {n : Nat} (hn : 0 < n) :
    Message.listLength b.entriesLength + b.entryCost n =
      Message.listLength (b.entriesLength + n) := by
  have hmono : Message.listLength b.entriesLength ≤ Message.listLength (b.entriesLength + n) :=
    Message.listLength_mono (Nat.le_add_right _ _)
  have hcost : b.entryCost n =
      Message.listLength (b.entriesLength + n) - Message.listLength b.entriesLength := by
    unfold entryCost Message.listLength
    rw [if_neg (show ¬ b.entriesLength + n = 0 by omega)]
  omega

/-! ### Making room -/

theorem maxSize_makeRoom (b : Batch) (cost : Nat) : (b.makeRoom cost).maxSize = b.maxSize := by
  unfold makeRoom; split <;> rfl

theorem traceId_makeRoom (b : Batch) (cost : Nat) : (b.makeRoom cost).traceId = b.traceId := by
  unfold makeRoom; split <;> rfl

/-- A message that holds records stays open only if there is room for the cost. -/
theorem makeRoom_cases (b : Batch) (cost : Nat) :
    (b.makeRoom cost = b ∧ b.openLength + cost ≤ b.maxSize) ∨
      (b.makeRoom cost).opened.isEmpty = true := by
  unfold makeRoom; split
  · exact .inr rfl
  · rename_i hroom
    simp only [Bool.and_eq_true, Bool.not_eq_true', decide_eq_true_eq, not_and, Nat.not_lt] at hroom
    cases he : b.opened.isEmpty with
    | true => exact .inr rfl
    | false => exact .inl ⟨rfl, hroom he⟩

theorem room_makeRoom (b : Batch) (cost : Nat) :
    (b.makeRoom cost).openLength + cost ≤ (b.makeRoom cost).maxSize ∨
      (b.makeRoom cost).opened.isEmpty = true := by
  rcases b.makeRoom_cases cost with ⟨hsame, hroom⟩ | hempty
  · rw [hsame]; exact .inl hroom
  · exact .inr hempty

theorem counted_new (maxSize : Nat) (traceId : String) : Counted { maxSize, traceId } where
  sound := sound_new maxSize traceId
  listed m hm := by
    rw [List.mem_singleton.mp hm]
    exact nofun
  entriesLength_eq := rfl
  openLength_eq := by
    rw [(Message.stamped_traced traceId).encodedLength_eq nofun]
    exact (Nat.zero_add _).symm

theorem Counted.makeRoom (h : b.Counted) (cost : Nat) : (b.makeRoom cost).Counted := by
  have hs : (b.makeRoom cost).Sound (b.makeRoom cost).traceId := by
    rw [traceId_makeRoom]; exact h.sound.makeRoom cost
  unfold Batch.makeRoom at hs ⊢
  split
  · rename_i hfull
    rw [if_pos hfull] at hs
    have hnew := counted_new b.maxSize b.traceId
    refine ⟨hs, fun m hm => ?_, hnew.entriesLength_eq, hnew.openLength_eq⟩
    rcases List.mem_append.mp hm with hm | hm
    · exact h.listed m hm
    · rw [List.mem_singleton.mp hm]
      exact nofun
  · exact h

theorem Within.makeRoom (h : b.Within) (cost : Nat) : (b.makeRoom cost).Within := by
  unfold Within
  rw [maxSize_makeRoom]
  unfold Batch.makeRoom messages
  split
  · intro m hm
    rcases List.mem_append.mp hm with hm | hm
    · exact h m hm
    · rw [List.mem_singleton.mp hm]; exact .inr (Nat.zero_le 1)
  · exact h

/-! ### One push -/

/-- A record goes into a message that has room for it or is empty. -/
theorem Within.fill {c : Batch} (h : b.Within) (hc : c.Counted) (hmax : c.maxSize = b.maxSize)
    (hclosed : c.closed = b.closed) (hcount : c.opened.recordCount = b.opened.recordCount + 1)
    (hroom : c.openLength ≤ b.maxSize ∨ b.opened.isEmpty = true) : c.Within := by
  intro m hm
  rw [messages, hclosed] at hm
  rw [hmax]
  rcases List.mem_append.mp hm with hm | hm
  · exact h m (List.mem_append_left _ hm)
  · rw [List.mem_singleton.mp hm]
    rcases hroom with hroom | hempty
    · rw [← hc.openLength_eq]; exact .inl hroom
    · rw [Message.isEmpty_iff_recordCount] at hempty
      exact .inr (by omega)

theorem entries_opened_pushEntry (b : Batch) (e : Entry) :
    (b.pushEntry e).opened.entries = (b.makeRoom (b.entryCost e.fieldLength)).opened.entries ++ [e] := by
  show (Option.getD _ {} : Wantlist).entries ++ [e] = _
  unfold Message.entries
  cases (b.makeRoom (b.entryCost e.fieldLength)).opened.wantlist <;> rfl

theorem Counted.fill {c : Batch} (h : b.Counted) (hs : c.Sound b.traceId)
    (hid : c.traceId = b.traceId) (hclosed : c.closed = b.closed) (hl : c.opened.Listed)
    (hentries : c.entriesLength = total Entry.fieldLength c.opened.entries)
    (hlen : c.openLength + b.opened.recordsLength = b.openLength + c.opened.recordsLength) :
    c.Counted := by
  have hc := (hs.stamped _ opened_mem_messages).encodedLength_eq hl
  have hb := h.encodedLength_opened
  have hopen := h.openLength_eq
  refine ⟨hid ▸ hs, fun m hm => ?_, hentries, by omega⟩
  rw [messages, hclosed] at hm
  rcases List.mem_append.mp hm with hm | hm
  · exact h.listed m (List.mem_append_left _ hm)
  · rw [List.mem_singleton.mp hm]
    exact hl

theorem Counted.pushEntry (h : b.Counted) (e : Entry) : (b.pushEntry e).Counted := by
  have hc := h.makeRoom (b.entryCost e.fieldLength)
  have hs : (b.pushEntry e).Sound b.traceId := h.sound.pushEntry e
  have hid := traceId_makeRoom b (b.entryCost e.fieldLength)
  have hadd := entries_opened_pushEntry b e
  have hcost := (b.makeRoom (b.entryCost e.fieldLength)).listLength_add_entryCost e.fieldLength_pos
  have htotal := hc.entriesLength_eq
  refine hc.fill (hid ▸ hs) rfl rfl ?_ ?_ ?_
  · intro w hw
    obtain rfl := Option.some.inj hw
    exact List.append_ne_nil_of_right_ne_nil _ (List.cons_ne_nil _ _)
  · rw [hadd, total_append, ← htotal]
    rfl
  · show (b.makeRoom _).openLength + (b.makeRoom _).entryCost e.fieldLength + _ = _
    unfold Message.recordsLength
    rw [hadd, total_append, total_cons, total_nil, Nat.add_zero, ← htotal, ← hcost]
    show _ = _ + (_ + total BlockRecord.fieldLength (b.makeRoom _).opened.payload
      + total Presence.fieldLength (b.makeRoom _).opened.presences)
    omega

theorem Counted.pushPresence (h : b.Counted) (p : Presence) : (b.pushPresence p).Counted := by
  have hc := h.makeRoom p.fieldLength
  have hs : (b.pushPresence p).Sound b.traceId := h.sound.pushPresence p
  have hl : (b.makeRoom p.fieldLength).opened.Listed := hc.listed _ opened_mem_messages
  refine hc.fill (traceId_makeRoom b p.fieldLength ▸ hs) rfl rfl hl hc.entriesLength_eq ?_
  unfold Message.recordsLength
  show (b.makeRoom _).openLength + p.fieldLength + _ =
    _ + (_ + total Presence.fieldLength (_ ++ [p]))
  rw [total_append, total_cons, total_nil]
  show _ = _ + (Message.listLength (total Entry.fieldLength (b.makeRoom _).opened.entries)
    + total BlockRecord.fieldLength (b.makeRoom _).opened.payload + _)
  omega

theorem Counted.pushBlock (h : b.Counted) (r : BlockRecord) : (b.pushBlock r).Counted := by
  have hc := h.makeRoom r.fieldLength
  have hs : (b.pushBlock r).Sound b.traceId := h.sound.pushBlock r
  have hl : (b.makeRoom r.fieldLength).opened.Listed := hc.listed _ opened_mem_messages
  refine hc.fill (traceId_makeRoom b r.fieldLength ▸ hs) rfl rfl hl hc.entriesLength_eq ?_
  unfold Message.recordsLength
  show (b.makeRoom _).openLength + r.fieldLength + _ =
    _ + (_ + total BlockRecord.fieldLength (_ ++ [r]) + _)
  rw [total_append, total_cons, total_nil]
  show _ = _ + (Message.listLength (total Entry.fieldLength (b.makeRoom _).opened.entries)
    + _ + total Presence.fieldLength (b.makeRoom _).opened.presences)
  omega

theorem Within.pushEntry (h : b.Within) (hc : b.Counted) (e : Entry) : (b.pushEntry e).Within := by
  refine (h.makeRoom (b.entryCost e.fieldLength)).fill (hc.pushEntry e) rfl rfl ?_ ?_
  · unfold Message.recordCount
    rw [entries_opened_pushEntry, List.length_append, List.length_singleton]
    show _ + (b.makeRoom _).opened.presences.length + (b.makeRoom _).opened.payload.length = _
    omega
  · rcases b.makeRoom_cases (b.entryCost e.fieldLength) with ⟨hsame, hroom⟩ | hempty
    · left
      show (b.makeRoom _).openLength + (b.makeRoom _).entryCost e.fieldLength ≤ _
      rw [hsame]
      exact hroom
    · exact .inr hempty

theorem Within.pushPresence (h : b.Within) (hc : b.Counted) (p : Presence) :
    (b.pushPresence p).Within := by
  refine (h.makeRoom p.fieldLength).fill (hc.pushPresence p) rfl rfl ?_ (b.room_makeRoom p.fieldLength)
  show _ + (_ ++ [p]).length + _ = _
  rw [List.length_append, List.length_singleton]
  show (b.makeRoom _).opened.entries.length + _ + (b.makeRoom _).opened.payload.length = _
  unfold Message.recordCount
  omega

theorem Within.pushBlock (h : b.Within) (hc : b.Counted) (r : BlockRecord) :
    (b.pushBlock r).Within := by
  refine (h.makeRoom r.fieldLength).fill (hc.pushBlock r) rfl rfl ?_ (b.room_makeRoom r.fieldLength)
  show _ + _ + (_ ++ [r]).length = _
  rw [List.length_append, List.length_singleton]
  show (b.makeRoom _).opened.entries.length + (b.makeRoom _).opened.presences.length + _ = _
  unfold Message.recordCount
  omega

/-! ### Many pushes -/

theorem counted_push (h : b.Counted) (r : PackRecord) : (b.push r).Counted := by
  cases r with
  | entry e => exact h.pushEntry e
  | presence p => exact h.pushPresence p
  | block r => exact h.pushBlock r

theorem within_push (h : b.Within) (hc : b.Counted) (r : PackRecord) : (b.push r).Within := by
  cases r with
  | entry e => exact h.pushEntry hc e
  | presence p => exact h.pushPresence hc p
  | block r => exact h.pushBlock hc r

theorem maxSize_push (b : Batch) (r : PackRecord) : (b.push r).maxSize = b.maxSize := by
  cases r <;> exact maxSize_makeRoom b _

theorem within_new (maxSize : Nat) (traceId : String) : Within { maxSize, traceId } := by
  intro m hm
  rw [List.mem_singleton.mp hm]
  exact .inr (Nat.zero_le 1)

theorem counted_foldl_push (h : b.Counted) (rs : List PackRecord) : (rs.foldl push b).Counted := by
  induction rs generalizing b with
  | nil => exact h
  | cons r rs ih => exact ih (counted_push h r)

theorem within_foldl_push (h : b.Within) (hc : b.Counted) (rs : List PackRecord) :
    (rs.foldl push b).Within := by
  induction rs generalizing b with
  | nil => exact h
  | cons r rs ih => exact ih (within_push h hc r) (counted_push hc r)

theorem maxSize_foldl_push (b : Batch) (rs : List PackRecord) :
    (rs.foldl push b).maxSize = b.maxSize := by
  induction rs generalizing b with
  | nil => rfl
  | cons r rs ih => rw [List.foldl_cons, ih, maxSize_push]

theorem mem_messages_of_mem_finish {m : Message} (hm : m ∈ b.finish) : m ∈ b.messages := by
  unfold Batch.finish at hm
  split at hm
  · exact List.mem_append_left _ hm
  · exact hm

/-- A message that leaves the batch is within the limit or holds exactly one record. -/
theorem Within.finish (h : b.Within) (hc : b.Counted) :
    ∀ m ∈ b.finish, m.encodedLength ≤ b.maxSize ∨ m.recordCount = 1 := by
  intro m hm
  have hne := hc.sound.isEmpty_finish m hm
  rcases h m (mem_messages_of_mem_finish hm) with hle | hcount
  · exact .inl hle
  · have hpos : ¬ m.recordCount = 0 := by
      rw [← Message.isEmpty_iff_recordCount, hne]; exact Bool.false_ne_true
    exact .inr (by omega)

theorem counted_filled (maxSize : Nat) (traceId : String) (records : List PackRecord) :
    (filled maxSize traceId records).Counted :=
  counted_foldl_push (counted_new maxSize traceId) records

theorem finish_filled (maxSize : Nat) (traceId : String) (records : List PackRecord) :
    ∀ m ∈ (filled maxSize traceId records).finish, m.encodedLength ≤ maxSize ∨ m.recordCount = 1 := by
  have hw : (filled maxSize traceId records).Within :=
    within_foldl_push (within_new maxSize traceId) (counted_new maxSize traceId) records
  have hmax : (filled maxSize traceId records).maxSize = maxSize := maxSize_foldl_push _ records
  have hfinish := hw.finish (counted_filled maxSize traceId records)
  rwa [hmax] at hfinish

/-! ### The counts -/

theorem Counted.openLength_eq_length (h : b.Counted) : b.openLength = b.opened.encode.length := by
  rw [Message.length_encode]
  exact h.openLength_eq

/-- Every entry takes up bytes. -/
theorem Counted.entriesLength_eq_zero_iff (h : b.Counted) :
    b.entriesLength = 0 ↔ b.opened.entries = [] := by
  rw [h.entriesLength_eq]
  cases hentries : b.opened.entries with
  | nil => exact iff_of_true rfl rfl
  | cons e es =>
    have hpos : 0 < total Entry.fieldLength (e :: es) := total_fieldLength_pos (List.cons_ne_nil e es)
    exact iff_of_false (Nat.ne_of_gt hpos) (List.cons_ne_nil e es)

/-- What the wantlist takes up already is no more than what it takes up with the entry. -/
theorem entryCost_add_listLength (b : Batch) {n : Nat} (hn : 0 < n) :
    b.entryCost n + Message.listLength b.entriesLength =
      Message.wantlistLength (b.entriesLength + n) := by
  have hcost := b.listLength_add_entryCost hn
  have hsome : Message.listLength (b.entriesLength + n) =
      Message.wantlistLength (b.entriesLength + n) := if_neg (by omega)
  omega

end
end Batch

section
variable (maxSize : Nat) (traceId : String)

/-- Packing three lists is pushing their records one after the other. -/
theorem pack_eq_finish (entries : List Entry) (presences : List Presence)
    (blocks : List BlockRecord) : pack maxSize traceId entries presences blocks =
      (Batch.filled maxSize traceId (PackRecord.ofLists entries presences blocks)).finish := by
  rw [Batch.filled, PackRecord.ofLists, List.foldl_append, List.foldl_append, List.foldl_map,
    List.foldl_map, List.foldl_map]
  rfl

theorem pack_within (entries : List Entry) (presences : List Presence) (blocks : List BlockRecord) :
    ∀ m ∈ pack maxSize traceId entries presences blocks,
      m.encodedLength ≤ maxSize ∨ m.recordCount = 1 := by
  rw [pack_eq_finish]
  exact Batch.finish_filled maxSize traceId _

theorem encodedLength_of_mem_pack {entries : List Entry} {presences : List Presence}
    {blocks : List BlockRecord} {m : Message}
    (hm : m ∈ pack maxSize traceId entries presences blocks) :
    m.encodedLength = m.recordsLength + Message.baseLength traceId := by
  have hs := stamped_of_mem_pack maxSize traceId entries presences blocks m hm
  rw [pack_eq_finish] at hm
  exact hs.encodedLength_eq
    ((Batch.counted_filled maxSize traceId _).listed m (Batch.mem_messages_of_mem_finish hm))

/-- Whatever records a batch is filled with, and in whatever order, each of its messages is encoded in
no more bytes than the limit or holds one record. -/
theorem fits_or_single :
    (∀ records, ∀ m ∈ (Batch.filled maxSize traceId records).finish,
      m.encode.length ≤ maxSize ∨ m.recordCount = 1) ∧
    ∀ entries presences blocks, pack maxSize traceId entries presences blocks =
      (Batch.filled maxSize traceId (PackRecord.ofLists entries presences blocks)).finish := by
  refine ⟨fun records m hm => ?_, pack_eq_finish maxSize traceId⟩
  rw [Message.length_encode]
  exact Batch.finish_filled maxSize traceId records m hm

end

/-- However a batch is filled, the lengths it counts are exact: that of the open message, and that of
the entries in it, which is zero only as long as there are none. When an entry's cost is worked out,
before and again after room is made for it, it is all that the wantlist takes up more: the number
taken away is the smaller one. -/
theorem counts_exact (maxSize : Nat) (traceId : String) (records : List PackRecord) :
    let b := Batch.filled maxSize traceId records
    b.openLength = b.opened.encode.length ∧
    b.entriesLength = total Entry.fieldLength b.opened.entries ∧
    (b.entriesLength = 0 ↔ b.opened.entries = []) ∧
    ∀ e : Entry, ∀ b' ∈ [b, b.makeRoom (b.entryCost e.fieldLength)],
      Message.listLength b'.entriesLength ≤
        Message.wantlistLength (b'.entriesLength + e.fieldLength) ∧
      b'.entryCost e.fieldLength = Message.wantlistLength (b'.entriesLength + e.fieldLength) -
        Message.listLength b'.entriesLength := by
  have h := Batch.counted_filled maxSize traceId records
  refine ⟨h.openLength_eq_length, h.entriesLength_eq, h.entriesLength_eq_zero_iff, ?_⟩
  intro e b' _
  have hcost := b'.entryCost_add_listLength e.fieldLength_pos
  omega

end BlockExchange
