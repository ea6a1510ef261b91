import Mathlib.Data.List.Chain
import BlockExchange.Proofs.PackedSizes

/-!
# Packing into the fewest messages

A run of records makes one message (`Message.ofRun`), and a `Cutting` divides records into runs that
each keep to the limit or are single records. A batch closes a message only when the next record
does not fit in (`Batch.Holds`, which every push keeps), and more records are never encoded in fewer
bytes (`Message.encodedLength_ofRun_mono`). So each run of a batch reaches at least as far as that
of any other cutting, and no cutting has fewer runs (`length_le_of_isChain`).
-/

namespace BlockExchange

theorem total_le_of_sublist {α : Type} (f : α → Nat) {xs ys : List α} (h : xs.Sublist ys) :
    total f xs ≤ total f ys := by
  induction h with
  | slnil => exact Nat.le_refl 0
  | cons y _ ih => rw [total_cons]; omega
  | cons_cons y _ ih => rw [total_cons, total_cons]; omega

/-! ### The message of a run -/

namespace PackRecord
variable (e : Entry) (p : Presence) (r : BlockRecord)

def entryOf? : PackRecord → Option Entry
  | .entry e => some e
  | _ => none

def presenceOf? : PackRecord → Option Presence
  | .presence p => some p
  | _ => none

def blockOf? : PackRecord → Option BlockRecord
  | .block r => some r
  | _ => none

@[simp] theorem entryOf?_entry : (entry e).entryOf? = some e := rfl
@[simp] theorem entryOf?_presence : (presence p).entryOf? = none := rfl
@[simp] theorem entryOf?_block : (block r).entryOf? = none := rfl
@[simp] theorem presenceOf?_entry : (entry e).presenceOf? = none := rfl
@[simp] theorem presenceOf?_presence : (presence p).presenceOf? = some p := rfl
@[simp] theorem presenceOf?_block : (block r).presenceOf? = none := rfl
@[simp] theorem blockOf?_entry : (entry e).blockOf? = none := rfl
@[simp] theorem blockOf?_presence : (presence p).blockOf? = none := rfl
@[simp] theorem blockOf?_block : (block r).blockOf? = some r := rfl

end PackRecord

namespace Message
variable {traceId : String} {run longer : List PackRecord}

/-- The message that some records make, those of each kind in their order. -/
def ofRun (traceId : String) (run : List PackRecord) : Message where
  wantlist :=
    if (run.filterMap PackRecord.entryOf?).isEmpty then none
    else some { entries := run.filterMap PackRecord.entryOf? }
  payload := run.filterMap PackRecord.blockOf?
  presences := run.filterMap PackRecord.presenceOf?
  traceId := traceId

@[simp] theorem entries_ofRun :
    (ofRun traceId run).entries = run.filterMap PackRecord.entryOf? := by
  unfold entries ofRun
  by_cases h : run.filterMap PackRecord.entryOf? = [] <;> simp [h]

@[simp] theorem payload_ofRun :
    (ofRun traceId run).payload = run.filterMap PackRecord.blockOf? := rfl

@[simp] theorem presences_ofRun :
    (ofRun traceId run).presences = run.filterMap PackRecord.presenceOf? := rfl

theorem recordCount_ofRun (traceId : String) (run : List PackRecord) :
    (ofRun traceId run).recordCount = run.length := by
  simp only [recordCount, entries_ofRun, presences_ofRun, payload_ofRun]
  induction run with
  | nil => rfl
  | cons r run ih =>
    cases r <;> simp [List.filterMap_cons] <;> omega

theorem isEmpty_ofRun_iff : (ofRun traceId run).isEmpty = true ↔ run = [] := by
  rw [isEmpty_iff_recordCount, recordCount_ofRun, List.length_eq_zero_iff]

theorem encodedLength_ofRun (traceId : String) (run : List PackRecord) :
    (ofRun traceId run).encodedLength =
      (ofRun traceId run).recordsLength + baseLength traceId := by
  have hlist : ∀ w, (ofRun traceId run).wantlist = some w →
      w = { entries := run.filterMap PackRecord.entryOf? } ∧ w.entries ≠ [] := by
    intro w hw
    unfold ofRun at hw
    by_cases h : run.filterMap PackRecord.entryOf? = []
    · simp [h] at hw
    · simp only [List.isEmpty_iff, h, if_false, Option.some.injEq] at hw
      subst hw
      exact ⟨rfl, h⟩
  have hstamped : (ofRun traceId run).Stamped traceId := by
    refine ⟨rfl, rfl, fun w hw => ?_⟩
    rw [(hlist w hw).1]
  exact hstamped.encodedLength_eq fun w hw => (hlist w hw).2

/-- More records are not encoded in fewer bytes. -/
theorem encodedLength_ofRun_mono (traceId : String) (h : run.Sublist longer) :
    (ofRun traceId run).encodedLength ≤ (ofRun traceId longer).encodedLength := by
  have hentries := listLength_mono
    (total_le_of_sublist Entry.fieldLength (h.filterMap PackRecord.entryOf?))
  have hpayload := total_le_of_sublist BlockRecord.fieldLength (h.filterMap PackRecord.blockOf?)
  have hpresences := total_le_of_sublist Presence.fieldLength (h.filterMap PackRecord.presenceOf?)
  rw [encodedLength_ofRun, encodedLength_ofRun]
  simp only [recordsLength, entries_ofRun, payload_ofRun, presences_ofRun]
  omega

end Message

/-! ### Cuttings -/

/-- Runs into which records are cut, each of which makes a message within the limit or is a single
record. -/
structure Cutting (maxSize : Nat) (traceId : String) (records : List PackRecord)
    (runs : List (List PackRecord)) : Prop where
  flatten : runs.flatten = records
  nonempty : ∀ run ∈ runs, run ≠ []
  fits : ∀ run ∈ runs, (Message.ofRun traceId run).encode.length ≤ maxSize ∨ run.length = 1

/-- The first record of the next run would take this one past the limit. -/
def Ends (maxSize : Nat) (traceId : String) (run next : List PackRecord) : Prop :=
  ∀ r ∈ next.head?, maxSize < (Message.ofRun traceId (run ++ [r])).encode.length

/-- A run that ends before the first item of the next could not have been longer, and a run that may
stand may stand without its first or last items. Then no runs that may stand and reach as far are
fewer. -/
theorem length_le_of_isChain {α : Type} {may : List α → Prop}
    (hmay : ∀ {xs ys}, xs <:+: ys → xs ≠ [] → may ys → may xs) {runs others : List (List α)}
    (hne : ∀ run ∈ runs, run ≠ [])
    (hends : runs.IsChain fun run next => run ≠ [] → ∀ r ∈ next.head?, ¬ may (run ++ [r]))
    (hothers : ∀ run ∈ others, may run) (hreach : runs.flatten <:+ others.flatten) :
    runs.length ≤ others.length := by
  induction others generalizing runs with
  | nil =>
    cases runs with
    | nil => exact Nat.le_refl 0
    | cons run runs =>
      have hnil : (run :: runs).flatten = [] := List.suffix_nil.mp hreach
      exact absurd (List.append_eq_nil_iff.mp hnil).1 (hne run List.mem_cons_self)
  | cons other others ih =>
    cases runs with
    | nil => exact Nat.zero_le _
    | cons run runs =>
      obtain ⟨hother, hothers⟩ := List.forall_mem_cons.mp hothers
      obtain ⟨hrun, hne⟩ := List.forall_mem_cons.mp hne
      obtain ⟨hnext, hends⟩ := List.isChain_cons.mp hends
      refine Nat.succ_le_succ (ih hne hends hothers ?_)
      rw [List.flatten_cons, List.flatten_cons] at hreach
      have hrest : runs.flatten <:+ other ++ others.flatten :=
        (List.suffix_append _ _).trans hreach
      rcases Nat.le_total runs.flatten.length others.flatten.length with hle | hle
      · exact List.suffix_of_suffix_length_le hrest (List.suffix_append _ _) hle
      -- otherwise the other run holds all of this one and, if there is one, the record behind it
      obtain ⟨more, hmore⟩ := List.suffix_of_suffix_length_le (List.suffix_append _ _) hrest hle
      cases more with
      | nil => exact ⟨[], hmore.symm⟩
      | cons r more =>
        exfalso
        obtain ⟨front, hfront⟩ := hreach
        have hholds : front ++ run ++ r :: more = other := by
          rw [← hmore, ← List.append_assoc, ← List.append_assoc] at hfront
          exact List.append_cancel_right hfront
        have hfirst : ∃ next ∈ runs.head?, r ∈ next.head? := by
          cases runs with
          | nil => cases hmore
          | cons next runs =>
            refine ⟨next, rfl, ?_⟩
            cases next with
            | nil => exact absurd rfl (hne [] List.mem_cons_self)
            | cons r' next =>
              obtain ⟨rfl, -⟩ := List.cons.inj hmore
              rfl
        obtain ⟨next, hmem, hr⟩ := hfirst
        refine hnext next hmem hrun r hr (hmay ⟨front, more, ?_⟩ (by simp) hother)
        rw [← hholds]
        simp

/-! ### The runs of a batch -/

namespace Batch
variable {b : Batch} {traceId : String} {runs : List (List PackRecord)} {run : List PackRecord}
  {r : PackRecord}

/-- What a record adds to the length of the open message. -/
def cost (b : Batch) : PackRecord → Nat
  | .entry e => b.entryCost e.fieldLength
  | .presence p => p.fieldLength
  | .block r => r.fieldLength

/-- The closed messages hold these runs and the open one the last run, and each run was ended by the
first record of the next. -/
structure Holds (b : Batch) (runs : List (List PackRecord)) (run : List PackRecord) : Prop where
  closed : b.closed = runs.map (Message.ofRun b.traceId)
  opened : b.opened = Message.ofRun b.traceId run
  nonempty : ∀ run ∈ runs, run ≠ []
  begun : run = [] → runs = []
  ended : (runs ++ [run]).IsChain (Ends b.maxSize b.traceId)

theorem holds_new (maxSize : Nat) (traceId : String) : Holds { maxSize, traceId } [] [] where
  closed := rfl
  opened := rfl
  nonempty := nofun
  begun _ := rfl
  ended := .singleton _

theorem closed_push (b : Batch) (r : PackRecord) :
    (b.push r).closed = (b.makeRoom (b.cost r)).closed := by
  cases r <;> rfl

theorem traceId_push (b : Batch) (r : PackRecord) : (b.push r).traceId = b.traceId := by
  rw [← traceId_makeRoom b (b.cost r)]
  cases r <;> rfl

theorem traceId_foldl_push (b : Batch) (records : List PackRecord) :
    (records.foldl push b).traceId = b.traceId := by
  induction records generalizing b with
  | nil => rfl
  | cons r records ih => rw [List.foldl_cons, ih, traceId_push]

theorem opened_push (h : (b.makeRoom (b.cost r)).opened = .ofRun traceId run) :
    (b.push r).opened = .ofRun traceId (run ++ [r]) := by
  cases r with
  | entry e =>
    show ({ (b.makeRoom (b.cost (.entry e))).opened with
      wantlist := some { (b.makeRoom (b.cost (.entry e))).opened.wantlist.getD {} with
        entries := ((b.makeRoom (b.cost (.entry e))).opened.wantlist.getD {}).entries ++ [e] } } :
      Message) = _
    rw [h]
    by_cases hnil : run.filterMap PackRecord.entryOf? = [] <;>
      simp [Message.ofRun, hnil, List.filterMap_cons]
  | presence p =>
    show ({ (b.makeRoom (b.cost (.presence p))).opened with
      presences := (b.makeRoom (b.cost (.presence p))).opened.presences ++ [p] } : Message) = _
    rw [h]
    simp [Message.ofRun, List.filterMap_cons]
  | block r =>
    show ({ (b.makeRoom (b.cost (.block r))).opened with
      payload := (b.makeRoom (b.cost (.block r))).opened.payload ++ [r] } : Message) = _
    rw [h]
    simp [Message.ofRun, List.filterMap_cons]

/-- A record's cost is what it adds to the message, wherever it is put in the end. -/
theorem encodedLength_concat (hc : b.Counted) (h : b.opened = .ofRun b.traceId run)
    (r : PackRecord) :
    (Message.ofRun b.traceId (run ++ [r])).encodedLength = b.openLength + b.cost r := by
  have hopen : b.openLength = (Message.ofRun b.traceId run).recordsLength +
      Message.baseLength b.traceId := by
    rw [hc.openLength_eq, h, Message.encodedLength_ofRun]
  have hentries : b.entriesLength =
      total Entry.fieldLength (run.filterMap PackRecord.entryOf?) := by
    rw [hc.entriesLength_eq, h, Message.entries_ofRun]
  rw [Message.encodedLength_ofRun, hopen]
  simp only [Message.recordsLength, Message.entries_ofRun, Message.payload_ofRun,
    Message.presences_ofRun, List.filterMap_append, total_append]
  cases r with
  | entry e =>
    have hcost := b.listLength_add_entryCost e.fieldLength_pos
    rw [hentries] at hcost
    simp [List.filterMap_cons, cost, ← hcost]
    omega
  | presence p =>
    simp [List.filterMap_cons, cost]
    omega
  | block r =>
    simp [List.filterMap_cons, cost]
    omega

/-- A record the open message has room for joins the last run. -/
theorem Holds.push_joins (h : b.Holds runs run) {r : PackRecord}
    (hroom : b.makeRoom (b.cost r) = b) : (b.push r).Holds runs (run ++ [r]) := by
  obtain ⟨hclosed, hopened, hne, hbegun, hended⟩ := h
  refine ⟨?_, ?_, hne, ?_, ?_⟩
  · rw [closed_push, traceId_push, hroom]
    exact hclosed
  · rw [traceId_push]
    refine opened_push ?_
    rw [hroom]
    exact hopened
  · intro hnil
    simp at hnil
  · rw [maxSize_push, traceId_push]
    cases run with
    | nil =>
      rw [hbegun rfl]
      exact .singleton _
    | cons first run =>
      -- the next run is known by its first record, and that one stays
      obtain ⟨hchain, -, hlast⟩ := List.isChain_append.mp hended
      refine hchain.append (.singleton _) ?_
      intro last hmem next hnext
      obtain rfl := Option.some.inj hnext
      exact hlast last hmem (first :: run) rfl

/-- A record the open message has no room for ends the last run and begins the next one. -/
theorem Holds.push_begins (h : b.Holds runs run) {r : PackRecord} (hrun : run ≠ [])
    (hlong : b.maxSize < (Message.ofRun b.traceId (run ++ [r])).encodedLength)
    (hroom : b.makeRoom (b.cost r) =
      { maxSize := b.maxSize, traceId := b.traceId, closed := b.closed ++ [b.opened] }) :
    (b.push r).Holds (runs ++ [run]) [r] := by
  obtain ⟨hclosed, hopened, hne, hbegun, hended⟩ := h
  have hid := traceId_push b r
  refine ⟨?_, ?_, ?_, ?_, ?_⟩
  · rw [closed_push, hid, hroom, List.map_append, ← hclosed, hopened]
    rfl
  · rw [hid]
    show (b.push r).opened = .ofRun b.traceId ([] ++ [r])
    exact opened_push (congrArg Batch.opened hroom)
  · intro run' hmem
    rcases List.mem_append.mp hmem with hmem | hmem
    · exact hne run' hmem
    · rw [List.mem_singleton.mp hmem]
      exact hrun
  · intro hnil
    cases hnil
  · rw [maxSize_push, hid]
    refine hended.append (.singleton _) ?_
    intro last hlast next hnext r' hr'
    simp only [List.getLast?_append, List.getLast?_singleton, Option.some_or,
      Option.mem_def, Option.some.injEq] at hlast
    simp only [List.head?_cons, Option.mem_def, Option.some.injEq] at hnext
    subst hlast hnext
    obtain rfl := Option.some.inj hr'
    rw [Message.length_encode]
    exact hlong

/-- A record joins the last run, or ends it and begins the next one. -/
theorem Holds.push (h : b.Holds runs run) (hc : b.Counted) (r : PackRecord) :
    (b.push r).Holds runs (run ++ [r]) ∨ (b.push r).Holds (runs ++ [run]) [r] := by
  by_cases hfull : (!b.opened.isEmpty && decide (b.maxSize < b.openLength + b.cost r)) = true
  · refine .inr (h.push_begins (r := r) ?_ ?_ (if_pos hfull)) <;>
      simp only [Bool.and_eq_true, Bool.not_eq_true', decide_eq_true_eq] at hfull
    · intro hnil
      rw [h.opened, Message.isEmpty_ofRun_iff.mpr hnil] at hfull
      cases hfull.1
    · rw [encodedLength_concat hc h.opened r]
      exact hfull.2
  · exact .inl (h.push_joins (if_neg hfull))

/-- The runs of a batch that was filled with some records are these records. -/
theorem exists_holds_foldl (h : b.Holds runs run) (hc : b.Counted) (records : List PackRecord) :
    ∃ runs' run', (records.foldl Batch.push b).Holds runs' run' ∧
      (runs' ++ [run']).flatten = (runs ++ [run]).flatten ++ records := by
  induction records generalizing b runs run with
  | nil => exact ⟨runs, run, h, (List.append_nil _).symm⟩
  | cons r records ih =>
    have hnext := counted_push hc r
    rcases h.push hc r with hjoins | hbegins
    · obtain ⟨runs', run', hholds, hflat⟩ := ih hjoins hnext
      refine ⟨runs', run', hholds, ?_⟩
      rw [hflat]
      simp
    · obtain ⟨runs', run', hholds, hflat⟩ := ih hbegins hnext
      refine ⟨runs', run', hholds, ?_⟩
      rw [hflat]
      simp

/-- The open message is left out if the last run is empty, and then there are no other runs. -/
theorem Holds.exists_runs (h : b.Holds runs run) :
    ∃ all : List (List PackRecord), all.flatten = (runs ++ [run]).flatten ∧
      (∀ run ∈ all, run ≠ []) ∧ all.IsChain (Ends b.maxSize b.traceId) ∧
      b.finish = all.map (Message.ofRun b.traceId) := by
  obtain ⟨hclosed, hopened, hne, hbegun, hended⟩ := h
  unfold finish
  rw [hopened, hclosed]
  by_cases hrun : run = []
  · obtain rfl := hbegun hrun
    subst hrun
    exact ⟨[], rfl, nofun, .nil, if_pos rfl⟩
  · refine ⟨runs ++ [run], rfl, fun run' hmem => ?_, hended, ?_⟩
    · rcases List.mem_append.mp hmem with hmem | hmem
      · exact hne run' hmem
      · rw [List.mem_singleton.mp hmem]
        exact hrun
    · rw [if_neg (mt Message.isEmpty_ofRun_iff.mp hrun), List.map_append]
      rfl

/-- The messages of a batch are those of a cutting in which each run ends where it has to. -/
theorem exists_cutting (maxSize : Nat) (traceId : String) (records : List PackRecord) :
    ∃ runs, Cutting maxSize traceId records runs ∧
      (filled maxSize traceId records).finish = runs.map (Message.ofRun traceId) ∧
      runs.IsChain (Ends maxSize traceId) := by
  obtain ⟨runs, run, hholds, hflat⟩ :=
    exists_holds_foldl (holds_new maxSize traceId) (counted_new maxSize traceId) records
  obtain ⟨all, hall, hne, hchain, hfinish⟩ := hholds.exists_runs
  rw [maxSize_foldl_push, traceId_foldl_push] at hchain
  rw [traceId_foldl_push] at hfinish
  refine ⟨all, ⟨?_, hne, fun run hmem => ?_⟩, hfinish, hchain⟩
  · rw [hall, hflat]
    rfl
  · have hfits := finish_filled maxSize traceId records (.ofRun traceId run)
    rw [Message.recordCount_ofRun, ← Message.length_encode] at hfits
    refine hfits ?_
    show _ ∈ (records.foldl push { maxSize, traceId }).finish
    rw [hfinish]
    exact List.mem_map_of_mem hmem

end Batch

/-- Packed messages are those of a cutting, no cutting has fewer runs, and each message but the last
would exceed the limit with the first record of the next. -/
theorem fewest_messages (maxSize : Nat) (traceId : String) (entries : List Entry)
    (presences : List Presence) (blocks : List BlockRecord) :
    ∃ runs, Cutting maxSize traceId (PackRecord.ofLists entries presences blocks) runs ∧
      pack maxSize traceId entries presences blocks = runs.map (Message.ofRun traceId) ∧
      (∀ others, Cutting maxSize traceId (PackRecord.ofLists entries presences blocks) others →
        (pack maxSize traceId entries presences blocks).length ≤ others.length) ∧
      ∀ before run r rest after, runs = before ++ run :: (r :: rest) :: after →
        maxSize < (Message.ofRun traceId (run ++ [r])).encode.length := by
  obtain ⟨runs, hcut, hpack, hchain⟩ :=
    Batch.exists_cutting maxSize traceId (PackRecord.ofLists entries presences blocks)
  rw [← pack_eq_finish] at hpack
  refine ⟨runs, hcut, hpack, fun others hothers => ?_, ?_⟩
  · rw [hpack, List.length_map]
    refine length_le_of_isChain ?_ hcut.nonempty (hchain.imp ?_) hothers.fits ?_
    · intro run longer hinfix hne hmay
      have hlength := hinfix.length_le
      have hpos := List.length_pos_of_ne_nil hne
      have hmono := Message.encodedLength_ofRun_mono traceId hinfix.sublist
      rw [Message.length_encode] at hmay ⊢
      omega
    · intro run next hends hne r hr hmay
      have hlarge := hends r hr
      have hpos := List.length_pos_of_ne_nil hne
      rw [List.length_append, List.length_singleton] at hmay
      omega
    · exact ⟨[], hcut.flatten.trans hothers.flatten.symm⟩
  · rintro before run r rest after rfl
    obtain ⟨-, hends, -⟩ := List.isChain_append_cons_cons.mp hchain
    exact hends r rfl

end BlockExchange
