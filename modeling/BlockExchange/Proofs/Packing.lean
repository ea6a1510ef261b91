import BlockExchange.Batch

/-!
# What packing keeps

`Batch.messages` are the closed messages of a batch and the open one. Closing a message leaves the
records in them as they were, and a push puts its record behind the others of its kind, so that `pack`
gives its three lists back (`flatMap_pack_entries`, `flatMap_pack_presences`, `flatMap_pack_payload`).
Every message carries the trace id and nothing but records (`Message.Stamped`), and none is empty.
-/

namespace BlockExchange

/-- The message has the trace id and, apart from it, records only. -/
structure Message.Stamped (traceId : String) (m : Message) : Prop where
  traceId_eq : m.traceId = traceId
  pendingBytes : m.pendingBytes = 0
  full : ∀ w, m.wantlist = some w → w.full = false

theorem Message.stamped_traced (traceId : String) : (traced traceId).Stamped traceId :=
  ⟨rfl, rfl, nofun⟩

theorem Message.isEmpty_iff {m : Message} :
    m.isEmpty = true ↔ m.entries = [] ∧ m.presences = [] ∧ m.payload = [] := by
  unfold Message.isEmpty
  simp only [Bool.and_eq_true, List.isEmpty_iff]
  constructor
  · rintro ⟨⟨hp, hr⟩, he⟩; exact ⟨he, hr, hp⟩
  · rintro ⟨he, hr, hp⟩; exact ⟨⟨hp, hr⟩, he⟩

namespace Batch

def messages (b : Batch) : List Message :=
  b.closed ++ [b.opened]

/-- What every batch under a trace id keeps while it is filled. -/
structure Sound (traceId : String) (b : Batch) : Prop where
  traceId_eq : b.traceId = traceId
  stamped : ∀ m ∈ b.messages, m.Stamped traceId
  closed : ∀ m ∈ b.closed, m.isEmpty = false

theorem sound_new (maxSize : Nat) (traceId : String) : Sound traceId { maxSize, traceId } where
  traceId_eq := rfl
  stamped m hm := by
    obtain rfl : m = .traced traceId := by simpa [messages] using hm
    exact Message.stamped_traced traceId
  closed m hm := absurd hm List.not_mem_nil

section
variable {α : Type} {traceId : String} {b : Batch} {f : Message → List α}

theorem flatMap_messages : b.messages.flatMap f = b.closed.flatMap f ++ f b.opened := by
  simp [messages]

/-! ### One push -/

theorem flatMap_makeRoom (hf : ∀ id, f (.traced id) = []) (cost : Nat) :
    (b.makeRoom cost).messages.flatMap f = b.messages.flatMap f := by
  unfold makeRoom; split
  · simp [messages, hf]  -- the fresh message holds no record
  · rfl

theorem Sound.makeRoom (h : b.Sound traceId) (cost : Nat) : (b.makeRoom cost).Sound traceId := by
  unfold Batch.makeRoom; split
  · rename_i hfull
    have hopen : b.opened.isEmpty = false := by
      simp only [Bool.and_eq_true, Bool.not_eq_true'] at hfull; exact hfull.1
    refine ⟨h.traceId_eq, fun m hm => ?_, fun m hm => ?_⟩
    · simp only [messages, List.mem_append, List.mem_singleton] at hm
      rcases hm with (hm | rfl) | rfl
      · exact h.stamped m (List.mem_append_left _ hm)
      · exact h.stamped _ (by simp [messages])
      · rw [h.traceId_eq]; exact Message.stamped_traced traceId
    · rcases List.mem_append.mp hm with hm | hm
      · exact h.closed m hm
      · rw [List.mem_singleton.mp hm]; exact hopen
  · exact h

theorem Sound.fill {c : Batch} (h : b.Sound traceId) (hid : c.traceId = b.traceId)
    (hclosed : c.closed = b.closed)
    (hopened : b.opened.Stamped traceId → c.opened.Stamped traceId) : c.Sound traceId := by
  refine ⟨hid.trans h.traceId_eq, fun m hm => ?_, fun m hm => h.closed m (hclosed ▸ hm)⟩
  simp only [messages, hclosed, List.mem_append, List.mem_singleton] at hm
  rcases hm with hm | rfl
  · exact h.stamped m (List.mem_append_left _ hm)
  · exact hopened (h.stamped _ (by simp [messages]))

theorem Sound.pushEntry (h : b.Sound traceId) (e : Entry) : (b.pushEntry e).Sound traceId := by
  refine (h.makeRoom _).fill rfl rfl fun hs => ⟨hs.traceId_eq, hs.pendingBytes, fun w hw => ?_⟩
  obtain rfl := Option.some.inj hw
  show (Option.getD _ {} : Wantlist).full = false
  cases ho : (b.makeRoom (b.entryCost e.fieldLength)).opened.wantlist with
  | none => rfl
  | some w => exact hs.full w ho

theorem Sound.pushPresence (h : b.Sound traceId) (p : Presence) :
    (b.pushPresence p).Sound traceId :=
  (h.makeRoom _).fill rfl rfl fun hs => ⟨hs.traceId_eq, hs.pendingBytes, hs.full⟩

theorem Sound.pushBlock (h : b.Sound traceId) (r : BlockRecord) : (b.pushBlock r).Sound traceId :=
  (h.makeRoom _).fill rfl rfl fun hs => ⟨hs.traceId_eq, hs.pendingBytes, hs.full⟩

theorem entries_pushEntry (e : Entry) :
    (b.pushEntry e).messages.flatMap Message.entries = b.messages.flatMap Message.entries ++ [e] := by
  rw [← flatMap_makeRoom (b := b) (f := Message.entries) (fun _ => rfl) (b.entryCost e.fieldLength),
    flatMap_messages, flatMap_messages, List.append_assoc]
  refine congrArg (_ ++ ·) ?_
  show (Option.getD _ {} : Wantlist).entries ++ [e] = _
  unfold Message.entries
  cases (b.makeRoom (b.entryCost e.fieldLength)).opened.wantlist <;> rfl

theorem presences_pushPresence (p : Presence) :
    (b.pushPresence p).messages.flatMap Message.presences =
      b.messages.flatMap Message.presences ++ [p] := by
  rw [← flatMap_makeRoom (b := b) (f := Message.presences) (fun _ => rfl) p.fieldLength,
    flatMap_messages, flatMap_messages, List.append_assoc]
  rfl

theorem payload_pushBlock (r : BlockRecord) :
    (b.pushBlock r).messages.flatMap Message.payload = b.messages.flatMap Message.payload ++ [r] := by
  rw [← flatMap_makeRoom (b := b) (f := Message.payload) (fun _ => rfl) r.fieldLength,
    flatMap_messages, flatMap_messages, List.append_assoc]
  rfl

/-- Filling the open message leaves alone what is read off without looking at the filling. -/
theorem flatMap_of_makeRoom {c : Batch} (cost : Nat) (hf : ∀ id, f (.traced id) = [])
    (hclosed : c.closed = (b.makeRoom cost).closed)
    (hopened : f c.opened = f (b.makeRoom cost).opened) :
    c.messages.flatMap f = b.messages.flatMap f := by
  rw [← flatMap_makeRoom (b := b) hf cost, flatMap_messages, flatMap_messages, hclosed, hopened]

theorem presences_pushEntry (e : Entry) :
    (b.pushEntry e).messages.flatMap Message.presences = b.messages.flatMap Message.presences :=
  flatMap_of_makeRoom (b.entryCost e.fieldLength) (fun _ => rfl) rfl rfl

theorem payload_pushEntry (e : Entry) :
    (b.pushEntry e).messages.flatMap Message.payload = b.messages.flatMap Message.payload :=
  flatMap_of_makeRoom (b.entryCost e.fieldLength) (fun _ => rfl) rfl rfl

theorem entries_pushPresence (p : Presence) :
    (b.pushPresence p).messages.flatMap Message.entries = b.messages.flatMap Message.entries :=
  flatMap_of_makeRoom p.fieldLength (fun _ => rfl) rfl rfl

theorem payload_pushPresence (p : Presence) :
    (b.pushPresence p).messages.flatMap Message.payload = b.messages.flatMap Message.payload :=
  flatMap_of_makeRoom p.fieldLength (fun _ => rfl) rfl rfl

theorem entries_pushBlock (r : BlockRecord) :
    (b.pushBlock r).messages.flatMap Message.entries = b.messages.flatMap Message.entries :=
  flatMap_of_makeRoom r.fieldLength (fun _ => rfl) rfl rfl

theorem presences_pushBlock (r : BlockRecord) :
    (b.pushBlock r).messages.flatMap Message.presences = b.messages.flatMap Message.presences :=
  flatMap_of_makeRoom r.fieldLength (fun _ => rfl) rfl rfl

end

/-! ### Many pushes -/

section
variable {α β : Type} {push : Batch → α → Batch} {f : Message → List β}

theorem Sound.foldl {traceId : String} {b : Batch}
    (hpush : ∀ {b : Batch}, b.Sound traceId → ∀ a, (push b a).Sound traceId)
    (h : b.Sound traceId) (xs : List α) : (xs.foldl push b).Sound traceId := by
  induction xs generalizing b with
  | nil => exact h
  | cons a xs ih => exact ih (hpush h a)

/-- If each push adds `g` of its record, all of them add `g` of all records. -/
theorem flatMap_foldl {g : α → List β}
    (hpush : ∀ b a, (push b a).messages.flatMap f = b.messages.flatMap f ++ g a)
    (xs : List α) (b : Batch) :
    (xs.foldl push b).messages.flatMap f = b.messages.flatMap f ++ xs.flatMap g := by
  induction xs generalizing b with
  | nil => simp
  | cons a xs ih => rw [List.foldl_cons, ih, hpush, List.flatMap_cons, List.append_assoc]

theorem flatMap_foldl_self {f : Message → List α}
    (hpush : ∀ b a, (push b a).messages.flatMap f = b.messages.flatMap f ++ [a])
    (xs : List α) (b : Batch) :
    (xs.foldl push b).messages.flatMap f = b.messages.flatMap f ++ xs := by
  rw [flatMap_foldl hpush]
  simp

theorem flatMap_foldl_of_eq
    (hpush : ∀ b a, (push b a).messages.flatMap f = b.messages.flatMap f)
    (xs : List α) (b : Batch) : (xs.foldl push b).messages.flatMap f = b.messages.flatMap f := by
  rw [flatMap_foldl (g := fun _ => []) (fun b a => by rw [hpush, List.append_nil])]
  simp

end

theorem flatMap_finish {α : Type} {f : Message → List α} {b : Batch}
    (hf : b.opened.isEmpty = true → f b.opened = []) :
    b.finish.flatMap f = b.messages.flatMap f := by
  unfold finish; split
  · rename_i he
    rw [flatMap_messages, hf he, List.append_nil]
  · rfl

theorem Sound.stamped_finish {traceId : String} {b : Batch} (h : b.Sound traceId) :
    ∀ m ∈ b.finish, m.Stamped traceId := by
  intro m hm
  unfold finish at hm; split at hm
  · exact h.stamped m (List.mem_append_left _ hm)
  · exact h.stamped m hm

theorem Sound.isEmpty_finish {traceId : String} {b : Batch} (h : b.Sound traceId) :
    ∀ m ∈ b.finish, m.isEmpty = false := by
  intro m hm
  unfold finish at hm; split at hm
  · exact h.closed m hm
  · rename_i he
    rcases List.mem_append.mp hm with hm | hm
    · exact h.closed m hm
    · rw [List.mem_singleton.mp hm]; exact Bool.eq_false_iff.mpr he

end Batch

/-! ### Packing three lists -/

section
variable (maxSize : Nat) (traceId : String) (entries : List Entry) (presences : List Presence)
  (blocks : List BlockRecord)

theorem flatMap_pack_entries :
    (pack maxSize traceId entries presences blocks).flatMap Message.entries = entries := by
  unfold pack
  rw [Batch.flatMap_finish fun he => (Message.isEmpty_iff.mp he).1,
    Batch.flatMap_foldl_of_eq fun _ => Batch.entries_pushBlock,
    Batch.flatMap_foldl_of_eq fun _ => Batch.entries_pushPresence,
    Batch.flatMap_foldl_self fun _ => Batch.entries_pushEntry]
  rfl

theorem flatMap_pack_presences :
    (pack maxSize traceId entries presences blocks).flatMap Message.presences = presences := by
  unfold pack
  rw [Batch.flatMap_finish fun he => (Message.isEmpty_iff.mp he).2.1,
    Batch.flatMap_foldl_of_eq fun _ => Batch.presences_pushBlock,
    Batch.flatMap_foldl_self fun _ => Batch.presences_pushPresence,
    Batch.flatMap_foldl_of_eq fun _ => Batch.presences_pushEntry]
  rfl

theorem flatMap_pack_payload :
    (pack maxSize traceId entries presences blocks).flatMap Message.payload = blocks := by
  unfold pack
  rw [Batch.flatMap_finish fun he => (Message.isEmpty_iff.mp he).2.2,
    Batch.flatMap_foldl_self fun _ => Batch.payload_pushBlock,
    Batch.flatMap_foldl_of_eq fun _ => Batch.payload_pushPresence,
    Batch.flatMap_foldl_of_eq fun _ => Batch.payload_pushEntry]
  rfl

theorem sound_pack :
    (blocks.foldl Batch.pushBlock (presences.foldl Batch.pushPresence
      (entries.foldl Batch.pushEntry { maxSize, traceId }))).Sound traceId :=
  Batch.Sound.foldl (fun h r => h.pushBlock r)
    (Batch.Sound.foldl (fun h p => h.pushPresence p)
      (Batch.Sound.foldl (fun h e => h.pushEntry e) (Batch.sound_new maxSize traceId) entries)
      presences)
    blocks

theorem stamped_of_mem_pack :
    ∀ m ∈ pack maxSize traceId entries presences blocks, m.Stamped traceId :=
  (sound_pack maxSize traceId entries presences blocks).stamped_finish

theorem isEmpty_of_mem_pack :
    ∀ m ∈ pack maxSize traceId entries presences blocks, m.isEmpty = false :=
  (sound_pack maxSize traceId entries presences blocks).isEmpty_finish

/-- Nothing is sent exactly when there is nothing to send. -/
theorem pack_eq_nil_iff :
    pack maxSize traceId entries presences blocks = [] ↔
      entries = [] ∧ presences = [] ∧ blocks = [] := by
  constructor
  · intro h
    have he := flatMap_pack_entries maxSize traceId entries presences blocks
    have hp := flatMap_pack_presences maxSize traceId entries presences blocks
    have hb := flatMap_pack_payload maxSize traceId entries presences blocks
    rw [h] at he hp hb
    exact ⟨he.symm, hp.symm, hb.symm⟩
  · rintro ⟨rfl, rfl, rfl⟩; rfl

end

end BlockExchange
