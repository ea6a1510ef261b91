import BlockExchange.Proofs.Tickets

/-!
# The life of a want

A table of wants after any calls (`WantTable.run`), told from the calls alone. The outcome of a future
is the first block for its identifier that was resolved after it was given out, two registrations
share a future exactly when no such block came between them, and a want is pending exactly when none
came after it was registered (`want_lifecycle`).
-/

namespace BlockExchange

inductive WantCall
  | register (now : Duration) (w : Want)
  | resolve (b : HashedBlock)

/-- The first block for an identifier that some calls resolve. -/
def firstBlock? (cid : Cid) : List WantCall → Option HashedBlock
  | [] => none
  | .register _ _ :: calls => firstBlock? cid calls
  | .resolve b :: calls => if b.cid = cid then some b else firstBlock? cid calls

namespace WantTable

def call (t : WantTable) : WantCall → WantTable
  | .register now w => (t.register now w).1
  | .resolve b => (t.resolve b).1

def run (t : WantTable) (calls : List WantCall) : WantTable :=
  calls.foldl call t

variable {t : WantTable} {w : Want} {f : WantFuture} {o : WantOutcome}

theorem Valid.run (h : t.Valid) (calls : List WantCall) : (t.run calls).Valid := by
  induction calls generalizing t with
  | nil => exact h
  | cons c calls ih =>
    cases c with
    | register now w => exact ih (h.register now w)
    | resolve b => exact ih (h.resolve b)

/-- A future that is done keeps its outcome. -/
theorem Tracks.run_of_ne_pending (h : t.Tracks w f o) (ho : o ≠ .pending) (calls : List WantCall) :
    (t.run calls).Tracks w f o := by
  induction calls generalizing t with
  | nil => exact h
  | cons c calls ih =>
    cases c with
    | register now v => exact ih (h.register now v)
    | resolve b =>
      have hr := h.resolve b
      rw [WantOutcome.resolved_eq_self fun hb => ho hb.1] at hr
      exact ih hr

/-- A future that waits gets the first block for its identifier. -/
theorem Tracks.run (h : t.Tracks w f .pending) (calls : List WantCall) :
    (t.run calls).Tracks w f ((firstBlock? w.cid calls).elim .pending .delivered) := by
  induction calls generalizing t with
  | nil => exact h
  | cons c calls ih =>
    cases c with
    | register now v => exact ih (h.register now v)
    | resolve b =>
      have hr := h.resolve b
      rw [firstBlock?]
      split
      · rename_i hb
        rw [WantOutcome.resolved_pending hb] at hr
        exact hr.run_of_ne_pending nofun calls
      · rename_i hb
        rw [WantOutcome.resolved_eq_self fun hb' => hb hb'.2] at hr
        exact ih hr

theorem elim_eq_pending_iff {b? : Option HashedBlock} :
    b?.elim WantOutcome.pending .delivered = .pending ↔ b? = none := by
  cases b? with
  | none => exact iff_of_true rfl rfl
  | some b => exact iff_of_false nofun nofun

theorem Tracks.shares_register_iff (h : t.Tracks w f o) (hv : t.Valid) (now : Duration) (v : Want) :
    (t.register now v).2.shares f = true ↔ v = w ∧ o = .pending := by
  have hf := h.register now v
  have hg := (hv.tracks_register now v).ticket?_eq_some_iff.mpr rfl
  rw [WantFuture.shares, beq_iff_eq, ← hf.ticket v, hg, Option.some.injEq]

/-- A want that is pending was so all the time or has been registered since its last block. -/
theorem registered_of_isPending_run {calls : List WantCall} (h : (t.run calls).isPending w = true) :
    (t.isPending w = true ∧ firstBlock? w.cid calls = none) ∨
      ∃ earlier now later, calls = earlier ++ .register now w :: later ∧
        firstBlock? w.cid later = none := by
  induction calls generalizing t with
  | nil => exact .inl ⟨h, rfl⟩
  | cons c calls ih =>
    rcases ih (t := t.call c) h with ⟨hp, hb⟩ | ⟨earlier, now, later, rfl, hb⟩
    · cases c with
      | register now v =>
        rcases isPending_register_iff.mp hp with rfl | hp
        · exact .inr ⟨[], now, calls, rfl, hb⟩
        · exact .inl ⟨hp, hb⟩
      | resolve b =>
        obtain ⟨hc, hp⟩ := isPending_resolve_iff.mp hp
        exact .inl ⟨hp, by rw [firstBlock?, if_neg (Ne.symm hc)]; exact hb⟩
    · exact .inr ⟨c :: earlier, now, later, rfl, hb⟩

theorem run_append (t : WantTable) (calls more : List WantCall) :
    t.run (calls ++ more) = (t.run calls).run more :=
  List.foldl_append

theorem firstBlock?_resolves (cid : Cid) (bs : List HashedBlock) :
    firstBlock? cid (bs.map .resolve) = bs.find? fun b => b.cid = cid := by
  induction bs with
  | nil => rfl
  | cons b bs ih =>
    rw [List.map_cons, firstBlock?, List.find?_cons, ih]
    by_cases hb : b.cid = cid
    · rw [if_pos hb, decide_eq_true hb]
    · rw [if_neg hb, decide_eq_false hb]

theorem isPending_run_resolves_iff {bs : List HashedBlock} :
    (t.run (bs.map .resolve)).isPending w = true ↔
      t.isPending w = true ∧ ∀ b ∈ bs, b.cid ≠ w.cid := by
  induction bs generalizing t with
  | nil => exact (and_iff_left nofun).symm
  | cons b bs ih =>
    have hstep : (t.run ((b :: bs).map .resolve)).isPending w = true ↔
        (t.resolve b).1.isPending w = true ∧ ∀ c ∈ bs, c.cid ≠ w.cid := ih
    rw [hstep, isPending_resolve_iff, List.forall_mem_cons]
    constructor
    · rintro ⟨⟨hb, hp⟩, hbs⟩; exact ⟨hp, Ne.symm hb, hbs⟩
    · rintro ⟨hp, hb, hbs⟩; exact ⟨⟨Ne.symm hb, hp⟩, hbs⟩

theorem isPending_run_new_iff (recency : Duration) (calls : List WantCall) :
    (run { recency } calls).isPending w = true ↔
      ∃ earlier now later, calls = earlier ++ .register now w :: later ∧
        firstBlock? w.cid later = none := by
  constructor
  · intro h
    rcases registered_of_isPending_run h with ⟨hp, -⟩ | h
    · cases hp
    · exact h
  · rintro ⟨earlier, now, later, rfl, hb⟩
    have hv := (valid_new recency).run earlier
    have hf := (hv.tracks_register now w).run later
    rw [hb] at hf
    rw [run_append]
    exact isPending_iff.mpr ⟨_, hf.ticket?_eq_some_iff.mpr rfl⟩

end WantTable

open WantTable in
/-- What becomes of wants after any calls on a new table, and when the table is then given up. -/
theorem want_lifecycle (recency : Duration) (calls : List WantCall) :
    (∀ now w,
      let t := ((run { recency } calls).register now w).1
      let f := ((run { recency } calls).register now w).2
      f.cid = w.cid ∧
      (∀ between now' v, ((t.run between).register now' v).2.shares f = true ↔
        v = w ∧ firstBlock? w.cid between = none) ∧
      (∀ after, (t.run after).poll f = (firstBlock? w.cid after).elim .pending .delivered) ∧
      (∀ after, (t.run after).abandon.poll f =
        (firstBlock? w.cid after).elim .abandoned .delivered)) ∧
    (∀ b, ((run { recency } calls).resolve b).2 = true ↔
      ∃ w, w.cid = b.cid ∧ (run { recency } calls).isPending w = true) ∧
    ∀ w, (run { recency } calls).isPending w = true ↔
      ∃ earlier now later, calls = earlier ++ .register now w :: later ∧
        firstBlock? w.cid later = none := by
  have hv := (valid_new recency).run calls
  refine ⟨fun now w => ?_, hv.resolve_snd_iff, fun w => isPending_run_new_iff recency calls⟩
  have hf := hv.tracks_register now w
  refine ⟨hf.cid_eq, fun between now' v => ?_, fun after => (hf.run after).poll_eq, fun after => ?_⟩
  · rw [(hf.run between).shares_register_iff ((hv.register now w).run between), elim_eq_pending_iff]
  · rw [(hf.run after).abandon.poll_eq]
    cases firstBlock? w.cid after <;> rfl

end BlockExchange
