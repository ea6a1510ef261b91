import Mathlib.Data.Set.Card
import BlockExchange.Proofs.WantAges

/-!
# Pending wants, counted and listed

Whether there is a pending want at all is read off the identifiers of a table alone, while `size`,
`isPending` and `list` look at the tokens below them. They agree because no identifier is left
without a token (`Valid.inhabited`, which every call keeps): `Valid.isEmpty_iff_size` is where that
is needed. The wants that are listed for several peers are those that are pending, each once, so
their number is the size of the table (`encard_isPending`); a single peer is told of those that were
asked for a short while ago (`Dates.mem_list_iff`).
-/

namespace BlockExchange

theorem Table.isEmpty_eq_false_of_get? {α β : Type} [DecidableEq α] {t : Table α β} {a : α} {b : β}
    (h : t.get? a = some b) : t.isEmpty = false :=
  List.isEmpty_eq_false_iff.mpr (List.ne_nil_of_mem ((t.get?_eq_some_iff).mp h))

theorem Duration.lt_iff {a b : Duration} : a.lt b = true ↔ a.nanos < b.nanos :=
  decide_eq_true_iff

namespace WantTable
variable {t : WantTable} {calls : List WantCall} {w : Want} {peers : Nat}

/-! ### What is listed for several peers -/

theorem mem_list_iff_isPending (h : peers ≠ 1) (now : Duration) :
    w ∈ t.list now peers ↔ t.isPending w = true := by
  rw [mem_list_iff, isPending_iff_registration?]
  simp only [ne_eq, h, not_false_eq_true, true_or, and_true]

theorem length_list (h : peers ≠ 1) (t : WantTable) (now : Duration) :
    (t.list now peers).length = t.size := by
  unfold list size
  rw [length_flatMap_total]
  congr 1
  funext ⟨cid, byToken⟩
  rw [List.length_map, List.filter_eq_self.mpr fun p _ => by simp [h]]
  rfl

/-- A table counts the wants that are pending. -/
theorem encard_isPending (t : WantTable) : {w | t.isPending w = true}.encard = t.size := by
  have hlisted : {w | t.isPending w = true} = ((t.list ⟨0⟩ 0).toFinset : Set Want) := by
    ext w
    rw [List.coe_toFinset]
    exact (mem_list_iff_isPending Nat.zero_ne_one ⟨0⟩).symm
  rw [hlisted, Set.encard_coe_eq_coe_finsetCard, List.toFinset_card_of_nodup (t.nodup_list ..),
    length_list Nat.zero_ne_one]

/-! ### Identifiers without a want -/

theorem Valid.isEmpty_eq_false (h : t.Valid) {cid : Cid}
    {byToken : Table (Option AuthToken) Registration} (hb : t.wants.get? cid = some byToken) :
    byToken.isEmpty = false := by
  obtain ⟨auth, r, hr⟩ := h.inhabited cid byToken hb
  exact Table.isEmpty_eq_false_of_get? hr

/-- There is no identifier exactly when there is no want. -/
theorem Valid.isEmpty_iff_size (h : t.Valid) : t.isEmpty = true ↔ t.size = 0 := by
  constructor
  · intro hempty
    have hpairs : t.wants.pairs = [] := List.isEmpty_iff.mp hempty
    rw [size, hpairs, total_nil]
  · intro hsize
    by_contra hne
    -- the tokens below any one identifier are among those that are counted
    obtain ⟨⟨cid, byToken⟩, hmem⟩ := List.exists_mem_of_ne_nil _ (mt List.isEmpty_iff.mpr hne)
    have hbelow := h.isEmpty_eq_false ((t.wants.get?_eq_some_iff).mpr hmem)
    have hcount : 0 < byToken.size := List.length_pos_iff.mpr (List.isEmpty_eq_false_iff.mp hbelow)
    have hle : byToken.size ≤ t.size := le_total_of_mem hmem fun p => p.2.size
    omega

theorem Valid.isEmpty_eq (h : t.Valid) : t.isEmpty = !decide (0 < t.size) := by
  rw [Bool.eq_iff_iff, h.isEmpty_iff_size]
  simp

/-! ### When wants were asked for -/

theorem Dates.isPending_iff (h : t.Dates calls) :
    t.isPending w = true ↔ ∃ asked, firstAsked? calls w = some asked := by
  rw [isPending_iff_registration?, ← h w]
  simp only [Option.map_eq_some_iff]
  constructor
  · rintro ⟨r, hr⟩
    exact ⟨r.created, r, hr, rfl⟩
  · rintro ⟨asked, r, hr, -⟩
    exact ⟨r, hr⟩

theorem recency_call (t : WantTable) (c : WantCall) : (t.call c).recency = t.recency := by
  cases c with
  | register now w =>
    show (t.register now w).1.recency = _
    cases h : t.registration? w with
    | some r => rw [register_of_registered h]
    | none => rw [register_of_absent h]
  | resolve b =>
    show (t.resolve b).1.recency = _
    unfold resolve
    split <;> rfl

theorem recency_run (t : WantTable) (calls : List WantCall) :
    (t.run calls).recency = t.recency := by
  induction calls generalizing t with
  | nil => rfl
  | cons c calls ih => exact (ih (t.call c)).trans (t.recency_call c)

end WantTable

open WantTable in
/-- What a table tells of its wants after any calls, whatever moments these name: each identifier in
it has a want, so that all who count, list or look for wants agree; and a single peer is told of the
wants that were first asked for, since the last block for their identifier, less than the recency
ago. -/
theorem pending_wants_of_calls (recency : Duration) (calls : List WantCall) :
    let t := run { recency } calls
    (∀ cid byToken, t.wants.get? cid = some byToken → byToken.isEmpty = false) ∧
    t.hasPending = decide (0 < t.size) ∧ t.isEmpty = !decide (0 < t.size) ∧
    {w | t.isPending w = true}.encard = t.size ∧
    (∀ w, t.isPending w = true ↔ ∃ asked, firstAsked? calls w = some asked) ∧
    ∀ now,
      (∀ peers, peers ≠ 1 →
        (t.list now peers).Nodup ∧ ∀ w, w ∈ t.list now peers ↔ t.isPending w = true) ∧
      (t.list now 1).Nodup ∧
      ∀ w, w ∈ t.list now 1 ↔ ∃ asked, firstAsked? calls w = some asked ∧
        now.nanos - asked.nanos < recency.nanos := by
  intro t
  have hv : t.Valid := (valid_new recency).run calls
  have hd : t.Dates calls := (dates_of_empty (t := { recency }) rfl).run calls
  refine ⟨fun cid byToken => hv.isEmpty_eq_false, ?_, hv.isEmpty_eq, t.encard_isPending,
    fun w => hd.isPending_iff, fun now => ⟨fun peers hpeers => ?_, t.nodup_list now 1,
    fun w => ?_⟩⟩
  · rw [hasPending, ← isEmpty, hv.isEmpty_eq, Bool.not_not]
  · exact ⟨t.nodup_list now peers, fun w => mem_list_iff_isPending hpeers now⟩
  · have hrecency : t.recency = recency := recency_run { recency } calls
    rw [hd.mem_list_iff, hrecency]
    simp only [true_implies, Duration.lt_iff]
    rfl

open WantTable in
/-- Two wants for one identifier, the first of them asked for twice: that does not make it younger.
A third is gone with its block, and the last call names an earlier moment than those before it. -/
theorem pending_wants_of_calls_repeated :
    let w : Want := { cid := .raw [1, 2, 3] }
    let v : Want := { cid := .raw [1, 2, 3], auth := some ⟨[9]⟩ }
    let b : HashedBlock := .raw [4]
    let t := run { recency := ⟨10⟩ } [.register ⟨3⟩ { cid := b.cid }, .register ⟨4⟩ w,
      .register ⟨9⟩ w, .resolve b, .register ⟨7⟩ v]
    (2 ≠ 1 ∧ (t.list ⟨15⟩ 2).Nodup ∧ ∀ u, u ∈ t.list ⟨15⟩ 2 ↔ t.isPending u = true) ∧
    t.size = 2 ∧ t.list ⟨15⟩ 2 = [w, v] ∧ t.list ⟨15⟩ 1 = [v] ∧ t.list ⟨5⟩ 1 = [w, v] := by
  intro w v b t
  have htwo : 2 ≠ 1 := by decide
  obtain ⟨-, -, -, -, -, hlist⟩ := pending_wants_of_calls ⟨10⟩ [.register ⟨3⟩ { cid := b.cid },
    .register ⟨4⟩ w, .register ⟨9⟩ w, .resolve b, .register ⟨7⟩ v]
  have hmany := (hlist ⟨15⟩).1 2 htwo
  have htold : t.size = 2 ∧ t.list ⟨15⟩ 2 = [w, v] ∧ t.list ⟨15⟩ 1 = [v] ∧
      t.list ⟨5⟩ 1 = [w, v] := by
    decide +kernel
  exact ⟨⟨htwo, hmany⟩, htold⟩

end BlockExchange
