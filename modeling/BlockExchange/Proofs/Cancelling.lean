import BlockExchange.Proofs.Serving

/-!
# Requests that are taken back

A wantlist is read from its end, and the wants that were taken back are collected on the way. Seen
from the front, an entry makes a request unless a later one cancels its want (`Request.Stands`), and
what is in front of the entry does not matter (`requests_cons_of_stands`, `requests_append_congr`).
So the requests are those of the positions that stand, in their order (`later_cancels_only`).
-/

namespace BlockExchange

/-- The entry is for this want, however its identifier was spelled. -/
structure Entry.IsFor (e : Entry) (w : Want) : Prop where
  cid : Cid.ofBytes e.block = .ok w.cid
  auth : AuthToken.ofWire e.auth = w.auth

theorem Entry.toWant_eq_ok_iff_isFor {e : Entry} {w : Want} : e.toWant = .ok w ↔ e.IsFor w := by
  rw [toWant_eq_ok_iff]
  constructor
  · rintro ⟨cid, hcid, rfl⟩
    exact ⟨hcid, rfl⟩
  · rintro ⟨hcid, hauth⟩
    refine ⟨w.cid, hcid, ?_⟩
    rw [Want.ofWire, hauth]

/-- An entry among these takes the want back. -/
def Cancels (entries : List Entry) (w : Want) : Prop :=
  ∃ e ∈ entries, e.cancel = true ∧ e.IsFor w

theorem mem_foldr_collect_iff {entries : List Entry} {w : Want} :
    w ∈ (entries.foldr Request.collect ([], [])).2 ↔ Cancels entries w := by
  unfold Cancels
  simp only [← Entry.toWant_eq_ok_iff_isFor]
  induction entries with
  | nil => simp
  | cons e entries ih =>
    rw [List.foldr_cons, List.exists_mem_cons_iff, ← ih]
    generalize entries.foldr Request.collect ([], []) = collected
    unfold Request.collect
    cases hw : e.toWant with
    | error err => simp
    | ok v =>
      by_cases hcancel : e.cancel = true
      · simp [hcancel, eq_comm]
      · by_cases hv : v ∈ collected.2 <;> simp [hcancel, hv]

namespace Request
variable {e : Entry} {before after : List Entry} {r s : Request}

theorem ReadFrom.eq (hr : r.ReadFrom e) (hs : s.ReadFrom e) : r = s := by
  obtain ⟨want, type, sendDontHave⟩ := r
  obtain ⟨want', type', sendDontHave'⟩ := s
  obtain rfl : want = want' := Except.ok.inj (hr.want.symm.trans hs.want)
  obtain rfl : sendDontHave = sendDontHave' := hr.sendDontHave.trans hs.sendDontHave.symm
  have htype : type = .have ↔ type' = .have := hr.type.trans hs.type.symm
  cases type <;> cases type' <;> simp at htype ⊢

/-- The request is what the entry asks, and no later entry takes it back. -/
structure Stands (r : Request) (e : Entry) (after : List Entry) : Prop where
  asks : e.cancel = false
  readFrom : r.ReadFrom e
  kept : ¬ Cancels after r.want

theorem requests_cons_of_stands (h : r.Stands e after) :
    requests (e :: after) = r :: requests after := by
  obtain ⟨hasks, hread, hkept⟩ := h
  unfold requests
  rw [List.foldr_cons, collect, hread.want]
  show (if e.cancel = true then _ else _ : List Request × List Want).1 = _
  rw [if_neg (by rw [hasks]; exact Bool.false_ne_true), if_neg (mt mem_foldr_collect_iff.mp hkept)]
  show _ :: _ = _ :: _
  rw [hread.eq (readFrom_kind hread.want)]

theorem requests_cons_of_not_stands (h : ∀ r : Request, ¬ r.Stands e after) :
    requests (e :: after) = requests after := by
  unfold requests
  rw [List.foldr_cons, collect]
  cases hw : e.toWant with
  | error err => rfl
  | ok w =>
    show (if e.cancel = true then _ else _ : List Request × List Want).1 = _
    by_cases hcancel : e.cancel = true
    · rw [if_pos hcancel]
    · rw [if_neg hcancel]
      have hcancels : Cancels after w := by
        by_contra hkept
        exact h _ ⟨eq_false_of_ne_true hcancel, readFrom_kind hw, hkept⟩
      rw [if_pos (mem_foldr_collect_iff.mpr hcancels)]

theorem requests_subset_append (before after : List Entry) :
    requests after ⊆ requests (before ++ after) := by
  induction before with
  | nil => exact List.Subset.refl _
  | cons e before ih =>
    rw [List.cons_append]
    by_cases hr : ∃ r : Request, r.Stands e (before ++ after)
    · obtain ⟨r, hr⟩ := hr
      rw [requests_cons_of_stands hr]
      exact List.subset_cons_of_subset r ih
    · rw [requests_cons_of_not_stands fun r h => hr ⟨r, h⟩]
      exact ih

/-- What follows some entries matters to them only through what it takes back of theirs. -/
theorem requests_append_congr {after' : List Entry} (hafter : requests after = requests after')
    (hcancels : ∀ e ∈ before, e.cancel = false → ∀ w, e.IsFor w →
      (Cancels after w ↔ Cancels after' w)) :
    requests (before ++ after) = requests (before ++ after') := by
  induction before with
  | nil => exact hafter
  | cons e before ih =>
    have hrest := ih fun e' he' => hcancels e' (List.mem_cons_of_mem e he')
    have hstands (r : Request) : r.Stands e (before ++ after) ↔ r.Stands e (before ++ after') := by
      have hsame (hasks : e.cancel = false) (hread : r.ReadFrom e) :
          Cancels (before ++ after) r.want ↔ Cancels (before ++ after') r.want := by
        have hiff := hcancels e List.mem_cons_self hasks r.want
          (Entry.toWant_eq_ok_iff_isFor.mp hread.want)
        unfold Cancels at hiff ⊢
        simp only [List.mem_append, or_and_right, exists_or, hiff]
      constructor
      · rintro ⟨hasks, hread, hkept⟩
        exact ⟨hasks, hread, mt (hsame hasks hread).mpr hkept⟩
      · rintro ⟨hasks, hread, hkept⟩
        exact ⟨hasks, hread, mt (hsame hasks hread).mp hkept⟩
    by_cases hr : ∃ r : Request, r.Stands e (before ++ after)
    · obtain ⟨r, hr⟩ := hr
      rw [List.cons_append, List.cons_append, requests_cons_of_stands hr,
        requests_cons_of_stands ((hstands r).mp hr), hrest]
    · have hr' : ∀ r : Request, ¬ r.Stands e (before ++ after') := fun r h =>
        hr ⟨r, (hstands r).mpr h⟩
      rw [List.cons_append, List.cons_append, requests_cons_of_not_stands fun r h => hr ⟨r, h⟩,
        requests_cons_of_not_stands hr', hrest]

/-- The request stands at this position of a wantlist. -/
def StandsAt (entries : List Entry) (i : Nat) (r : Request) : Prop :=
  ∃ e, entries[i]? = some e ∧ r.Stands e (entries.drop (i + 1))

theorem standsAt_zero : StandsAt (e :: after) 0 r ↔ r.Stands e after := by
  simp [StandsAt]

theorem standsAt_succ {i : Nat} : StandsAt (e :: after) (i + 1) r ↔ StandsAt after i r := by
  simp [StandsAt]

theorem exists_positions (entries : List Entry) :
    ∃ positions : List Nat, positions.Pairwise (· < ·) ∧
      (∀ i, i ∈ positions ↔ ∃ r, StandsAt entries i r) ∧
      List.Forall₂ (StandsAt entries) positions (requests entries) := by
  induction entries with
  | nil => exact ⟨[], .nil, by simp [StandsAt], .nil⟩
  | cons e entries ih =>
    obtain ⟨positions, hsorted, hmem, hstands⟩ := ih
    have hsorted' : (positions.map (· + 1)).Pairwise (· < ·) :=
      hsorted.map _ fun i j hij => Nat.succ_lt_succ hij
    have hstands' : List.Forall₂ (StandsAt (e :: entries)) (positions.map (· + 1))
        (requests entries) :=
      List.forall₂_map_left_iff.mpr (hstands.imp fun i r => standsAt_succ.mpr)
    by_cases hr : ∃ r : Request, r.Stands e entries
    · obtain ⟨r, hr⟩ := hr
      refine ⟨0 :: positions.map (· + 1), ?_, ?_, ?_⟩
      · refine List.pairwise_cons.mpr ⟨fun i hi => ?_, hsorted'⟩
        obtain ⟨j, -, rfl⟩ := List.mem_map.mp hi
        exact Nat.succ_pos j
      · rintro (_ | i)
        · simp only [List.mem_cons_self, standsAt_zero, true_iff]
          exact ⟨r, hr⟩
        · simp [standsAt_succ, hmem]
      · rw [requests_cons_of_stands hr]
        exact .cons (standsAt_zero.mpr hr) hstands'
    · refine ⟨positions.map (· + 1), hsorted', ?_, ?_⟩
      · rintro (_ | i)
        · simp [standsAt_zero, hr]
        · simp [standsAt_succ, hmem]
      · rw [requests_cons_of_not_stands fun r h => hr ⟨r, h⟩]
        exact hstands'

end Request

open Request in
/-- The requests of a wantlist are those that stand, each of its own entry and in the order of the
entries. An entry that is for nothing has no influence, nor has one that cancels what no earlier one
asks for. -/
theorem later_cancels_only (entries : List Entry) :
    (∃ positions : List Nat, positions.Pairwise (· < ·) ∧
      (∀ i, i ∈ positions ↔ ∃ r, StandsAt entries i r) ∧
      List.Forall₂ (StandsAt entries) positions (requests entries)) ∧
    ∀ before e after, entries = before ++ e :: after →
      (∀ w, e.IsFor w → e.cancel = true ∧ ∀ e' ∈ before, e'.cancel = false → ¬ e'.IsFor w) →
      requests entries = requests (before ++ after) := by
  refine ⟨exists_positions entries, ?_⟩
  rintro before e after rfl hidle
  refine requests_append_congr ?_ fun e' he' hasks w hw => ?_
  · refine requests_cons_of_not_stands fun r hr => ?_
    have hcancel := (hidle r.want (Entry.toWant_eq_ok_iff_isFor.mp hr.readFrom.want)).1
    rw [hr.asks] at hcancel
    cases hcancel
  · have hother : ¬ e.IsFor w := fun h => (hidle w h).2 e' he' hasks hw
    simp [Cancels, hother]

/-- One want is taken back with a byte more behind its identifier, the other too early. -/
example :
    let hello : Want := ⟨.raw [104, 101, 108, 108, 111], none⟩
    let world : Want := ⟨.raw [119, 111, 114, 108, 100], none⟩
    requests [.want hello .block true, ⟨hello.cid.toBytes ++ [255], 1, true, 0, false, []⟩,
      .cancelling world, .want world .have false] = [⟨world, .have, false⟩] := by
  decide +kernel

end BlockExchange
