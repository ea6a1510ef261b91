import BlockExchange.WantTable

/-!
# Tickets

`ticket?` is the ticket under which a want is outstanding. `Tracks` says of a future that was given
out for a want what its outcome is and that nobody else has its ticket; registering, resolving and
giving up keep it, each with its own effect on the outcome. `Valid` is what every table that comes
about in this way has: each outstanding ticket is tracked as pending, and no identifier is left
without a want.

A table may keep its wants in any order, and in another one at any time (`Rearranged`). What is looked
up does not depend on it.
-/

namespace BlockExchange

namespace WantOutcome

def block? : WantOutcome → Option HashedBlock
  | .delivered b => some b
  | _ => none

/-- The outcome of a want for `cid` after a block has been resolved. -/
def resolved (cid : Cid) (b : HashedBlock) : WantOutcome → WantOutcome
  | .pending => if b.cid = cid then .delivered b else .pending
  | o => o

/-- The outcome after the table has been given up. -/
def givenUp : WantOutcome → WantOutcome
  | .pending => .abandoned
  | o => o

theorem resolved_eq_self {o : WantOutcome} {cid : Cid} {b : HashedBlock}
    (h : ¬ (o = .pending ∧ b.cid = cid)) : o.resolved cid b = o := by
  cases o with
  | pending => exact if_neg fun hb => h ⟨rfl, hb⟩
  | delivered _ => rfl
  | abandoned => rfl

theorem resolved_pending {cid : Cid} {b : HashedBlock} (h : b.cid = cid) :
    WantOutcome.pending.resolved cid b = .delivered b :=
  if_pos h

theorem resolved_eq_pending_iff {o : WantOutcome} {cid : Cid} {b : HashedBlock} :
    o.resolved cid b = .pending ↔ o = .pending ∧ b.cid ≠ cid := by
  cases o with
  | pending => unfold resolved; split <;> simp [*]
  | delivered _ => simp [resolved]
  | abandoned => simp [resolved]

theorem givenUp_ne_pending (o : WantOutcome) : o.givenUp ≠ .pending := by
  cases o <;> exact nofun

theorem block?_givenUp (o : WantOutcome) : o.givenUp.block? = o.block? := by
  cases o <;> rfl

end WantOutcome

theorem Want.eq_iff {v w : Want} : v = w ↔ v.cid = w.cid ∧ v.auth = w.auth := by
  cases v; cases w; exact Want.mk.injEq .. ▸ Iff.rfl

namespace WantTable

/-! ### Looking wants up -/

def registration? (t : WantTable) (w : Want) : Option Registration :=
  (t.registrations w.cid).get? w.auth

/-- The ticket of a want, if it is outstanding. -/
def ticket? (t : WantTable) (w : Want) : Option Nat :=
  (t.registration? w).map Registration.ticket

section
variable {t : WantTable} {w v : Want} {n : Nat}

theorem ticket?_eq_some_iff : t.ticket? w = some n ↔ ∃ r, t.registration? w = some r ∧ r.ticket = n :=
  Option.map_eq_some_iff

theorem registrations_of_get? {cid : Cid} {byToken : Table (Option AuthToken) Registration}
    (h : t.wants.get? cid = some byToken) : t.registrations cid = byToken := by
  rw [registrations, h]; rfl

theorem isPending_iff : t.isPending w = true ↔ ∃ n, t.ticket? w = some n := by
  have h : t.isPending w = (t.registration? w).isSome := by
    unfold isPending registration? registrations
    cases t.wants.get? w.cid <;> rfl
  rw [h, ← Option.isSome_map (f := Registration.ticket), Option.isSome_iff_exists]
  rfl

theorem any_ticket_iff {cid : Cid} :
    ((t.registrations cid).pairs.any fun (_, r) => r.ticket == n) = true ↔
      ∃ v, v.cid = cid ∧ t.ticket? v = some n := by
  rw [List.any_eq_true]
  constructor
  · rintro ⟨⟨auth, r⟩, hr, hn⟩
    exact ⟨⟨cid, auth⟩, rfl,
      ticket?_eq_some_iff.mpr ⟨r, (Table.get?_eq_some_iff _).mpr hr, beq_iff_eq.mp hn⟩⟩
  · rintro ⟨v, rfl, hv⟩
    obtain ⟨r, hr, hn⟩ := ticket?_eq_some_iff.mp hv
    exact ⟨(v.auth, r), (Table.get?_eq_some_iff _).mp hr, beq_iff_eq.mpr hn⟩

/-! ### Registering -/

theorem register_of_registered {r : Registration} (h : t.registration? w = some r) (now : Duration) :
    t.register now w = (t, ⟨w.cid, r.ticket⟩) := by
  unfold registration? at h
  unfold register
  simp only [h]

theorem register_of_absent (h : t.registration? w = none) (now : Duration) :
    t.register now w =
      ({ t with
          wants := t.wants.set w.cid ((t.registrations w.cid).set w.auth ⟨t.issued, now⟩)
          issued := t.issued + 1 },
        ⟨w.cid, t.issued⟩) := by
  unfold registration? at h
  unfold register
  simp only [h]

theorem registration?_register (t : WantTable) (now : Duration) (w v : Want) :
    (t.register now w).1.registration? v =
      if v = w then some ((t.registration? w).getD ⟨t.issued, now⟩) else t.registration? v := by
  cases h : t.registration? w with
  | some r =>
    rw [register_of_registered h]
    split
    · rename_i hv; rw [hv, h]; rfl
    · rfl
  | none =>
    rw [register_of_absent h]
    show ((Table.get? (t.wants.set w.cid _) v.cid).getD .empty).get? v.auth = _
    rw [Table.get?_set]
    by_cases hc : v.cid = w.cid
    · rw [if_pos hc, Option.getD_some, Table.get?_set]
      by_cases ha : v.auth = w.auth
      · rw [if_pos ha, if_pos (Want.eq_iff.mpr ⟨hc, ha⟩)]; rfl
      · rw [if_neg ha, if_neg fun hv => ha (Want.eq_iff.mp hv).2, ← hc]; rfl
    · rw [if_neg hc, if_neg fun hv => hc (Want.eq_iff.mp hv).1]; rfl

theorem ticket?_register (t : WantTable) (now : Duration) (w v : Want) :
    (t.register now w).1.ticket? v =
      if v = w then some ((t.ticket? w).getD t.issued) else t.ticket? v := by
  unfold ticket?
  rw [registration?_register]
  split
  · cases t.registration? w <;> rfl
  · rfl

theorem register_snd (t : WantTable) (now : Duration) (w : Want) :
    (t.register now w).2 = ⟨w.cid, (t.ticket? w).getD t.issued⟩ := by
  unfold ticket?
  cases h : t.registration? w with
  | some r => rw [register_of_registered h]; rfl
  | none => rw [register_of_absent h]; rfl

theorem issued_le_register (t : WantTable) (now : Duration) (w : Want) :
    t.issued ≤ (t.register now w).1.issued := by
  cases h : t.registration? w with
  | some r => exact Nat.le_of_eq (by rw [register_of_registered h])
  | none => rw [register_of_absent h]; exact Nat.le_succ _

theorem delivered_register (t : WantTable) (now : Duration) (w : Want) :
    (t.register now w).1.delivered = t.delivered := by
  cases h : t.registration? w with
  | some r => rw [register_of_registered h]
  | none => rw [register_of_absent h]

theorem isPending_register_iff {now : Duration} :
    (t.register now v).1.isPending w = true ↔ w = v ∨ t.isPending w = true := by
  rw [isPending_iff, isPending_iff, ticket?_register]
  split
  · rename_i hw; exact iff_of_true ⟨_, rfl⟩ (.inl hw)
  · rename_i hw; exact (or_iff_right hw).symm

/-! ### Resolving -/

theorem resolve_of_absent {b : HashedBlock} (h : t.wants.get? b.cid = none) :
    t.resolve b = (t, false) := by
  unfold resolve; rw [h]

theorem resolve_of_present {b : HashedBlock} {byToken : Table (Option AuthToken) Registration}
    (h : t.wants.get? b.cid = some byToken) :
    t.resolve b =
      ({ t with
          wants := t.wants.erase b.cid
          delivered := byToken.pairs.foldl (fun d p => d.set p.2.ticket b) t.delivered }, true) := by
  unfold resolve; rw [h]

/-- A block that nobody waits for changes nothing. -/
theorem resolve_fst_of_unwanted {b : HashedBlock} (h : (t.resolve b).2 = false) :
    (t.resolve b).1 = t := by
  cases hb : t.wants.get? b.cid with
  | none => rw [resolve_of_absent hb]
  | some byToken => rw [resolve_of_present hb] at h; cases h

theorem registration?_resolve (t : WantTable) (b : HashedBlock) (v : Want) :
    (t.resolve b).1.registration? v = if v.cid = b.cid then none else t.registration? v := by
  cases h : t.wants.get? b.cid with
  | none =>
    rw [resolve_of_absent h]
    split
    · rename_i hc
      show ((t.wants.get? v.cid).getD .empty).get? v.auth = none
      rw [hc, h]; rfl
    · rfl
  | some byToken =>
    rw [resolve_of_present h]
    show ((Table.get? (t.wants.erase b.cid) v.cid).getD .empty).get? v.auth = _
    rw [Table.get?_erase]
    split
    · rfl
    · rfl

theorem ticket?_resolve (t : WantTable) (b : HashedBlock) (v : Want) :
    (t.resolve b).1.ticket? v = if v.cid = b.cid then none else t.ticket? v := by
  unfold ticket?
  rw [registration?_resolve]
  split <;> rfl

theorem isPending_resolve_iff {b : HashedBlock} :
    (t.resolve b).1.isPending w = true ↔ w.cid ≠ b.cid ∧ t.isPending w = true := by
  rw [isPending_iff, isPending_iff, ticket?_resolve]
  split
  · rename_i hw; exact iff_of_false nofun fun h => h.1 hw
  · rename_i hw; exact (and_iff_right hw).symm

theorem issued_resolve (t : WantTable) (b : HashedBlock) : (t.resolve b).1.issued = t.issued := by
  unfold resolve; split <;> rfl

theorem get?_foldl_set (b : HashedBlock) (pairs : List (Option AuthToken × Registration))
    (d : Table Nat HashedBlock) (n : Nat) :
    (pairs.foldl (fun d p => d.set p.2.ticket b) d).get? n =
      if pairs.any (fun (_, r) => r.ticket == n) then some b else d.get? n := by
  induction pairs generalizing d with
  | nil => rfl
  | cons p pairs ih =>
    rw [List.foldl_cons, ih, Table.get?_set, List.any_cons]
    by_cases hp : n = p.2.ticket
    · subst hp; simp
    · have hp' : (p.2.ticket == n) = false := beq_eq_false_iff_ne.mpr (Ne.symm hp)
      rw [if_neg hp]
      show _ = if (p.2.ticket == n || _) = true then _ else _
      rw [hp', Bool.false_or]

theorem delivered_resolve_of_ticket {b : HashedBlock} (hc : v.cid = b.cid)
    (hv : t.ticket? v = some n) : (t.resolve b).1.delivered.get? n = some b := by
  have hany := any_ticket_iff.mpr ⟨v, hc, hv⟩
  cases h : t.wants.get? b.cid with
  | none =>
    rw [registrations, h] at hany
    cases hany
  | some byToken =>
    rw [registrations_of_get? h] at hany
    rw [resolve_of_present h]
    show (byToken.pairs.foldl _ t.delivered).get? n = some b
    rw [get?_foldl_set, if_pos hany]

theorem delivered_resolve_of_forall {b : HashedBlock}
    (hv : ∀ v, v.cid = b.cid → t.ticket? v ≠ some n) :
    (t.resolve b).1.delivered.get? n = t.delivered.get? n := by
  have hany := mt any_ticket_iff.mp fun ⟨v, hc, ht⟩ => hv v hc ht
  cases h : t.wants.get? b.cid with
  | none => rw [resolve_of_absent h]
  | some byToken =>
    rw [registrations_of_get? h] at hany
    rw [resolve_of_present h]
    show (byToken.pairs.foldl _ t.delivered).get? n = _
    rw [get?_foldl_set, if_neg hany]

/-! ### Giving up -/

theorem ticket?_abandon (t : WantTable) (v : Want) : t.abandon.ticket? v = none := rfl

/-! ### Another order -/

/-- The same wants, kept in any order. -/
structure Rearranged (t u : WantTable) : Prop where
  recency : u.recency = t.recency
  issued : u.issued = t.issued
  delivered : u.delivered = t.delivered
  wants : ∀ cid, (u.wants.get? cid).map Table.get? = (t.wants.get? cid).map Table.get?

theorem Rearranged.refl (t : WantTable) : t.Rearranged t :=
  ⟨rfl, rfl, rfl, fun _ => rfl⟩

theorem Rearranged.registration?_eq {u : WantTable} (h : t.Rearranged u) (w : Want) :
    u.registration? w = t.registration? w := by
  have hlookup : ∀ t : WantTable, t.registration? w =
      ((t.wants.get? w.cid).map Table.get?).bind fun get? => get? w.auth := by
    intro t
    unfold registration? registrations
    cases t.wants.get? w.cid <;> rfl
  rw [hlookup, hlookup, h.wants]

theorem Rearranged.ticket?_eq {u : WantTable} (h : t.Rearranged u) (w : Want) :
    u.ticket? w = t.ticket? w :=
  congrArg (Option.map Registration.ticket) (h.registration?_eq w)

end

/-! ### Following a future -/

/-- The future was given out for the want, and its outcome in the table is `o`. -/
structure Tracks (t : WantTable) (w : Want) (f : WantFuture) (o : WantOutcome) : Prop where
  cid_eq : f.cid = w.cid
  ticket_lt : f.ticket < t.issued
  delivered : t.delivered.get? f.ticket = o.block?
  ticket : ∀ v, t.ticket? v = some f.ticket ↔ v = w ∧ o = .pending

section
variable {t : WantTable} {w : Want} {f : WantFuture} {o : WantOutcome}

theorem Tracks.poll_eq (h : t.Tracks w f o) : t.poll f = o := by
  unfold poll
  rw [h.delivered]
  cases ho : o with
  | delivered b => rfl
  | pending =>
    show (if _ then WantOutcome.pending else _) = _
    rw [if_pos (any_ticket_iff.mpr ⟨w, h.cid_eq.symm, (h.ticket w).mpr ⟨rfl, ho⟩⟩)]
  | abandoned =>
    show (if _ then WantOutcome.pending else _) = _
    rw [if_neg fun hany => ?_]
    obtain ⟨v, -, hv⟩ := any_ticket_iff.mp hany
    rw [((h.ticket v).mp hv).2] at ho; cases ho

theorem Tracks.register (h : t.Tracks w f o) (now : Duration) (v : Want) :
    (t.register now v).1.Tracks w f o := by
  refine ⟨h.cid_eq, Nat.lt_of_lt_of_le h.ticket_lt (t.issued_le_register now v), ?_, fun u => ?_⟩
  · rw [delivered_register]; exact h.delivered
  · rw [ticket?_register, ← h.ticket u]
    split
    · rename_i hu
      subst hu
      cases hv : t.ticket? u with
      | some m => rfl
      -- a new registration gets a ticket above every earlier one
      | none => simp [Nat.ne_of_gt h.ticket_lt]
    · rfl

theorem Tracks.resolve (h : t.Tracks w f o) (b : HashedBlock) :
    (t.resolve b).1.Tracks w f (o.resolved w.cid b) := by
  refine ⟨h.cid_eq, by rw [issued_resolve]; exact h.ticket_lt, ?_, fun v => ?_⟩
  · by_cases hb : o = .pending ∧ b.cid = w.cid
    · obtain ⟨rfl, hb⟩ := hb
      rw [delivered_resolve_of_ticket hb.symm ((h.ticket w).mpr ⟨rfl, rfl⟩),
        WantOutcome.resolved_pending hb]
      rfl
    · rw [delivered_resolve_of_forall, h.delivered, WantOutcome.resolved_eq_self hb]
      intro v hv ht
      obtain ⟨rfl, ho⟩ := (h.ticket v).mp ht
      exact hb ⟨ho, hv.symm⟩
  · rw [ticket?_resolve, WantOutcome.resolved_eq_pending_iff]
    split
    · rename_i hv
      constructor
      · exact nofun
      · rintro ⟨rfl, -, hb⟩; exact absurd hv.symm hb
    · rename_i hv
      rw [h.ticket v]
      constructor
      · rintro ⟨rfl, ho⟩; exact ⟨rfl, ho, fun hb => hv hb.symm⟩
      · rintro ⟨hw, ho, -⟩; exact ⟨hw, ho⟩

theorem Tracks.abandon (h : t.Tracks w f o) : t.abandon.Tracks w f o.givenUp := by
  refine ⟨h.cid_eq, h.ticket_lt, ?_, fun v => ?_⟩
  · rw [WantOutcome.block?_givenUp]; exact h.delivered
  · rw [ticket?_abandon]
    exact ⟨nofun, fun hv => absurd hv.2 o.givenUp_ne_pending⟩

theorem Tracks.rearrange {u : WantTable} (h : t.Tracks w f o) (hu : t.Rearranged u) :
    u.Tracks w f o := by
  refine ⟨h.cid_eq, ?_, ?_, fun v => ?_⟩
  · rw [hu.issued]
    exact h.ticket_lt
  · rw [hu.delivered]
    exact h.delivered
  · rw [hu.ticket?_eq]
    exact h.ticket v

theorem Tracks.ticket?_eq_some_iff (h : t.Tracks w f o) :
    t.ticket? w = some f.ticket ↔ o = .pending := by
  rw [h.ticket w]; exact and_iff_right rfl

end

/-! ### Tables that come about -/

/-- What a table has in which wants were registered, resolved, given up and put into another order
only. -/
structure Valid (t : WantTable) : Prop where
  inhabited : ∀ cid byToken, t.wants.get? cid = some byToken → ∃ auth r, byToken.get? auth = some r
  tracks : ∀ w n, t.ticket? w = some n → t.Tracks w ⟨w.cid, n⟩ .pending
  delivered_lt : ∀ n b, t.delivered.get? n = some b → n < t.issued

section
variable {t : WantTable}

theorem valid_new (recency : Duration) : Valid { recency } where
  inhabited cid byToken h := by cases h
  tracks w n h := by cases h
  delivered_lt n b h := by cases h

theorem registration?_eq_none_of_ticket? {w : Want} (h : t.ticket? w = none) :
    t.registration? w = none :=
  Option.map_eq_none_iff.mp h

/-- The future that comes from registering a want is pending, whether it is a new one or not. -/
theorem Valid.tracks_register (h : t.Valid) (now : Duration) (w : Want) :
    (t.register now w).1.Tracks w (t.register now w).2 .pending := by
  rw [register_snd]
  cases hw : t.ticket? w with
  | some n => exact (h.tracks w n hw).register now w
  | none =>
    refine ⟨rfl, ?_, ?_, fun v => ?_⟩
    · rw [register_of_absent (registration?_eq_none_of_ticket? hw)]; exact Nat.lt_succ_self _
    · rw [delivered_register]
      cases hd : t.delivered.get? t.issued with
      | none => exact hd
      | some b => exact absurd (h.delivered_lt _ b hd) (Nat.lt_irrefl _)
    · rw [ticket?_register, hw]
      split
      · rename_i hv; exact iff_of_true rfl ⟨hv, rfl⟩
      · rename_i hv
        refine iff_of_false (fun ht => ?_) fun hv' => hv hv'.1
        exact absurd (h.tracks v _ ht).ticket_lt (Nat.lt_irrefl _)

theorem Valid.register (h : t.Valid) (now : Duration) (w : Want) : (t.register now w).1.Valid := by
  refine ⟨fun cid byToken hc => ?_, fun v n hv => ?_, fun n b hd => ?_⟩
  · cases hw : t.registration? w with
    | some r => rw [register_of_registered hw] at hc; exact h.inhabited cid byToken hc
    | none =>
      rw [register_of_absent hw] at hc
      rw [Table.get?_set] at hc
      split at hc
      · obtain rfl := Option.some.inj hc
        exact ⟨w.auth, ⟨t.issued, now⟩, by rw [Table.get?_set, if_pos rfl]⟩
      · exact h.inhabited cid byToken hc
  · have hw := h.tracks_register now w
    rw [register_snd] at hw
    rw [ticket?_register] at hv
    split at hv
    · rename_i hvw
      obtain rfl := Option.some.inj hv
      rw [hvw]; exact hw
    · exact (h.tracks v n hv).register now w
  · rw [delivered_register] at hd
    exact Nat.lt_of_lt_of_le (h.delivered_lt n b hd) (t.issued_le_register now w)

theorem Valid.resolve (h : t.Valid) (b : HashedBlock) : (t.resolve b).1.Valid := by
  refine ⟨fun cid byToken hc => ?_, fun v n hv => ?_, fun n c hd => ?_⟩
  · cases hb : t.wants.get? b.cid with
    | none => rw [resolve_of_absent hb] at hc; exact h.inhabited cid byToken hc
    | some bt =>
      rw [resolve_of_present hb, Table.get?_erase] at hc
      split at hc
      · cases hc
      · exact h.inhabited cid byToken hc
  · rw [ticket?_resolve] at hv
    split at hv
    · cases hv
    · rename_i hne
      have hr := (h.tracks v n hv).resolve b
      rwa [WantOutcome.resolved_eq_self fun hb => hne hb.2.symm] at hr
  · rw [issued_resolve]
    -- a block is handed out under outstanding tickets only, and these are tracked
    by_cases hn : ∃ v, v.cid = b.cid ∧ t.ticket? v = some n
    · obtain ⟨v, -, hv⟩ := hn
      exact (h.tracks v n hv).ticket_lt
    · rw [delivered_resolve_of_forall fun v hc hv => hn ⟨v, hc, hv⟩] at hd
      exact h.delivered_lt n c hd

theorem Valid.abandon (h : t.Valid) : t.abandon.Valid where
  inhabited cid byToken hc := by cases hc
  tracks w n hw := by cases hw
  delivered_lt := h.delivered_lt

theorem Valid.rearrange {u : WantTable} (h : t.Valid) (hu : t.Rearranged u) : u.Valid := by
  refine ⟨fun cid byToken hc => ?_, fun w n hw => ?_, fun n b hd => ?_⟩
  · have hwants := hu.wants cid
    rw [hc] at hwants
    obtain ⟨old, hold, hsame⟩ := Option.map_eq_some_iff.mp hwants.symm
    obtain ⟨auth, r, hr⟩ := h.inhabited cid old hold
    exact ⟨auth, r, hsame ▸ hr⟩
  · rw [hu.ticket?_eq] at hw
    exact (h.tracks w n hw).rearrange hu
  · rw [hu.delivered] at hd
    rw [hu.issued]
    exact h.delivered_lt n b hd

/-- Somebody was waiting for a block exactly when a want for it was pending. -/
theorem Valid.resolve_snd_iff (h : t.Valid) (b : HashedBlock) :
    (t.resolve b).2 = true ↔ ∃ w, w.cid = b.cid ∧ t.isPending w = true := by
  cases hb : t.wants.get? b.cid with
  | none =>
    rw [resolve_of_absent hb]
    refine iff_of_false (fun h => Bool.false_ne_true h) ?_
    rintro ⟨w, hc, hw⟩
    rw [isPending, hc, hb] at hw
    exact Bool.false_ne_true hw
  | some byToken =>
    rw [resolve_of_present hb]
    refine iff_of_true rfl ?_
    obtain ⟨auth, r, hr⟩ := h.inhabited _ byToken hb
    refine ⟨⟨b.cid, auth⟩, rfl, isPending_iff.mpr ⟨r.ticket, ?_⟩⟩
    exact ticket?_eq_some_iff.mpr ⟨r, by rw [registration?, registrations_of_get? hb]; exact hr, rfl⟩

end

end WantTable
end BlockExchange
