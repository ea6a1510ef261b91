import BlockExchange.Proofs.HonestReplies

/-!
# Payloads in any order

Connections take their messages in side by side, so the blocks of one message may come between those
of another. `Arrives` is what an exchange goes through then: the records are taken in one by one, and
in between happens anything that leaves the wants and the count of blocks alone. What comes out
depends on which records came and not on their order (`payloads_commute`). The futures and the wants
are those of the verified blocks, of which only membership matters, and the counters are settled by
`Counted`; which of several records for an identifier is the one that counts as received is a matter
of order, that it is exactly one is not.
-/

namespace BlockExchange.Exchange

variable {σ : Type}

/-- Somebody waits for a block of this name. -/
def Awaits (x : Exchange σ) (cid : Cid) : Prop :=
  ∃ w, w.cid = cid ∧ x.wants.isPending w = true

theorem awaits_register (x : Exchange σ) (now : Duration) (w : Want) :
    (x.register now w).1.Awaits w.cid :=
  ⟨w, rfl, WantTable.isPending_register_iff.mpr (.inl rfl)⟩

/-! ### Exchanges that agree on wants and blocks -/

structure SameBlocks (x y : Exchange σ) : Prop where
  wants : y.wants = x.wants
  received : y.journal.counters.blocksReceived = x.journal.counters.blocksReceived
  rejected : y.journal.counters.blocksRejected = x.journal.counters.blocksRejected
  unwanted : y.journal.counters.unwantedBlocks = x.journal.counters.unwantedBlocks

namespace SameBlocks
variable {x y z : Exchange σ}

theorem refl (x : Exchange σ) : SameBlocks x x := ⟨rfl, rfl, rfl, rfl⟩

theorem trans (h : SameBlocks x y) (h' : SameBlocks y z) : SameBlocks x z :=
  ⟨h'.wants.trans h.wants, h'.received.trans h.received, h'.rejected.trans h.rejected,
    h'.unwanted.trans h.unwanted⟩

theorem absorbBlock (h : SameBlocks x y) (r : BlockRecord) :
    SameBlocks (x.absorbBlock r) (y.absorbBlock r) := by
  rcases x.absorbBlock_cases r with ⟨e, hr, hx⟩ | ⟨c, hr, hw, hx⟩ | ⟨c, hr, hw, hx⟩ <;> rw [hx]
  · rw [absorbBlock_of_error hr]
    exact ⟨h.wants, h.received, congrArg (· + 1) h.rejected, h.unwanted⟩
  · rw [← h.wants] at hw
    rw [absorbBlock_of_wanted hr hw]
    exact ⟨by rw [h.wants], congrArg (· + 1) h.received, h.rejected, h.unwanted⟩
  · rw [← h.wants] at hw
    rw [absorbBlock_of_unwanted hr hw]
    exact ⟨h.wants, h.received, h.rejected, congrArg (· + 1) h.unwanted⟩

theorem foldl_absorbBlock (h : SameBlocks x y) (rs : List BlockRecord) :
    SameBlocks (rs.foldl Exchange.absorbBlock x) (rs.foldl Exchange.absorbBlock y) := by
  induction rs generalizing x y with
  | nil => exact h
  | cons r rs ih => exact ih (h.absorbBlock r)

end SameBlocks

/-! ### Records that arrive -/

/-- A block record whose turn has come, and the exchange as it is then. -/
structure Arrival (σ : Type) where
  found : Exchange σ
  record : BlockRecord

namespace Arrival

def left (a : Arrival σ) : Exchange σ :=
  a.found.absorbBlock a.record

/-- Whether the record is content of this name. -/
def brings (cid : Cid) (a : Arrival σ) : Bool :=
  a.record.toHashed.toOption.any (·.cid = cid)

def isReceived (a : Arrival σ) : Bool :=
  a.found.journal.counters.blocksReceived < a.left.journal.counters.blocksReceived

def isUnwanted (a : Arrival σ) : Bool :=
  a.found.journal.counters.unwantedBlocks < a.left.journal.counters.unwantedBlocks

variable {a : Arrival σ} {cid : Cid} {c : HashedBlock}

theorem brings_of_error {e : BlockError} (h : a.record.toHashed = .error e) :
    a.brings cid = false := by
  rw [brings, h]
  rfl

theorem brings_of_ok (h : a.record.toHashed = .ok c) : a.brings cid = decide (c.cid = cid) := by
  rw [brings, h]
  rfl

/-- Content counts as received exactly when somebody waits for it, and otherwise as unwanted. -/
theorem counted_iff (hv : a.found.wants.Valid) (hb : a.brings cid = true) :
    (a.isReceived = true ↔ a.found.Awaits cid) ∧ (a.isUnwanted = true ↔ ¬ a.found.Awaits cid) := by
  unfold isReceived isUnwanted left
  rw [decide_eq_true_iff, decide_eq_true_iff]
  rcases a.found.absorbBlock_cases a.record with ⟨e, hr, hx⟩ | ⟨c, hr, hw, hx⟩ | ⟨c, hr, hw, hx⟩
  · rw [brings_of_error hr] at hb
    cases hb
  · rw [brings_of_ok hr, decide_eq_true_iff] at hb
    have hawaits : a.found.Awaits cid := hb ▸ (hv.resolve_snd_iff c).mp hw
    rw [hx]
    exact ⟨iff_of_true (Nat.lt_succ_self _) hawaits,
      iff_of_false (Nat.lt_irrefl _) (not_not_intro hawaits)⟩
  · rw [brings_of_ok hr, decide_eq_true_iff] at hb
    have hawaits : ¬ a.found.Awaits cid := by
      intro hp
      rw [(hv.resolve_snd_iff c).mpr (hb ▸ hp)] at hw
      cases hw
    rw [hx]
    exact ⟨iff_of_false (Nat.lt_irrefl _) hawaits, iff_of_true (Nat.lt_succ_self _) hawaits⟩

/-- A name is waited for until content of that name arrives. -/
theorem awaits_left_iff (hv : a.found.wants.Valid) :
    a.left.Awaits cid ↔ a.found.Awaits cid ∧ a.brings cid = false := by
  unfold left Awaits
  rcases a.found.absorbBlock_cases a.record with ⟨e, hr, hx⟩ | ⟨c, hr, hw, hx⟩ | ⟨c, hr, hw, hx⟩ <;>
    rw [hx]
  · rw [brings_of_error hr]
    exact (and_iff_left rfl).symm
  · rw [brings_of_ok hr, decide_eq_false_iff_not]
    simp only [WantTable.isPending_resolve_iff]
    constructor
    · rintro ⟨w, rfl, hne, hp⟩
      exact ⟨⟨w, rfl, hp⟩, fun hc => hne hc.symm⟩
    · rintro ⟨⟨w, rfl, hp⟩, hne⟩
      exact ⟨w, rfl, fun hc => hne hc.symm, hp⟩
  · rw [brings_of_ok hr, decide_eq_false_iff_not]
    refine (and_iff_left_of_imp ?_).symm
    rintro ⟨w, hcid, hp⟩ hc
    rw [(hv.resolve_snd_iff c).mpr ⟨w, hcid.trans hc.symm, hp⟩] at hw
    cases hw

theorem valid_left (hv : a.found.wants.Valid) : a.left.wants.Valid := by
  rcases wants_absorbBlock a.found a.record with hw | ⟨c, hw⟩ <;> rw [left, hw]
  · exact hv
  · exact hv.resolve c

end Arrival

/-- Block records arrive at an exchange, and nobody registers a want meanwhile. -/
inductive Arrives : Exchange σ → List (Arrival σ) → Exchange σ → Prop
  | done (x : Exchange σ) : Arrives x [] x
  | block {x y : Exchange σ} {as : List (Arrival σ)} (r : BlockRecord)
      (h : Arrives (x.absorbBlock r) as y) : Arrives x (⟨x, r⟩ :: as) y
  | quiet {x z y : Exchange σ} {as : List (Arrival σ)} (hq : SameBlocks x z) (h : Arrives z as y) :
      Arrives x as y

/-- The arrivals of records that come right after one another. -/
def arrivals (x : Exchange σ) : List BlockRecord → List (Arrival σ)
  | [] => []
  | r :: rs => ⟨x, r⟩ :: arrivals (x.absorbBlock r) rs

theorem map_record_arrivals (x : Exchange σ) (rs : List BlockRecord) :
    (x.arrivals rs).map Arrival.record = rs := by
  induction rs generalizing x with
  | nil => rfl
  | cons r rs ih => exact congrArg (r :: ·) (ih (x.absorbBlock r))

section
variable {x y z : Exchange σ} {as bs : List (Arrival σ)} {cid : Cid}

theorem Arrives.append (h : Arrives x as y) (h' : Arrives y bs z) : Arrives x (as ++ bs) z := by
  induction h with
  | done => exact h'
  | block r _ ih => exact .block r (ih h')
  | quiet hq _ ih => exact .quiet hq (ih h')

theorem arrives_arrivals (x : Exchange σ) (rs : List BlockRecord) :
    Arrives x (x.arrivals rs) (rs.foldl absorbBlock x) := by
  induction rs generalizing x with
  | nil => exact .done x
  | cons r rs ih => exact .block r (ih (x.absorbBlock r))

/-- A message that is received at one go. -/
theorem arrives_receive [BlockStore σ] {peer : PeerId} {m : Message} {frames : List Message}
    (h : x.receive peer m = .ok (y, frames)) : Arrives x (x.arrivals m.payload) y := by
  rw [receive_eq] at h
  obtain ⟨rfl, -⟩ := Prod.mk.inj (Except.ok.inj h)
  have hquiet : SameBlocks (m.payload.foldl absorbBlock x) (x.absorb peer m) := by
    rw [absorb_eq]
    exact ⟨rfl, rfl, rfl, rfl⟩
  have hall := (arrives_arrivals x m.payload).append (.quiet hquiet (.done _))
  rwa [List.append_nil] at hall

/-- What happens between the records does not matter. -/
theorem Arrives.sameBlocks (h : Arrives x as y) :
    SameBlocks ((as.map Arrival.record).foldl absorbBlock x) y := by
  induction h with
  | done x => exact .refl x
  | block r _ ih => exact ih
  | quiet hq _ ih => exact (hq.foldl_absorbBlock _).trans ih

/-! ### How the records for one name are counted -/

theorem Arrives.received_add_unwanted (h : Arrives x as y) (hv : x.wants.Valid) (cid : Cid) :
    as.countP (fun a => a.brings cid && a.isReceived) +
      as.countP (fun a => a.brings cid && a.isUnwanted) = as.countP (Arrival.brings cid) := by
  induction h with
  | done => rfl
  | @block x _ as r _ ih =>
    have hrest := ih (Arrival.valid_left (a := ⟨x, r⟩) hv)
    simp only [List.countP_cons]
    cases hb : Arrival.brings cid ⟨x, r⟩ with
    | false => exact hrest
    | true =>
      obtain ⟨hr, hu⟩ := Arrival.counted_iff (a := ⟨x, r⟩) hv hb
      by_cases hw : x.Awaits cid
      · rw [hr.mpr hw, Bool.eq_false_iff.mpr (mt hu.mp (not_not_intro hw))]
        simp only [Bool.and_true, Bool.and_false, Bool.false_eq_true, if_true, if_false]
        omega
      · rw [hu.mpr hw, Bool.eq_false_iff.mpr (mt hr.mp hw)]
        simp only [Bool.and_true, Bool.and_false, Bool.false_eq_true, if_true, if_false]
        omega
  | quiet hq _ ih => exact ih (by rw [hq.wants]; exact hv)

theorem Arrives.received_of_not_awaits (h : Arrives x as y) (hv : x.wants.Valid)
    (hw : ¬ x.Awaits cid) : as.countP (fun a => a.brings cid && a.isReceived) = 0 := by
  induction h with
  | done => rfl
  | @block x _ as r _ ih =>
    have hrest := ih (Arrival.valid_left (a := ⟨x, r⟩) hv)
      fun hp => hw ((Arrival.awaits_left_iff (a := ⟨x, r⟩) hv).mp hp).1
    rw [List.countP_cons_of_neg, hrest]
    intro hboth
    obtain ⟨hb, hr⟩ := Bool.and_eq_true_iff.mp hboth
    exact hw ((Arrival.counted_iff hv hb).1.mp hr)
  | quiet hq _ ih =>
    exact ih (by rw [hq.wants]; exact hv) (by unfold Awaits; rw [hq.wants]; exact hw)

/-- The first record for a name that is waited for counts as received, and no other. -/
theorem Arrives.received_of_awaits (h : Arrives x as y) (hv : x.wants.Valid) (hw : x.Awaits cid)
    (hk : 0 < as.countP (Arrival.brings cid)) :
    as.countP (fun a => a.brings cid && a.isReceived) = 1 := by
  induction h with
  | done => exact absurd hk (Nat.lt_irrefl 0)
  | @block x _ as r hrest ih =>
    have hvalid := Arrival.valid_left (a := ⟨x, r⟩) hv
    have hleft : Exchange.Awaits (Arrival.left ⟨x, r⟩) cid ↔
        x.Awaits cid ∧ Arrival.brings cid ⟨x, r⟩ = false := Arrival.awaits_left_iff hv
    cases hb : Arrival.brings cid ⟨x, r⟩ with
    | true =>
      have hnone := hrest.received_of_not_awaits hvalid
        fun hp => Bool.false_ne_true ((hleft.mp hp).2.symm.trans hb)
      rw [List.countP_cons_of_pos, hnone]
      exact Bool.and_eq_true_iff.mpr ⟨hb, (Arrival.counted_iff hv hb).1.mpr hw⟩
    | false =>
      rw [List.countP_cons_of_neg (Bool.eq_false_iff.mp hb)] at hk
      rw [List.countP_cons_of_neg, ih hvalid (hleft.mpr ⟨hw, hb⟩) hk]
      rw [hb]
      exact Bool.false_ne_true
  | quiet hq _ ih =>
    exact ih (by rw [hq.wants]; exact hv) (by unfold Awaits; rw [hq.wants]; exact hw) hk

theorem countP_brings (as : List (Arrival σ)) (cid : Cid) :
    as.countP (Arrival.brings cid) =
      ((verified (as.map Arrival.record)).map HashedBlock.cid).count cid := by
  induction as with
  | nil => rfl
  | cons a as ih =>
    cases hr : a.record.toHashed with
    | error e =>
      rw [List.map_cons, verified_cons_of_error hr, ← ih, List.countP_cons_of_neg]
      rw [Arrival.brings_of_error hr]
      exact Bool.false_ne_true
    | ok c =>
      rw [List.map_cons, verified_cons_of_ok hr, List.map_cons, List.count_cons, ← ih,
        List.countP_cons, Arrival.brings_of_ok hr]
      rfl

end

/-! ### The same records in two orders -/

/-- Nobody can tell two exchanges apart by the wants, by the futures that were given out or by the
counters of blocks. -/
structure SameOutcome (given : List (Want × WantFuture)) (y z : Exchange σ) : Prop where
  isPending : ∀ w, y.wants.isPending w = z.wants.isPending w
  waiting : ∀ w f, (w, f) ∈ given → (y.wants.poll f = .pending ↔ z.wants.poll f = .pending)
  completed : ∀ w f, (w, f) ∈ given →
    (y.wants.poll f).block?.map HashedBlock.cid = (z.wants.poll f).block?.map HashedBlock.cid
  received : y.journal.counters.blocksReceived = z.journal.counters.blocksReceived
  rejected : y.journal.counters.blocksRejected = z.journal.counters.blocksRejected
  unwanted : y.journal.counters.unwantedBlocks = z.journal.counters.unwantedBlocks

section
variable {x y z : Exchange σ} {given : List (Want × WantFuture)} {rs rs' : List BlockRecord}

theorem perm_verified (h : rs.Perm rs') : (verified rs).Perm (verified rs') :=
  h.filterMap _

theorem Counted.perm {fresh fresh' : List Cid} (h : Counted x y rs fresh)
    (h' : Counted x z rs' fresh') (hp : rs.Perm rs') : fresh.Perm fresh' := by
  rw [List.perm_ext_iff_of_nodup h.nodup h'.nodup]
  intro cid
  rw [h.mem_iff, h'.mem_iff, ((perm_verified hp).map HashedBlock.cid).mem_iff]

theorem block?_elim (b? : Option HashedBlock) :
    (b?.elim WantOutcome.pending .delivered).block? = b? := by
  cases b? <;> rfl

/-- Which block of a name comes first is a matter of order, what its name is is not. -/
theorem map_cid_find? (bs : List HashedBlock) (cid : Cid) :
    (bs.find? fun b => b.cid = cid).map HashedBlock.cid =
      if cid ∈ bs.map HashedBlock.cid then some cid else none := by
  cases hb : bs.find? fun b => b.cid = cid with
  | some b =>
    have hcid : b.cid = cid := by simpa using List.find?_some hb
    rw [if_pos (List.mem_map.mpr ⟨b, List.mem_of_find?_eq_some hb, hcid⟩), Option.map_some, hcid]
  | none =>
    rw [if_neg, Option.map_none]
    intro hmem
    obtain ⟨b, hmem, hcid⟩ := List.mem_map.mp hmem
    exact List.find?_eq_none.mp hb b hmem (decide_eq_true hcid)

/-- The outcome of a future after records have been taken in. -/
theorem poll_foldl_absorbBlock (h : x.wants.Honours given) {w : Want} {f : WantFuture}
    (hf : (w, f) ∈ given) (rs : List BlockRecord) :
    (x.wants.poll f ≠ .pending → (rs.foldl absorbBlock x).wants.poll f = x.wants.poll f) ∧
    (x.wants.poll f = .pending → (rs.foldl absorbBlock x).wants.poll f =
      ((verified rs).find? fun b => b.cid = w.cid).elim .pending .delivered) := by
  have htracks := (h.tracks_poll hf).1
  rw [wants_foldl_absorbBlock]
  refine ⟨fun hdone => (htracks.run_of_ne_pending hdone _).poll_eq, fun hwaits => ?_⟩
  rw [hwaits] at htracks
  rw [(htracks.run _).poll_eq, WantTable.firstBlock?_resolves]

theorem isPending_foldl_absorbBlock_iff {w : Want} :
    (rs.foldl absorbBlock x).wants.isPending w = true ↔
      x.wants.isPending w = true ∧ w.cid ∉ (verified rs).map HashedBlock.cid := by
  rw [wants_foldl_absorbBlock, WantTable.isPending_run_resolves_iff]
  refine and_congr_right fun _ => ⟨fun h hmem => ?_, fun h b hb hcid => ?_⟩
  · obtain ⟨b, hb, hcid⟩ := List.mem_map.mp hmem
    exact h b hb hcid
  · exact h (List.mem_map.mpr ⟨b, hb, hcid⟩)

theorem sameOutcome_of_perm (h : x.wants.Honours given) (hp : rs.Perm rs') :
    SameOutcome given (rs.foldl absorbBlock x) (rs'.foldl absorbBlock x) := by
  have hverified := perm_verified hp
  have hmem : ∀ cid, cid ∈ (verified rs).map HashedBlock.cid ↔
      cid ∈ (verified rs').map HashedBlock.cid := fun cid =>
    (hverified.map HashedBlock.cid).mem_iff
  obtain ⟨fresh, hc⟩ := exists_counted h.valid rs
  obtain ⟨fresh', hc'⟩ := exists_counted h.valid rs'
  have hfresh := (hc.perm hc' hp).length_eq
  refine ⟨fun w => ?_, fun w f hf => ?_, fun w f hf => ?_, ?_, ?_, ?_⟩
  · rw [Bool.eq_iff_iff, isPending_foldl_absorbBlock_iff, isPending_foldl_absorbBlock_iff, hmem]
  · obtain ⟨hdone, hwaits⟩ := poll_foldl_absorbBlock h hf rs
    obtain ⟨hdone', hwaits'⟩ := poll_foldl_absorbBlock h hf rs'
    by_cases hpoll : x.wants.poll f = .pending
    · rw [hwaits hpoll, hwaits' hpoll, WantTable.elim_eq_pending_iff, WantTable.elim_eq_pending_iff,
        List.find?_eq_none, List.find?_eq_none]
      exact forall_congr' fun b => by rw [hverified.mem_iff]
    · rw [hdone hpoll, hdone' hpoll]
  · obtain ⟨hdone, hwaits⟩ := poll_foldl_absorbBlock h hf rs
    obtain ⟨hdone', hwaits'⟩ := poll_foldl_absorbBlock h hf rs'
    by_cases hpoll : x.wants.poll f = .pending
    · rw [hwaits hpoll, hwaits' hpoll, block?_elim, block?_elim, map_cid_find?, map_cid_find?]
      simp only [hmem]
    · rw [hdone hpoll, hdone' hpoll]
  · rw [hc.received, hc'.received, hfresh]
  · have hrejected := hc.rejected
    have hrejected' := hc'.rejected
    rw [hverified.length_eq, hp.length_eq] at hrejected
    omega
  · have hunwanted := hc.unwanted
    have hunwanted' := hc'.unwanted
    rw [hverified.length_eq, hfresh] at hunwanted
    omega

theorem SameOutcome.congr {y' z' : Exchange σ} (h : SameOutcome given y z) (hy : SameBlocks y y')
    (hz : SameBlocks z z') : SameOutcome given y' z' := by
  refine ⟨?_, ?_, ?_, ?_, ?_, ?_⟩
  · rw [hy.wants, hz.wants]; exact h.isPending
  · rw [hy.wants, hz.wants]; exact h.waiting
  · rw [hy.wants, hz.wants]; exact h.completed
  · rw [hy.received, hz.received]; exact h.received
  · rw [hy.rejected, hz.rejected]; exact h.rejected
  · rw [hy.unwanted, hz.unwanted]; exact h.unwanted

/-- In every run, the blocks of any messages can be taken in in any order, with anything but a
registration in between: the wants, the futures and the counters come out the same, and of the
verified blocks of a name that was waited for one counts as received and the others as unwanted. -/
theorem payloads_commute [BlockStore σ] (h : Run x given) (inbound : List (PeerId × Message))
    {as as' : List (Arrival σ)} (hy : Arrives x as y) (hz : Arrives x as' z)
    (ho : (as.map Arrival.record).Perm (inbound.flatMap (·.2.payload)))
    (ho' : (as'.map Arrival.record).Perm (inbound.flatMap (·.2.payload))) :
    SameOutcome given y z ∧
    ∀ cid k, ((verified (inbound.flatMap (·.2.payload))).map HashedBlock.cid).count cid = k →
      1 ≤ k → x.Awaits cid →
      as.countP (fun a => a.brings cid && a.isReceived) = 1 ∧
      as.countP (fun a => a.brings cid && a.isUnwanted) = k - 1 := by
  refine ⟨(sameOutcome_of_perm h.honours (ho.trans ho'.symm)).congr hy.sameBlocks hz.sameBlocks,
    fun cid k hk hpos hw => ?_⟩
  have hcarried : as.countP (Arrival.brings cid) = k := by
    rw [countP_brings, ((perm_verified ho).map HashedBlock.cid).count_eq, hk]
  have hreceived := hy.received_of_awaits h.honours.valid hw (by omega)
  have htotal := hy.received_add_unwanted h.honours.valid cid
  exact ⟨hreceived, by omega⟩

/-- A block that is wanted under two tokens is brought by two peers, one of which sends bytes without
a name as well. The messages are received one after the other, or the second comes before the block
of the first. -/
theorem payloads_commute_two_peers :
    let b : HashedBlock := .raw [1, 2, 3]
    let w : Want := { cid := b.cid }
    let v : Want := { cid := b.cid, auth := some ⟨[9]⟩ }
    let x₀ : Exchange MemoryStore := .new {} {} .allowAll .disabled
    let x₁ := (x₀.register ⟨0⟩ w).1
    let x := (x₁.register ⟨5⟩ v).1
    let given := [(w, (x₀.register ⟨0⟩ w).2), (v, (x₁.register ⟨5⟩ v).2)]
    let near : PeerId := ⟨⟨Multihash.identity, [1, 2], by decide⟩, .inr ⟨rfl, by decide⟩⟩
    let far : PeerId := ⟨⟨Multihash.identity, [3], by decide⟩, .inr ⟨rfl, by decide⟩⟩
    let bad : BlockRecord := { cidPrefix := [9] }
    let good : BlockRecord := .ofParts b.cid b.data none
    let m : Message := { payload := [bad, good] }
    let n : Message := { payload := [good] }
    ∃ as y, Run x given ∧ x.Awaits b.cid ∧ Arrives x as y ∧
      Arrives x (x.arrivals [bad, good, good]) ([bad, good, good].foldl absorbBlock x) ∧
      (as.map Arrival.record).Perm ([(near, m), (far, n)].flatMap (·.2.payload)) ∧
      SameOutcome given y ([bad, good, good].foldl absorbBlock x) ∧
      as.countP (fun a => a.brings b.cid && a.isReceived) = 1 ∧
      as.countP (fun a => a.brings b.cid && a.isUnwanted) = 1 := by
  intro b w v x₀ x₁ x given near far bad good m n
  have h₀ : Run x₀ [] := .start {} x₀.store .allowAll .disabled
  have h₁ : Run x₁ [(w, (x₀.register ⟨0⟩ w).2)] := h₀.step (.register ⟨0⟩ w)
  have h₂ : Run x given := h₁.step (.register ⟨5⟩ v)
  have hw : x.Awaits b.cid := awaits_register x₁ ⟨5⟩ v
  have hm := arrives_receive (receive_eq x near m)
  have hn := arrives_receive (receive_eq (x.absorb near m) far n)
  have hrecords : ((x.arrivals m.payload ++ (x.absorb near m).arrivals n.payload).map
      Arrival.record) = [bad, good, good] := by
    rw [List.map_append, map_record_arrivals, map_record_arrivals]
    rfl
  have hbad : bad.toHashed = .error (.invalidPrefix (.cid .unknownVersion)) := by rfl
  have hgood : good.toHashed = .ok b := BlockRecord.toHashed_ofParts b.names none
  have hcarried : ((verified [bad, good, good]).map HashedBlock.cid).count b.cid = 2 := by
    rw [verified_cons_of_error hbad, verified_cons_of_ok hgood, verified_cons_of_ok hgood,
      List.map_cons, List.map_cons, List.count_cons_self, List.count_cons_self]
    rfl
  have hperm := List.Perm.refl [bad, good, good]
  have hflat := arrives_arrivals x [bad, good, good]
  have ho : ((x.arrivals [bad, good, good]).map Arrival.record).Perm [bad, good, good] := by
    rw [map_record_arrivals]
  obtain ⟨hsame, hcounts⟩ := payloads_commute h₂ [(near, m), (far, n)] (hm.append hn) hflat
    (by rw [hrecords]; exact hperm) ho
  obtain ⟨hreceived, hunwanted⟩ := hcounts b.cid 2 hcarried (by decide) hw
  exact ⟨_, _, h₂, hw, hm.append hn, hflat, by rw [hrecords]; exact hperm, hsame, hreceived,
    hunwanted⟩

end
end BlockExchange.Exchange
