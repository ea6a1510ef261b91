import Mathlib.Data.List.DropRight
import Mathlib.Data.List.Nodup
import BlockExchange.Proofs.Telling

/-!
# How old wants are

`firstAsked?` reads off the calls on a want table when a want was first registered since its
identifier was last resolved. A table notes down the same moments (`WantTable.Dates`, which every
call keeps). So the wants that a node lists are told by its past alone
(`Exchange.Past.mem_list_iff`), and each is listed once (`WantTable.nodup_list`).
-/

namespace BlockExchange

namespace WantCall

/-- The call brings a block for the identifier. -/
def brings (cid : Cid) : WantCall → Bool
  | .register _ _ => false
  | .resolve b => decide (b.cid = cid)

/-- The moment at which the call registers the want. -/
def asked? (w : Want) : WantCall → Option Duration
  | .register now v => if v = w then some now else none
  | .resolve _ => none

end WantCall

/-- When a want was first registered since its identifier was last resolved. -/
def firstAsked? (calls : List WantCall) (w : Want) : Option Duration :=
  (calls.rtakeWhile fun c => !c.brings w.cid).findSome? (WantCall.asked? w)

section
variable (calls : List WantCall) (w : Want)

theorem firstAsked?_register (now : Duration) (v : Want) :
    firstAsked? (calls ++ [.register now v]) w =
      (firstAsked? calls w).or (if v = w then some now else none) := by
  unfold firstAsked?
  rw [List.rtakeWhile_concat_pos _ _ _ rfl, List.findSome?_append, List.findSome?_singleton]
  rfl

theorem firstAsked?_resolve (b : HashedBlock) :
    firstAsked? (calls ++ [.resolve b]) w =
      if w.cid = b.cid then none else firstAsked? calls w := by
  unfold firstAsked?
  by_cases hb : w.cid = b.cid
  · rw [if_pos hb, List.rtakeWhile_concat_neg _ _ _ (by simp [WantCall.brings, hb])]
    rfl
  · rw [if_neg hb, List.rtakeWhile_concat_pos _ _ _ (by simp [WantCall.brings, Ne.symm hb]),
      List.findSome?_append, List.findSome?_singleton]
    exact Option.or_none

end

namespace WantTable
variable {t : WantTable} {calls : List WantCall} {w : Want}

/-- The moments at which the table has its wants registered are those that the calls tell. -/
def Dates (t : WantTable) (calls : List WantCall) : Prop :=
  ∀ w, (t.registration? w).map Registration.created = firstAsked? calls w

theorem dates_of_empty (h : t.wants = .empty) : t.Dates [] := by
  intro w
  unfold registration? registrations
  rw [h]
  rfl

theorem Dates.call (h : t.Dates calls) (c : WantCall) : (t.call c).Dates (calls ++ [c]) := by
  intro w
  cases c with
  | register now v =>
    show ((t.register now v).1.registration? w).map _ = _
    rw [registration?_register, firstAsked?_register, ← h w]
    by_cases hw : w = v
    · subst hw
      cases t.registration? w <;> simp
    · simp [hw, Ne.symm hw]
  | resolve b =>
    show ((t.resolve b).1.registration? w).map _ = _
    rw [registration?_resolve, firstAsked?_resolve, ← h w]
    by_cases hw : w.cid = b.cid <;> simp [hw]

theorem Dates.run (h : t.Dates calls) (more : List WantCall) :
    (t.run more).Dates (calls ++ more) := by
  induction more generalizing t calls with
  | nil => simpa [WantTable.run] using h
  | cons c more ih =>
    have hnext := ih (h.call c)
    rw [List.append_assoc] at hnext
    exact hnext

theorem Dates.rearrange {u : WantTable} (h : t.Dates calls) (hu : t.Rearranged u) :
    u.Dates calls := by
  intro w
  rw [hu.registration?_eq]
  exact h w

/-- The wants to list are those that were asked for since their last block; for a single peer, only
if that was a short while ago. -/
theorem Dates.mem_list_iff (h : t.Dates calls) {now : Duration} {peers : Nat} :
    w ∈ t.list now peers ↔ ∃ asked, firstAsked? calls w = some asked ∧
      (peers = 1 → (now.since asked).lt t.recency = true) := by
  rw [WantTable.mem_list_iff, ← h w]
  constructor
  · rintro ⟨r, hr, hlisted⟩
    refine ⟨r.created, by rw [hr]; rfl, fun hone => ?_⟩
    rcases hlisted with hmany | hrecent
    · exact absurd hone hmany
    · exact hrecent
  · rintro ⟨asked, hasked, hrecent⟩
    obtain ⟨r, hr, rfl⟩ := Option.map_eq_some_iff.mp hasked
    refine ⟨r, hr, ?_⟩
    by_cases hone : peers = 1
    · exact .inr (hrecent hone)
    · exact .inl hone

/-- No want is listed twice. -/
theorem nodup_list (t : WantTable) (now : Duration) (peers : Nat) : (t.list now peers).Nodup := by
  unfold list
  refine List.nodup_flatMap.mpr ⟨?_, ?_⟩
  · rintro ⟨cid, byToken⟩ -
    have hkeys : ((byToken.pairs.filter fun p => peers != 1 || t.isRecent now p.2).map
        Prod.fst).Nodup := byToken.nodup_keys.sublist (List.filter_sublist.map _)
    have hinj : Function.Injective fun auth => (⟨cid, auth⟩ : Want) := by
      intro a b hab
      cases hab
      rfl
    have hnodup := hkeys.map hinj
    rwa [List.map_map] at hnodup
  · refine (List.pairwise_map.mp t.wants.nodup_keys).imp ?_
    rintro ⟨cid, byToken⟩ ⟨cid', byToken'⟩ hne w hw hw'
    obtain ⟨_, -, rfl⟩ := List.mem_map.mp hw
    obtain ⟨_, -, hcid⟩ := List.mem_map.mp hw'
    exact hne (congrArg Want.cid hcid).symm

end WantTable

namespace Exchange
variable {σ : Type} [BlockStore σ] {x y : Exchange σ} {calls more : List WantCall}
  {given news : List (Want × WantFuture)}

/-- What a step of an exchange asks of its wants. A message brings its verified blocks. -/
inductive Asks (x : Exchange σ) : Exchange σ → List WantCall → Prop
  | register (now : Duration) (w : Want) : Asks x (x.register now w).1 [.register now w]
  | wantBlock (now : Duration) (w : Want) (peers : List PeerId) :
      Asks x (x.wantBlock now w peers).1 [.register now w]
  | getBlocks (now : Duration) (ws : List Want) (peers : List PeerId) (addToLocal : Bool) :
      Asks x (x.getBlocks now ws peers addToLocal).1
        ((awaited ws (x.getBlocks now ws peers addToLocal).2.slots).map fun p =>
          .register now p.1)
  | receive {peer : PeerId} {m : Message} {y : Exchange σ} {frames : List Message}
      (h : x.receive peer m = .ok (y, frames)) : Asks x y ((verified m.payload).map .resolve)
  | nothing {y : Exchange σ} (h : Step x y []) (hwants : x.wants.Rearranged y.wants) : Asks x y []

theorem Asks.dates (h : Asks x y more) (hx : x.wants.Dates calls) :
    y.wants.Dates (calls ++ more) := by
  cases h with
  | register now w => exact hx.run [.register now w]
  | wantBlock now w peers => exact hx.run [.register now w]
  | getBlocks now ws peers addToLocal =>
    have hwants := x.wants_findSlots now ws
    show (x.findSlots now ws).1.wants.Dates _
    rw [hwants]
    exact hx.run _
  | receive hy =>
    rw [receive_eq] at hy
    obtain ⟨rfl, -⟩ := Prod.mk.inj (Except.ok.inj hy)
    rw [wants_absorb, wants_foldl_absorbBlock]
    exact hx.run _
  | nothing _ hwants =>
    rw [List.append_nil]
    exact hx.rearrange hwants

/-- An exchange that has come about, and all that was asked of its wants since they were last given
up. -/
inductive Past : Exchange σ → List WantCall → Prop
  | start (settings : ExchangeSettings) (store : σ) (authoriser : Authoriser) (trace : TraceLog) :
      Past (.new settings store authoriser trace) []
  | step {x y : Exchange σ} {calls more : List WantCall} (h : Past x calls) (ha : Asks x y more) :
      Past y (calls ++ more)
  | giveUp {x : Exchange σ} {calls : List WantCall} (h : Past x calls) :
      Past { x with wants := x.wants.abandon } []

theorem Past.nothing (h : Past x calls) (hs : Step x y []) (hwants : y.wants = x.wants) :
    Past y calls := by
  have hy := h.step (.nothing hs (hwants ▸ .refl _))
  rwa [List.append_nil] at hy

theorem Past.dates (h : Past x calls) : x.wants.Dates calls := by
  induction h with
  | start => exact WantTable.dates_of_empty rfl
  | step _ ha ih => exact ha.dates ih
  | giveUp => exact WantTable.dates_of_empty rfl

/-- Whatever happens to an exchange that has a past, it has one afterwards. -/
theorem Past.of_step (h : Past x calls) (hs : Step x y news) : ∃ calls, Past y calls := by
  cases hs with
  | register now w => exact ⟨_, h.step (.register now w)⟩
  | wantBlock now w peers => exact ⟨_, h.step (.wantBlock now w peers)⟩
  | getBlocks now ws peers addToLocal => exact ⟨_, h.step (.getBlocks now ws peers addToLocal)⟩
  | gather addToLocal slots =>
    refine ⟨_, h.nothing (.gather addToLocal slots) ?_⟩
    rw [gather_eq]
  | receive hy => exact ⟨_, h.step (.receive hy)⟩
  | connect p o => exact ⟨_, h.nothing (.connect p o) rfl⟩
  | disconnect p => exact ⟨_, h.nothing (.disconnect p) rfl⟩
  | disconnectIfSame p o => exact ⟨_, h.nothing (.disconnectIfSame p o) rfl⟩
  | newTraceId =>
    refine ⟨_, h.nothing .newTraceId ?_⟩
    rw [newTraceId_eq]
  | noteSent p m now => exact ⟨_, h.nothing (.noteSent p m now) rfl⟩
  | noteReceived p m now => exact ⟨_, h.nothing (.noteReceived p m now) rfl⟩
  | storeChange s => exact ⟨_, h.nothing (.storeChange s) rfl⟩
  | giveUp => exact ⟨_, h.giveUp⟩
  | rearrange hu => exact ⟨_, h.step (.nothing (.rearrange hu) hu)⟩

theorem Run.exists_past (h : Run x given) : ∃ calls, Past x calls := by
  induction h with
  | start settings store authoriser trace => exact ⟨_, .start settings store authoriser trace⟩
  | step _ hs ih =>
    obtain ⟨calls, hpast⟩ := ih
    exact hpast.of_step hs

theorem Past.mem_list_iff (h : Past x calls) {now : Duration} {peers : Nat} {w : Want} :
    w ∈ x.wants.list now peers ↔ ∃ asked, firstAsked? calls w = some asked ∧
      (peers = 1 → (now.since asked).lt x.wants.recency = true) :=
  h.dates.mem_list_iff

end Exchange
end BlockExchange
