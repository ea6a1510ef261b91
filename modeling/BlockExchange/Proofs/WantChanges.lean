import BlockExchange.Proofs.TwoNodes

/-!
# What can happen to a want

Whatever happens to an exchange, its wants change as by calls that register or resolve, or are
given up all at once, or get into another order (`Exchange.Step.wants_eq`). So a want that is pending was pending before or
has been given out since (`Exchange.Step.isPending`), and a future that is done keeps its outcome
(`Exchange.Step.tracks`).
-/

namespace BlockExchange

theorem WantTable.isPending_iff_registration? {t : WantTable} {w : Want} :
    t.isPending w = true ↔ ∃ r, t.registration? w = some r := by
  rw [isPending_iff]
  simp only [ticket?_eq_some_iff]
  constructor
  · rintro ⟨n, r, hr, -⟩
    exact ⟨r, hr⟩
  · rintro ⟨r, hr⟩
    exact ⟨r.ticket, r, hr, rfl⟩

/-- A want that is registered was so before, or was registered anew at the moment that it tells. -/
theorem WantTable.registered_of_run {t : WantTable} {w : Want} {r : Registration}
    {calls : List WantCall} (h : (t.run calls).registration? w = some r) :
    t.registration? w = some r ∨ .register r.created w ∈ calls := by
  induction calls generalizing t with
  | nil => exact .inl h
  | cons call calls ih =>
    rcases ih (t := t.call call) h with hr | hmem
    · cases call with
      | register now v =>
        have hreg : (t.register now v).1.registration? w = some r := hr
        rw [registration?_register] at hreg
        split at hreg
        · rename_i hwv
          subst hwv
          cases hold : t.registration? w with
          | some old =>
            rw [hold] at hreg
            exact .inl hreg
          | none =>
            rw [hold] at hreg
            cases hreg
            exact .inr List.mem_cons_self
        · exact .inl hreg
      | resolve b =>
        have hreg : (t.resolve b).1.registration? w = some r := hr
        rw [registration?_resolve] at hreg
        split at hreg
        · cases hreg
        · exact .inl hreg
    · exact .inr (List.mem_cons_of_mem _ hmem)

/-- What a table makes of some calls that give out futures for these wants at most, or of being
given up or put into another order. -/
inductive WantTable.Becomes (t : WantTable) (more : List (Want × WantFuture)) : WantTable → Prop
  | run (calls : List WantCall)
      (h : ∀ now w, WantCall.register now w ∈ calls → ∃ f, (w, f) ∈ more) :
      Becomes t more (t.run calls)
  | abandon : Becomes t more t.abandon
  | rearrange {u : WantTable} (h : t.Rearranged u) : Becomes t more u

namespace WantTable.Becomes
variable {t u : WantTable} {more : List (Want × WantFuture)} {w : Want} {f : WantFuture}
  {o : WantOutcome}

theorem refl (t : WantTable) (more : List (Want × WantFuture)) : t.Becomes more t :=
  .run [] fun _ _ h => absurd h List.not_mem_nil

theorem register (t : WantTable) (now : Duration) (w : Want) (f : WantFuture) :
    t.Becomes [(w, f)] (t.register now w).1 := by
  refine .run [.register now w] fun now' v h => ⟨f, ?_⟩
  cases List.mem_singleton.mp h
  exact List.mem_singleton_self _

theorem registration? (h : t.Becomes more u) {r : Registration} (hr : u.registration? w = some r) :
    t.registration? w = some r ∨ ∃ f, (w, f) ∈ more := by
  cases h with
  | run calls hcalls => exact (registered_of_run hr).imp_right (hcalls _ w)
  | abandon => cases hr
  | rearrange hu => exact .inl (hu.registration?_eq w ▸ hr)

theorem isPending (h : t.Becomes more u) (hw : u.isPending w = true) :
    t.isPending w = true ∨ ∃ f, (w, f) ∈ more := by
  obtain ⟨r, hr⟩ := isPending_iff_registration?.mp hw
  exact (h.registration? hr).imp_left fun hr => isPending_iff_registration?.mpr ⟨r, hr⟩

theorem tracks (h : t.Becomes more u) (ht : t.Tracks w f o) (ho : o ≠ .pending) :
    u.Tracks w f o := by
  cases h with
  | run calls _ => exact ht.run_of_ne_pending ho calls
  | abandon =>
    have hgiven := ht.abandon
    cases o with
    | pending => exact absurd rfl ho
    | delivered b => exact hgiven
    | abandoned => exact hgiven
  | rearrange hu => exact ht.rearrange hu

end WantTable.Becomes

namespace Exchange
variable {σ : Type} [BlockStore σ] {x y : Exchange σ} {given more : List (Want × WantFuture)}
  {w : Want} {f : WantFuture}

theorem wants_findSlots (x : Exchange σ) (now : Duration) (ws : List Want) :
    (x.findSlots now ws).1.wants =
      x.wants.run ((awaited ws (x.findSlots now ws).2).map fun p => .register now p.1) := by
  induction ws generalizing x with
  | nil => rfl
  | cons w ws ih =>
    unfold findSlots
    cases x.local? w.cid with
    | some b => exact ih x
    | none => exact ih (x.register now w).1

theorem Step.wants_eq (hs : Step x y more) : x.wants.Becomes more y.wants := by
  cases hs with
  | register now w => exact .register x.wants now w _
  | wantBlock now w peers => exact .register x.wants now w _
  | getBlocks now ws peers addToLocal =>
    have hwants : (x.getBlocks now ws peers addToLocal).1.wants = _ := x.wants_findSlots now ws
    rw [hwants]
    refine .run _ fun now' w hw => ?_
    obtain ⟨⟨v, f⟩, hv, hcall⟩ := List.mem_map.mp hw
    cases hcall
    exact ⟨f, hv⟩
  | gather addToLocal slots =>
    rw [gather_eq]
    exact .refl _ _
  | receive hy =>
    rw [receive_eq] at hy
    obtain ⟨rfl, -⟩ := Prod.mk.inj (Except.ok.inj hy)
    rw [wants_absorb, wants_foldl_absorbBlock]
    refine .run _ fun now w hw => ?_
    obtain ⟨b, -, hcall⟩ := List.mem_map.mp hw
    cases hcall
  | newTraceId =>
    rw [newTraceId_eq]
    exact .refl _ _
  | giveUp => exact .abandon
  | rearrange hu => exact .rearrange hu
  | connect | disconnect | disconnectIfSame | noteSent | noteReceived | storeChange =>
    exact .refl _ _

/-- What is pending was pending before, or somebody has asked for it since. -/
theorem Step.isPending (hs : Step x y more) (hw : y.wants.isPending w = true) :
    x.wants.isPending w = true ∨ ∃ f, (w, f) ∈ more :=
  hs.wants_eq.isPending hw

/-- Nothing that happens takes back the outcome of a future that is done. -/
theorem Step.poll_eq (hs : Step x y more) (h : x.wants.Honours given) (hf : (w, f) ∈ given)
    (hdone : x.wants.poll f ≠ .pending) : y.wants.poll f = x.wants.poll f :=
  (hs.wants_eq.tracks (h.tracks_poll hf).1 hdone).poll_eq

end Exchange
end BlockExchange
