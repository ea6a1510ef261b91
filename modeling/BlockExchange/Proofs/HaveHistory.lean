import BlockExchange.Proofs.PayloadOrder
import BlockExchange.Proofs.WantsOnWire
import Mathlib.Data.List.Infix

/-!
# Who has what, told from the past

An exchange after any registrations and messages (`Exchange.after`), with its have table told from
these calls alone. `hearings` lists the presences in the order in which they are taken in, each with
the calls up to its own message, whose blocks go first. A presence counts for a want if it says that
the block is there, names that want, and the want was pending then (`Hearing.Counts`). The table holds
for each want the sender of the last presence that counts for it (`Exchange.Recalls`, which every
presence keeps), and so nothing is ever taken out (`Exchange.haves_of_calls`).
-/

namespace BlockExchange

/-- A registration, or a message from a peer. -/
inductive ExchangeCall
  | register (now : Duration) (w : Want)
  | receive (peer : PeerId) (m : Message)

namespace ExchangeCall

/-- The verified blocks that the call brings. -/
def blocks : ExchangeCall → List HashedBlock
  | .register _ _ => []
  | .receive _ m => Exchange.verified m.payload

/-- The presences that the call brings, with their sender. -/
def presences : ExchangeCall → List (PeerId × Presence)
  | .register _ _ => []
  | .receive peer m => m.presences.map (peer, ·)

end ExchangeCall

/-! ### The last of its kind -/

section
variable {α : Type} {p q : α → Prop} {xs : List α} {x : α}

/-- There is an element with `p`, and all behind it have `q`. -/
def Since (p q : α → Prop) (xs : List α) : Prop :=
  ∃ before x after, xs = before ++ x :: after ∧ p x ∧ ∀ y ∈ after, q y

theorem not_since_nil : ¬ Since p q [] := by
  rintro ⟨before, x, after, h, -⟩
  cases (List.append_eq_nil_iff.mp h.symm).2

theorem since_concat_iff : Since p q (xs ++ [x]) ↔ p x ∨ q x ∧ Since p q xs := by
  constructor
  · rintro ⟨before, y, after, h, hy, hafter⟩
    rcases List.eq_nil_or_concat after with rfl | ⟨after, last, rfl⟩
    · obtain ⟨-, hx⟩ := List.append_inj' h rfl
      rw [(List.cons.inj hx).1]
      exact .inl hy
    · rw [List.concat_eq_append] at h hafter
      rw [← List.cons_append, ← List.append_assoc] at h
      obtain ⟨rfl, hx⟩ := List.append_inj' h rfl
      obtain rfl := (List.cons.inj hx).1
      exact .inr ⟨hafter x (by simp), before, y, after, rfl, hy, fun z hz => hafter z (by simp [hz])⟩
  · rintro (hx | ⟨hx, before, y, after, rfl, hy, hafter⟩)
    · exact ⟨xs, x, [], rfl, hx, nofun⟩
    · refine ⟨before, y, after ++ [x], by simp, hy, fun z hz => ?_⟩
      rcases List.mem_append.mp hz with hz | hz
      · exact hafter z hz
      · rw [List.mem_singleton.mp hz]
        exact hx

end

/-- The want was registered, and no call since has brought its block. -/
def Wanted (calls : List ExchangeCall) (w : Want) : Prop :=
  Since (fun c => ∃ now, c = .register now w) (fun c => ∀ b ∈ c.blocks, b.cid ≠ w.cid) calls

/-! ### Presences that are taken in -/

/-- A presence whose turn has come: who sent it, and the calls up to the one that brought it. -/
structure Hearing where
  calls : List ExchangeCall
  peer : PeerId
  presence : Presence

/-- Word that the sender has the block of a want that is pending. -/
structure Hearing.Counts (h : Hearing) (w : Want) : Prop where
  kind_eq : h.presence.kind = .have
  toWant_eq : h.presence.toWant = .ok w
  wanted : Wanted h.calls w

/-- The presences that the last of some calls brings. -/
def lastHearings (calls : List ExchangeCall) : List Hearing :=
  (calls.getLast?.elim [] ExchangeCall.presences).map fun p => ⟨calls, p.1, p.2⟩

/-- All presences that some calls bring, in order. -/
def hearings (calls : List ExchangeCall) : List Hearing :=
  calls.inits.flatMap lastHearings

theorem hearings_concat (calls : List ExchangeCall) (c : ExchangeCall) :
    hearings (calls ++ [c]) = hearings calls ++ c.presences.map fun p => ⟨calls ++ [c], p.1, p.2⟩ := by
  unfold hearings
  rw [List.inits_append, List.flatMap_append]
  simp [lastHearings]

/-- The last of these presences that counts for the want came from this peer. -/
def LastSaid (hs : List Hearing) (w : Want) (peer : PeerId) : Prop :=
  Since (fun h => h.Counts w ∧ h.peer = peer) (fun h => ¬ h.Counts w) hs

section
variable {hs : List Hearing} {h : Hearing} {w : Want} {peer : PeerId}

theorem lastSaid_concat_of_counts (hcounts : h.Counts w) :
    LastSaid (hs ++ [h]) w peer ↔ h.peer = peer := by
  rw [LastSaid, since_concat_iff]
  constructor
  · rintro (⟨-, hpeer⟩ | ⟨hsilent, -⟩)
    · exact hpeer
    · exact absurd hcounts hsilent
  · exact fun hpeer => .inl ⟨hcounts, hpeer⟩

theorem lastSaid_concat_of_not (hsilent : ¬ h.Counts w) :
    LastSaid (hs ++ [h]) w peer ↔ LastSaid hs w peer := by
  rw [LastSaid, since_concat_iff]
  constructor
  · rintro (⟨hcounts, -⟩ | ⟨-, hlast⟩)
    · exact absurd hcounts hsilent
    · exact hlast
  · exact fun hlast => .inr ⟨hsilent, hlast⟩

theorem exists_lastSaid_append (more : List Hearing) (h : LastSaid hs w peer) :
    ∃ peer', LastSaid (hs ++ more) w peer' := by
  induction more using List.reverseRecOn with
  | nil => exact ⟨peer, by rwa [List.append_nil]⟩
  | append_singleton more g ih =>
    obtain ⟨peer', hlast⟩ := ih
    rw [← List.append_assoc]
    by_cases hg : g.Counts w
    · exact ⟨g.peer, (lastSaid_concat_of_counts hg).mpr rfl⟩
    · exact ⟨peer', (lastSaid_concat_of_not hg).mpr hlast⟩

end

/-! ### The table -/

namespace Exchange

variable {σ : Type}

section
variable {x : Exchange σ} {calls : List ExchangeCall} {hs : List Hearing} {peer : PeerId}

/-- The have table is what these presences, taken in one after the other, make of an empty one. -/
def Recalls (x : Exchange σ) (hs : List Hearing) : Prop :=
  ∀ w peer, x.haves.lookup w = some peer ↔ LastSaid hs w peer

/-- The pending wants are those that the calls tell. -/
def Awaiting (x : Exchange σ) (calls : List ExchangeCall) : Prop :=
  ∀ w, x.wants.isPending w = true ↔ Wanted calls w

/-- A presence that counts for no want changes nothing. -/
theorem absorbPresence_of_silent {p : Presence} (hx : x.Awaiting calls)
    (h : ∀ w, ¬ Hearing.Counts ⟨calls, peer, p⟩ w) : absorbPresence peer x p = x := by
  unfold absorbPresence
  split
  · rename_i w hkind hwant
    exact if_neg fun hpending => h w ⟨hkind, hwant, (hx w).mp hpending⟩
  · rfl

theorem Recalls.absorbPresence (h : x.Recalls hs) (hx : x.Awaiting calls) (peer : PeerId)
    (p : Presence) : (absorbPresence peer x p).Recalls (hs ++ [⟨calls, peer, p⟩]) := by
  intro w peer'
  by_cases hcounts : Hearing.Counts ⟨calls, peer, p⟩ w
  · rw [lastSaid_concat_of_counts hcounts, lookup_absorbPresence_of_said hcounts.kind_eq
      hcounts.toWant_eq ((hx w).mpr hcounts.wanted), Option.some.injEq]
  · rw [lastSaid_concat_of_not hcounts, ← h w peer']
    rcases lookup_absorbPresence_cases peer x p w with hsame | ⟨hkind, hwant, hpending, -⟩
    · rw [hsame]
    · exact absurd ⟨hkind, hwant, (hx w).mp hpending⟩ hcounts

theorem Awaiting.foldl_absorbPresence (hx : x.Awaiting calls) (peer : PeerId) (ps : List Presence) :
    (ps.foldl (Exchange.absorbPresence peer) x).Awaiting calls := by
  rw [foldl_absorbPresence_eq]
  exact hx

theorem Recalls.foldl_absorbPresence (h : x.Recalls hs) (hx : x.Awaiting calls) (peer : PeerId)
    (ps : List Presence) :
    (ps.foldl (Exchange.absorbPresence peer) x).Recalls (hs ++ ps.map (⟨calls, peer, ·⟩)) := by
  induction ps generalizing x hs with
  | nil => simpa using h
  | cons p ps ih =>
    have hnext := ih (h.absorbPresence hx peer p) (hx.foldl_absorbPresence peer [p])
    rw [List.append_assoc] at hnext
    exact hnext

theorem Awaiting.register (hx : x.Awaiting calls) (now : Duration) (w : Want) :
    (x.register now w).1.Awaiting (calls ++ [.register now w]) := by
  intro v
  rw [Wanted, since_concat_iff, ← Wanted, ← hx v]
  show (x.wants.register now w).1.isPending v = true ↔ _
  rw [WantTable.isPending_register_iff]
  constructor
  · rintro (rfl | hv)
    · exact .inl ⟨now, rfl⟩
    · exact .inr ⟨nofun, hv⟩
  · rintro (⟨now', hv⟩ | ⟨-, hv⟩)
    · cases hv
      exact .inl rfl
    · exact .inr hv

theorem Awaiting.absorbBlocks (hx : x.Awaiting calls) (peer : PeerId) (m : Message) :
    (m.payload.foldl absorbBlock x).Awaiting (calls ++ [.receive peer m]) := by
  intro v
  rw [Wanted, since_concat_iff, ← Wanted, ← hx v, isPending_foldl_absorbBlock_iff]
  have hbrings : v.cid ∉ (verified m.payload).map HashedBlock.cid ↔
      ∀ b ∈ verified m.payload, b.cid ≠ v.cid := by simp
  rw [hbrings]
  constructor
  · rintro ⟨hv, hblocks⟩
    exact .inr ⟨hblocks, hv⟩
  · rintro (⟨now, hv⟩ | ⟨hblocks, hv⟩)
    · cases hv
    · exact ⟨hv, hblocks⟩

/-- An exchange whose wants and have table are those that the calls tell. -/
structure Reflects (x : Exchange σ) (calls : List ExchangeCall) : Prop where
  awaiting : x.Awaiting calls
  recalls : x.Recalls (hearings calls)

theorem reflects_new (settings : ExchangeSettings) (store : σ) (authoriser : Authoriser)
    (trace : TraceLog) : (Exchange.new settings store authoriser trace).Reflects [] where
  awaiting _ := iff_of_false Bool.false_ne_true not_since_nil
  recalls _ _ := iff_of_false nofun not_since_nil

theorem Reflects.mem_haves_iff (h : x.Reflects calls) {w : Want} :
    (w, peer) ∈ x.haves.toList ↔ LastSaid (hearings calls) w peer := by
  rw [← h.recalls w peer]
  exact (Table.get?_eq_some_iff _).symm

end

variable [BlockStore σ] {x : Exchange σ} {calls : List ExchangeCall} {hs : List Hearing}

/-- What a call makes of an exchange. -/
def call (x : Exchange σ) : ExchangeCall → Exchange σ
  | .register now w => (x.register now w).1
  | .receive peer m =>
    match x.receive peer m with
    | .ok (y, _) => y
    | .error _ => x

def after (x : Exchange σ) (calls : List ExchangeCall) : Exchange σ :=
  calls.foldl call x

theorem call_receive (x : Exchange σ) (peer : PeerId) (m : Message) :
    x.call (.receive peer m) = x.absorb peer m := by
  show (match x.receive peer m with
    | .ok (y, _) => y
    | .error _ => x) = _
  rw [receive_eq]

theorem after_concat (x : Exchange σ) (calls : List ExchangeCall) (c : ExchangeCall) :
    x.after (calls ++ [c]) = (x.after calls).call c := by
  unfold after
  rw [List.foldl_append]
  rfl

theorem Reflects.call (h : x.Reflects calls) (c : ExchangeCall) :
    (x.call c).Reflects (calls ++ [c]) := by
  cases c with
  | register now w =>
    refine ⟨h.awaiting.register now w, ?_⟩
    rw [hearings_concat]
    intro v peer
    show x.haves.lookup v = some peer ↔ LastSaid (hearings calls ++ []) v peer
    rw [List.append_nil]
    exact h.recalls v peer
  | receive peer m =>
    have hblocks := h.awaiting.absorbBlocks peer m
    have hrecalls : (m.payload.foldl absorbBlock x).Recalls (hearings calls) := by
      rw [foldl_absorbBlock_eq]
      exact h.recalls
    rw [call_receive]
    refine ⟨hblocks.foldl_absorbPresence peer m.presences, ?_⟩
    have hall := hrecalls.foldl_absorbPresence hblocks peer m.presences
    rw [hearings_concat, ExchangeCall.presences, List.map_map]
    exact hall

theorem Reflects.after (h : x.Reflects calls) (more : List ExchangeCall) :
    (x.after more).Reflects (calls ++ more) := by
  induction more using List.reverseRecOn with
  | nil => rwa [List.append_nil]
  | append_singleton more c ih =>
    rw [after_concat, ← List.append_assoc]
    exact ih.call c

theorem exists_hearings_append (calls more : List ExchangeCall) :
    ∃ hs, hearings (calls ++ more) = hearings calls ++ hs := by
  induction more using List.reverseRecOn with
  | nil => exact ⟨[], by simp⟩
  | append_singleton more c ih =>
    obtain ⟨hs, h⟩ := ih
    rw [← List.append_assoc, hearings_concat, h, List.append_assoc]
    exact ⟨_, rfl⟩

/-- A presence that counts for no want might as well not be in its message. -/
theorem Reflects.receive_silent (h : x.Reflects calls) {peer : PeerId} {m : Message}
    {before after : List Presence} {p : Presence} (hm : m.presences = before ++ p :: after)
    (hsilent : ∀ w, ¬ Hearing.Counts ⟨calls ++ [.receive peer m], peer, p⟩ w) :
    x.call (.receive peer m) = x.call (.receive peer { m with presences := before ++ after }) := by
  have hturn := (h.awaiting.absorbBlocks peer m).foldl_absorbPresence peer before
  rw [call_receive, call_receive]
  unfold absorb
  rw [hm, List.foldl_append, List.foldl_append, List.foldl_cons, absorbPresence_of_silent hturn hsilent]

/-- After any registrations and messages, a want is in the have table with a peer exactly if the last
presence for it came from that peer, of those that said that the block was there and were taken in while
the want was pending, the blocks of the same message having been taken in before. Any other presence
changes nothing, and a want that is in the table stays there. -/
theorem haves_of_calls (settings : ExchangeSettings) (store : σ) (authoriser : Authoriser)
    (trace : TraceLog) (calls : List ExchangeCall) :
    let x := (Exchange.new settings store authoriser trace).after calls
    (∀ w, x.wants.isPending w = true ↔ Wanted calls w) ∧
    (∀ w peer, (w, peer) ∈ x.haves.toList ↔
      Since (fun h => h.Counts w ∧ h.peer = peer) (fun h => ¬ h.Counts w) (hearings calls)) ∧
    (∀ peer m before p after, m.presences = before ++ p :: after →
      (∀ w, ¬ Hearing.Counts ⟨calls ++ [.receive peer m], peer, p⟩ w) →
      x.call (.receive peer m) = x.call (.receive peer { m with presences := before ++ after })) ∧
    ∀ w peer more, (w, peer) ∈ x.haves.toList → ∃ peer', (w, peer') ∈ (x.after more).haves.toList := by
  intro x
  have h : x.Reflects calls := (reflects_new settings store authoriser trace).after calls
  refine ⟨h.awaiting, fun w peer => h.mem_haves_iff, fun peer m before p after => h.receive_silent,
    fun w peer more hmem => ?_⟩
  obtain ⟨hs, hhearings⟩ := exists_hearings_append calls more
  obtain ⟨peer', hlast⟩ := exists_lastSaid_append hs (h.mem_haves_iff.mp hmem)
  exact ⟨peer', (h.after more).mem_haves_iff.mpr (hhearings ▸ hlast)⟩

end Exchange
end BlockExchange
