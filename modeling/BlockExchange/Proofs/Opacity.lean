import BlockExchange.Proofs.Serving
import BlockExchange.Store.Memory

/-!
# What a refused requester learns

Two runs of `Exchange.receive` over stores that disagree on some identifiers only. If every request
for one of these is for content and is refused, the runs send the same messages and leave the same
exchange but for the store (`receive_opaque`): a block that may not be read looks like one that is
not here.
-/

namespace BlockExchange.Exchange

variable {σ τ : Type}

/-- The same exchange over another store, maybe one of another kind. -/
def withStore (x : Exchange σ) (t : τ) : Exchange τ :=
  { x with store := t }

/-! ### Taking in does not look at the store -/

theorem absorbBlock_withStore (x : Exchange σ) (t : τ) (b : BlockRecord) :
    (x.withStore t).absorbBlock b = (x.absorbBlock b).withStore t := by
  rcases x.absorbBlock_cases b with ⟨e, hb, hx⟩ | ⟨h, hb, hw, hx⟩ | ⟨h, hb, hw, hx⟩ <;> rw [hx]
  · exact absorbBlock_of_error hb
  · exact absorbBlock_of_wanted hb hw
  · exact absorbBlock_of_unwanted hb hw

theorem absorbPresence_withStore (peer : PeerId) (x : Exchange σ) (t : τ) (p : Presence) :
    absorbPresence peer (x.withStore t) p = (absorbPresence peer x p).withStore t := by
  unfold absorbPresence
  split
  · rename_i w _ _
    show (if x.wants.isPending w then _ else _) = _
    split <;> rfl
  · rfl

theorem foldl_withStore {α : Type} {f : Exchange σ → α → Exchange σ} {g : Exchange τ → α → Exchange τ}
    (t : τ) (hstep : ∀ x a, g (x.withStore t) a = (f x a).withStore t) (x : Exchange σ) (as : List α) :
    as.foldl g (x.withStore t) = (as.foldl f x).withStore t := by
  induction as generalizing x with
  | nil => rfl
  | cons a as ih => rw [List.foldl_cons, List.foldl_cons, hstep, ih]

theorem absorb_withStore (x : Exchange σ) (t : τ) (peer : PeerId) (m : Message) :
    (x.withStore t).absorb peer m = (x.absorb peer m).withStore t := by
  unfold absorb
  rw [foldl_withStore t (fun x b => absorbBlock_withStore x t b),
    foldl_withStore t (fun x p => absorbPresence_withStore peer x t p)]

/-! ### Serving looks at the store only where it may -/

variable [BlockStore σ] [BlockStore τ] {x : Exchange σ} {t : τ} {requester : Cid} {r : Request}

theorem serve_of_refused (traceId : String) (ht : r.type = .block)
    (ha : x.authorises requester r.want = false) :
    x.serve requester traceId r = dontHave? r := by
  simp [serve, content?, ht, ha]

theorem serve_withStore_of_agree (traceId : String)
    (hhas : BlockStore.has x.store r.want.cid = BlockStore.has t r.want.cid)
    (hget : BlockStore.get x.store r.want.cid = BlockStore.get t r.want.cid) :
    (x.withStore t).serve requester traceId r = x.serve requester traceId r := by
  have hc : (x.withStore t).contains r.want.cid = x.contains r.want.cid := by
    unfold contains; rw [hhas]; rfl
  have hf : (x.withStore t).fetch r.want.cid = x.fetch r.want.cid := by
    unfold fetch; rw [hget]; rfl
  unfold serve content?
  rw [hc, hf]
  rfl

/-- A requester that is refused the content of every secret block it asks for cannot tell a store
from one that differs on secrets. -/
theorem receive_opaque (x : Exchange σ) (t : τ) (peer : PeerId) (m : Message) (secret : Cid → Prop)
    (agree : ∀ cid, ¬ secret cid → BlockStore.has x.store cid = BlockStore.has t cid ∧
      BlockStore.get x.store cid = BlockStore.get t cid)
    (refused : ∀ requester, peer.cid = .ok requester → ∀ r ∈ requests m.entries, secret r.want.cid →
      r.type = .block ∧ x.authoriser.allowRead r.want.cid requester r.want.auth ≠ .ok true) :
    ∃ y z frames, x.receive peer m = .ok (y, frames) ∧
      (x.withStore t).receive peer m = .ok (z, frames) ∧
      y.wants = z.wants ∧ y.haves = z.haves ∧ y.journal.counters = z.journal.counters ∧
      z = y.withStore t := by
  have hserve : ∀ r ∈ requests m.entries,
      (x.withStore t).serve (Cid.v1 Codec.peerKey peer.hash) m.traceId r =
        x.serve (Cid.v1 Codec.peerKey peer.hash) m.traceId r := by
    intro r hr
    by_cases hs : secret r.want.cid
    · obtain ⟨ht, ha⟩ := refused _ peer.cid_eq r hr hs
      have ha' : x.authorises (Cid.v1 Codec.peerKey peer.hash) r.want = false :=
        Bool.eq_false_iff.mpr fun h => ha (authorises_iff.mp h)
      rw [serve_of_refused _ ht ha']
      exact serve_of_refused (x := x.withStore t) _ ht ha'
    · obtain ⟨hhas, hget⟩ := agree _ hs
      exact serve_withStore_of_agree _ hhas hget
  have hreplies : (x.withStore t).replies (Cid.v1 Codec.peerKey peer.hash) m =
      x.replies (Cid.v1 Codec.peerKey peer.hash) m :=
    List.filterMap_congr hserve
  refine ⟨_, _, _, receive_eq x peer m, ?_, rfl, rfl, rfl, rfl⟩
  rw [receive_eq, hreplies, absorb_withStore]
  rfl

/-- A peer without a token asks a node that requires one for a block. The node may have it or not. -/
theorem receive_opaque_without_token :
    let block : Cid := .v1 Codec.raw ⟨Multihash.identity, [7], by decide⟩
    let x : Exchange MemoryStore := .new {} {} .requireToken .disabled
    let t : MemoryStore := ⟨Table.empty.set block [7]⟩
    let peer : PeerId := ⟨⟨Multihash.identity, [1, 2], by decide⟩, .inr ⟨rfl, by decide⟩⟩
    let m : Message :=
      { wantlist := some { entries := [{ block := [1, 0x55, 0, 1, 7], sendDontHave := true }] } }
    (∀ cid, cid ≠ block → BlockStore.has x.store cid = BlockStore.has t cid ∧
      BlockStore.get x.store cid = BlockStore.get t cid) ∧
    (∀ requester, peer.cid = .ok requester → ∀ r ∈ requests m.entries, r.want.cid = block →
      r.type = .block ∧ x.authoriser.allowRead r.want.cid requester r.want.auth ≠ .ok true) ∧
    BlockStore.has x.store block = .ok false ∧ BlockStore.has t block = .ok true ∧
    ∃ y z frames, x.receive peer m = .ok (y, frames) ∧
      (x.withStore t).receive peer m = .ok (z, frames) ∧
      y.wants = z.wants ∧ y.haves = z.haves ∧ y.journal.counters = z.journal.counters ∧
      z = y.withStore t := by
  intro block x t peer m
  have agree : ∀ cid, ¬ cid = block → BlockStore.has x.store cid = BlockStore.has t cid ∧
      BlockStore.get x.store cid = BlockStore.get t cid := by
    intro cid hne
    have hget : t.blocks.get? cid = none := by
      show (Table.set _ block [7]).get? cid = none
      rw [Table.get?_set, if_neg hne]; rfl
    constructor
    · show Except.ok false = Except.ok (t.blocks.get? cid).isSome
      rw [hget]; rfl
    · show Except.ok none = Except.ok (t.blocks.get? cid)
      rw [hget]
  have refused : ∀ requester, peer.cid = .ok requester → ∀ r ∈ requests m.entries,
      r.want.cid = block →
      r.type = .block ∧ x.authoriser.allowRead r.want.cid requester r.want.auth ≠ .ok true := by
    have hrs : requests m.entries = [⟨⟨block, none⟩, .block, true⟩] := by decide
    intro requester _ r hr _
    rw [hrs, List.mem_singleton] at hr
    subst hr
    exact ⟨rfl, by simp [x, Exchange.new, Authoriser.requireToken]⟩
  exact ⟨agree, refused, rfl, by decide, receive_opaque x t peer m (· = block) agree refused⟩

end BlockExchange.Exchange
