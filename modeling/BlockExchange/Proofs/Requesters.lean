import BlockExchange.Proofs.Absorption
import BlockExchange.Proofs.FileNames

/-!
# Requesters

An authoriser never sees a peer, only the identifier of its key (`PeerId.cid`). That identifier always
exists and holds the peer's own multihash, so the peer can be read back from it, and no message is
turned away before it is looked at. Two peers have identifiers that differ, as values and in each form
in which they are written. So rights that are given to peers can be kept by an authoriser
(`Authoriser.ofRights`).
-/

namespace BlockExchange

/-- The authoriser that gives each peer its rights, reading the peer back from the requester. -/
def Authoriser.ofRights (rights : PeerId → Cid → Option AuthToken → Bool) : Authoriser where
  allowRead block requester auth :=
    match PeerId.ofBytes requester.hash.toBytes with
    | .ok p => .ok (rights p block auth)
    | .error _ => .ok false

namespace PeerId
variable {p q : PeerId} {requester other : Cid}

theorem ofBytes_toBytes (p : PeerId) : ofBytes p.toBytes = .ok p := by
  unfold ofBytes toBytes
  rw [Multihash.ofBytes?_toBytes]
  exact dif_pos p.admissible

theorem hash_of_cid (h : p.cid = .ok requester) : requester.hash = p.hash := by
  rw [p.cid_eq] at h
  exact congrArg Cid.hash (Except.ok.inj h).symm

theorem toBytes_hash_of_cid (h : p.cid = .ok requester) : requester.hash.toBytes = p.toBytes :=
  congrArg Multihash.toBytes (hash_of_cid h)

/-- The requester tells which peer it is. -/
theorem eq_of_cid (hp : p.cid = .ok requester) (hq : q.cid = .ok requester) : q = p := by
  have hread := ofBytes_toBytes q
  rw [← toBytes_hash_of_cid hq, toBytes_hash_of_cid hp, ofBytes_toBytes] at hread
  exact (Except.ok.inj hread).symm

theorem ne_of_cid (hp : p.cid = .ok requester) (hq : q.cid = .ok other) (hne : q ≠ p) :
    other ≠ requester := by
  rintro rfl
  exact hne (eq_of_cid hp hq)

theorem allowRead_ofRights (h : p.cid = .ok requester)
    (rights : PeerId → Cid → Option AuthToken → Bool) (block : Cid) (auth : Option AuthToken) :
    (Authoriser.ofRights rights).allowRead block requester auth = .ok (rights p block auth) := by
  unfold Authoriser.ofRights
  simp only [toBytes_hash_of_cid h, ofBytes_toBytes]

/-- Every peer, whatever its multihash, is known to authorisers by an identifier that spells the peer's
own bytes. It is no other peer's, no message is turned away for want of it, and whatever rights peers
are to have, there is an authoriser that gives this peer its own. -/
theorem requester_faithful (p : PeerId) :
    ∃ requester, p.cid = .ok requester ∧ requester.hash.toBytes = p.toBytes ∧
      ofBytes requester.hash.toBytes = .ok p ∧
      (∀ (q : PeerId) (other : Cid), q.cid = .ok other → q ≠ p →
        other ≠ requester ∧ other.toBytes ≠ requester.toBytes ∧ other.text ≠ requester.text) ∧
      (∀ (σ : Type) [BlockStore σ] (x : Exchange σ) (m : Message), x.receive p m =
        .ok (x.absorb p m, x.packReplies m.traceId (x.replies requester m))) ∧
      ∀ rights : PeerId → Cid → Option AuthToken → Bool, ∃ a : Authoriser,
        ∀ (q : PeerId) (other : Cid), q.cid = .ok other → ∀ block auth,
          a.allowRead block other auth = .ok (rights q block auth) := by
  have hp := p.cid_eq
  refine ⟨_, hp, toBytes_hash_of_cid hp, ?_, ?_, fun σ _ x m => x.receive_eq p m, ?_⟩
  · rw [toBytes_hash_of_cid hp, ofBytes_toBytes]
  · intro q other hq hqp
    have hne := ne_of_cid hp hq hqp
    exact ⟨hne, fun h => hne (Cid.toBytes_injective h), fun h => hne (Cid.text_injective h)⟩
  · intro rights
    exact ⟨.ofRights rights, fun q other hq => allowRead_ofRights hq rights⟩

end PeerId
end BlockExchange
