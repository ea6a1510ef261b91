import BlockExchange.Proofs.ExchangeRun
import BlockExchange.Store.Memory

/-!
# The blocks of a message

`BlockEffect` says what one block record does to an exchange: it is refused and counted, or it
completes the wants of its name and is counted, or nobody wants it and it is counted. The payload of a
message has the effects of its records one after the other, and what a future brings is content of its
want's name (`payload_accounted`).
-/

namespace BlockExchange.Exchange

variable {σ : Type}

/-- What a block record does to an exchange that has given out these futures. -/
inductive BlockEffect (given : List (Want × WantFuture)) (x : Exchange σ) (r : BlockRecord) :
    Exchange σ → Prop
  | refused {e : BlockError} (h : r.toHashed = .error e) :
      BlockEffect given x r { x with
        journal.counters.blocksRejected := x.journal.counters.blocksRejected + 1 }
  | received {b : HashedBlock} {y : Exchange σ} (h : r.toHashed = .ok b) (data : b.data = r.data)
      (wanted : ∃ w, w.cid = b.cid ∧ x.wants.isPending w = true)
      (pending : ∀ w, y.wants.isPending w = true ↔ x.wants.isPending w = true ∧ w.cid ≠ b.cid)
      (completed : ∀ w, x.wants.isPending w = true → w.cid = b.cid →
        ∃ f, (w, f) ∈ given ∧ x.wants.poll f = .pending ∧ y.wants.poll f = .delivered b)
      (outcomes : ∀ w f, (w, f) ∈ given → y.wants.poll f = (x.wants.poll f).resolved w.cid b)
      (rest : y = { x with
        wants := y.wants
        journal.counters.blocksReceived := x.journal.counters.blocksReceived + 1 }) :
      BlockEffect given x r y
  | unwanted {b : HashedBlock} (h : r.toHashed = .ok b) (data : b.data = r.data)
      (unwanted : ∀ w, x.wants.isPending w = true → w.cid ≠ b.cid) :
      BlockEffect given x r { x with
        journal.counters.unwantedBlocks := x.journal.counters.unwantedBlocks + 1 }

/-- The effects of block records, one after the other. -/
inductive BlockEffects (given : List (Want × WantFuture)) :
    Exchange σ → List BlockRecord → Exchange σ → Prop
  | nil (x : Exchange σ) : BlockEffects given x [] x
  | cons {x y z : Exchange σ} {r : BlockRecord} {rs : List BlockRecord} (h : BlockEffect given x r y)
      (hs : BlockEffects given y rs z) : BlockEffects given x (r :: rs) z

variable {x : Exchange σ} {given : List (Want × WantFuture)}

theorem blockEffect_absorbBlock (h : x.wants.Honours given) (r : BlockRecord) :
    BlockEffect given x r (x.absorbBlock r) := by
  rcases x.absorbBlock_cases r with ⟨e, he, hx⟩ | ⟨b, hb, hw, hx⟩ | ⟨b, hb, hw, hx⟩ <;> rw [hx]
  · exact .refused he
  · obtain ⟨-, -, -, hdata⟩ := BlockRecord.toHashed_eq_ok_iff.mp hb
    have houtcome : ∀ w f, (w, f) ∈ given →
        (x.wants.resolve b).1.poll f = (x.wants.poll f).resolved w.cid b :=
      fun w f hf => ((h.tracks_poll hf).1.resolve b).poll_eq
    refine .received hb hdata ((h.valid.resolve_snd_iff b).mp hw) (fun w => ?_) (fun w hp hc => ?_)
      houtcome rfl
    · rw [WantTable.isPending_resolve_iff, and_comm]
    · obtain ⟨f, hf, hpoll⟩ := h.exists_pending hp
      refine ⟨f, hf, hpoll, ?_⟩
      rw [houtcome w f hf, hpoll, WantOutcome.resolved_pending hc.symm]
  · obtain ⟨-, -, -, hdata⟩ := BlockRecord.toHashed_eq_ok_iff.mp hb
    refine .unwanted hb hdata fun w hp hc => ?_
    rw [(h.valid.resolve_snd_iff b).mpr ⟨w, hc, hp⟩] at hw
    cases hw

theorem blockEffects_foldl (h : x.wants.Honours given) (rs : List BlockRecord) :
    BlockEffects given x rs (rs.foldl absorbBlock x) := by
  induction rs generalizing x with
  | nil => exact .nil x
  | cons r rs ih => exact .cons (blockEffect_absorbBlock h r) (ih (honours_absorbBlock h r))

/-- In every run, each block of a message is accounted for, receiving leaves the store alone, and what
the futures bring is content of the names that were asked for. -/
theorem payload_accounted [BlockStore σ] (h : Run x given) (peer : PeerId) (m : Message) :
    (∃ y z frames, x.receive peer m = .ok (y, frames) ∧ BlockEffects given x m.payload z ∧
      y = { z with haves := y.haves } ∧ y.store = x.store) ∧
    ∀ w f b, (w, f) ∈ given → x.wants.poll f = .delivered b →
      b.cid = w.cid ∧ w.cid.hash.code = Multihash.sha2_256 ∧ w.cid.hash.digest = sha256 b.data := by
  refine ⟨⟨_, _, _, receive_eq x peer m, blockEffects_foldl h.honours m.payload, absorb_eq x peer m,
    ?_⟩, fun w f b hf hb => ?_⟩
  · rw [absorb_eq, foldl_absorbBlock_eq]
  · have hcid := (h.honours.tracks_poll hf).2 b hb
    rw [← hcid]
    exact ⟨rfl, b.names⟩

/-- Two wants for one block under different tokens, and a message that brings bytes without a name and
the block twice. Both futures get the block; one record is refused, and one comes too late. -/
theorem payload_accounted_two_tokens :
    let w : Want := { cid := Cid.raw [1, 2, 3] }
    let v : Want := { cid := Cid.raw [1, 2, 3], auth := some ⟨[9]⟩ }
    let x₀ : Exchange MemoryStore := .new {} {} .allowAll .disabled
    let x₁ := (x₀.register ⟨0⟩ w).1
    let x₂ := (x₁.register ⟨5⟩ v).1
    let f := (x₀.register ⟨0⟩ w).2
    let g := (x₁.register ⟨5⟩ v).2
    let given := [(w, f), (v, g)]
    let peer : PeerId := ⟨⟨Multihash.identity, [1, 2], by decide⟩, .inr ⟨rfl, by decide⟩⟩
    let m : Message := { payload :=
      [{ cidPrefix := [9] }, .ofBlock (.raw [1, 2, 3]) none, .ofBlock (.raw [1, 2, 3]) none] }
    Run x₂ given ∧ ∃ y z frames, x₂.receive peer m = .ok (y, frames) ∧
      BlockEffects given x₂ m.payload z ∧ y = { z with haves := y.haves } ∧ y.store = x₂.store ∧
      y.journal.counters = { blocksReceived := 1, blocksRejected := 1, unwantedBlocks := 1 } ∧
      (y.wants.poll f).block?.map HashedBlock.data = some [1, 2, 3] ∧
      (y.wants.poll g).block?.map HashedBlock.data = some [1, 2, 3] ∧
      Run y given ∧ ∀ w f b, (w, f) ∈ given → y.wants.poll f = .delivered b →
        b.cid = w.cid ∧ w.cid.hash.code = Multihash.sha2_256 ∧ w.cid.hash.digest = sha256 b.data := by
  intro w v x₀ x₁ x₂ f g given peer m
  have h₀ : Run x₀ [] := .start {} x₀.store .allowAll .disabled
  have h₁ : Run x₁ [(w, f)] := h₀.step (.register ⟨0⟩ w)
  have h₂ : Run x₂ given := h₁.step (.register ⟨5⟩ v)
  obtain ⟨y, z, frames, hy, hz, hyz, hstore⟩ := (payload_accounted h₂ peer m).1
  have h₃ : Run y given := h₂.step (.receive hy)
  have hdone : (x₂.absorb peer m).journal.counters =
        { blocksReceived := 1, blocksRejected := 1, unwantedBlocks := 1 } ∧
      ((x₂.absorb peer m).wants.poll f).block?.map HashedBlock.data = some [1, 2, 3] ∧
      ((x₂.absorb peer m).wants.poll g).block?.map HashedBlock.data = some [1, 2, 3] := by
    decide +kernel
  have habsorbed : x₂.absorb peer m = y :=
    (Prod.mk.inj (Except.ok.inj ((receive_eq x₂ peer m).symm.trans hy))).1
  rw [habsorbed] at hdone
  obtain ⟨hcounters, hf, hg⟩ := hdone
  exact ⟨h₂, y, z, frames, hy, hz, hyz, hstore, hcounters, hf, hg, h₃,
    (payload_accounted h₃ peer m).2⟩

end BlockExchange.Exchange
