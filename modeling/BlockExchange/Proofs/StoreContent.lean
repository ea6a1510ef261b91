import BlockExchange.Store.AnyStore

/-!
# What stores hold

A store that is filled by `put` and `putBlock` gives out content under its right name only, and says
that it has what it gives out (`AnyStore.Reached.faithful`). A store in memory never looks again at
what it was given, so this is an invariant of the calls; a store in a directory checks what it reads,
whatever is in the directory.
-/

namespace BlockExchange

/-- What is given out has its right name, and the store does not deny having it. -/
def Faithful {σ : Type} [BlockStore σ] (s : σ) : Prop :=
  ∀ cid data, BlockStore.get s cid = .ok (some data) →
    BlockStore.has s cid = .ok true ∧ cid.Names data

namespace MemoryStore
variable {s : MemoryStore}

theorem faithful_iff :
    Faithful s ↔ ∀ cid data, s.blocks.get? cid = some data → cid.Names data := by
  constructor
  · intro h cid data hdata
    exact (h cid data (congrArg Except.ok hdata)).2
  · intro h cid data hdata
    have hget : s.blocks.get? cid = some data := Except.ok.inj hdata
    refine ⟨congrArg Except.ok ?_, h cid data hget⟩
    rw [Table.contains, hget]
    rfl

theorem faithful_empty : Faithful ({} : MemoryStore) :=
  faithful_iff.mpr nofun

theorem faithful_insert (h : Faithful s) {cid : Cid} {data : Bytes} (hn : cid.Names data) :
    Faithful (s.insert cid data) := by
  rw [faithful_iff] at h ⊢
  unfold insert
  split
  · exact h
  · intro c d hd
    rw [Table.get?_set] at hd
    split at hd
    · rename_i hc
      obtain rfl := Option.some.inj hd
      rw [hc]
      exact hn
    · exact h c d hd

end MemoryStore

theorem DirectoryStore.faithful (s : DirectoryStore) : Faithful s := by
  intro cid data h
  have hget : s.get cid = .ok (some data) := h
  unfold DirectoryStore.get at hget
  split at hget
  · cases hget
  · cases hget
  · rename_i content hfile
    split at hget
    · rename_i hn
      obtain rfl := Option.some.inj (Except.ok.inj hget)
      refine ⟨congrArg Except.ok ?_, hn⟩
      obtain ⟨d, hd, hitem⟩ := Option.bind_eq_some_iff.mp hfile
      show (s.root.any fun d => d.exists? (BlockWrite.blockName cid)) = true
      rw [hd]
      show (d.items.get? (BlockWrite.blockName cid)).isSome = true
      rw [hitem]
      rfl
    · cases hget

namespace AnyStore

/-- A store that was opened and then filled. Nobody knows what a directory held before. -/
inductive Reached : AnyStore → Prop
  | opened {path : Option String} {root : Option Directory} {fileInPlace : Bool} {s : AnyStore}
      (h : AnyStore.open path root fileInPlace = .ok s) : Reached s
  | put {s : AnyStore} (h : Reached s) (codec : UInt64) (data : Bytes) :
      Reached (BlockStore.put s codec data).1
  | putBlock {s : AnyStore} (h : Reached s) (b : HashedBlock) : Reached (BlockStore.putBlock s b).1

/-- What a store keeps through the calls: it is in memory and faithful, or in a directory. -/
def Kept : AnyStore → Prop
  | .memory s => Faithful s
  | .directory _ => True
  | .scripted _ => False

theorem Reached.kept {s : AnyStore} (h : Reached s) : s.Kept := by
  induction h with
  | @opened path root fileInPlace s h =>
    cases path with
    | none =>
      obtain rfl := Except.ok.inj h
      exact MemoryStore.faithful_empty
    | some path =>
      have hopen : (DirectoryStore.open path root fileInPlace).map .directory = .ok s := h
      cases hd : DirectoryStore.open path root fileInPlace with
      | error e => rw [hd] at hopen; cases hopen
      | ok d =>
        rw [hd] at hopen
        obtain rfl := Except.ok.inj hopen
        trivial
  | @put s _ codec data ih =>
    cases s with
    | memory s => exact MemoryStore.faithful_insert ih (Cid.names_ofData codec data)
    | directory s => trivial
    | scripted s => exact ih.elim
  | @putBlock s _ b ih =>
    cases s with
    | memory s => exact MemoryStore.faithful_insert ih b.names
    | directory s => trivial
    | scripted s => exact ih.elim

theorem Reached.faithful {s : AnyStore} (h : Reached s) : Faithful s := by
  have hk := h.kept
  cases s with
  | memory s => exact hk
  | directory s => exact s.faithful
  | scripted s => exact hk.elim

end AnyStore
end BlockExchange
