import BlockExchange.Proofs.DirectoryWrites

/-!
# A directory as good as memory

Calls on a store that nobody else touches (`StoreCall`). A store follows a store in memory when every
call answers the same and leads to stores that again follow one another (`Follows`); then all calls
answer the same (`Follows.answers_eq`). A directory follows a store in memory as long as it holds the
same blocks and no directories (`Mirrors`), and it goes on to do so whatever numbers its writes draw and
however often it is opened anew (`answers_same_as_memory`).
-/

namespace BlockExchange

/-! ### Calls -/

inductive StoreCall
  | put (codec : UInt64) (data : Bytes)
  | putBlock (b : HashedBlock)
  | has (cid : Cid)
  | get (cid : Cid)
  | reopen

/-- What a call answers. -/
inductive StoreAnswer
  | named (r : Except StoreError Cid)
  | present (r : Except StoreError Bool)
  | content (r : Except StoreError (Option Bytes))
  | done (r : Except StoreError Unit)

namespace StoreCall

section
variable {σ : Type} [BlockStore σ]

/-- The store after a call, and the answer. A store that cannot be opened anew stays as it is. -/
def run (reopen : σ → Except StoreError σ) (s : σ) : StoreCall → σ × StoreAnswer
  | .put codec data =>
    let (s, r) := BlockStore.put s codec data
    (s, .named r)
  | .putBlock b =>
    let (s, r) := BlockStore.putBlock s b
    (s, .done r)
  | .has cid => (s, .present (BlockStore.has s cid))
  | .get cid => (s, .content (BlockStore.get s cid))
  | .reopen =>
    match reopen s with
    | .ok s => (s, .done (.ok ()))
    | .error e => (s, .done (.error e))

def answers (reopen : σ → Except StoreError σ) : σ → List StoreCall → List StoreAnswer
  | _, [] => []
  | s, call :: calls =>
    let (s, a) := call.run reopen s
    a :: answers reopen s calls

end

/-- What a store in memory answers. There is nothing to open anew. -/
def memoryAnswers (calls : List StoreCall) : List StoreAnswer :=
  answers .ok ({} : MemoryStore) calls

/-- Related stores answer every call alike and stay related. -/
structure Follows {σ : Type} [BlockStore σ] (reopen : σ → Except StoreError σ)
    (R : σ → MemoryStore → Prop) : Prop where
  put : ∀ {s m}, R s m → ∀ codec data, R (BlockStore.put s codec data).1 (BlockStore.put m codec data).1 ∧
    (BlockStore.put s codec data).2 = (BlockStore.put m codec data).2
  putBlock : ∀ {s m}, R s m → ∀ b, R (BlockStore.putBlock s b).1 (BlockStore.putBlock m b).1 ∧
    (BlockStore.putBlock s b).2 = (BlockStore.putBlock m b).2
  has : ∀ {s m}, R s m → ∀ cid, BlockStore.has s cid = BlockStore.has m cid
  get : ∀ {s m}, R s m → ∀ cid, BlockStore.get s cid = BlockStore.get m cid
  reopen : ∀ {s m}, R s m → ∃ s', reopen s = .ok s' ∧ R s' m

section
variable {σ : Type} [BlockStore σ] {reopen : σ → Except StoreError σ} {R : σ → MemoryStore → Prop}
  {s : σ} {m : MemoryStore}

theorem Follows.run (h : Follows reopen R) (hr : R s m) (call : StoreCall) :
    R (call.run reopen s).1 (call.run .ok m).1 ∧ (call.run reopen s).2 = (call.run .ok m).2 := by
  cases call with
  | put codec data =>
    obtain ⟨hr', heq⟩ := h.put hr codec data
    exact ⟨hr', congrArg StoreAnswer.named heq⟩
  | putBlock b =>
    obtain ⟨hr', heq⟩ := h.putBlock hr b
    exact ⟨hr', congrArg StoreAnswer.done heq⟩
  | has cid => exact ⟨hr, congrArg StoreAnswer.present (h.has hr cid)⟩
  | get cid => exact ⟨hr, congrArg StoreAnswer.content (h.get hr cid)⟩
  | reopen =>
    obtain ⟨s', hs', hr'⟩ := h.reopen hr
    simp only [StoreCall.run, hs']
    exact ⟨hr', trivial⟩

theorem answers_cons (call : StoreCall) (calls : List StoreCall) :
    answers reopen s (call :: calls) =
      (call.run reopen s).2 :: answers reopen (call.run reopen s).1 calls := rfl

theorem Follows.answers_eq (h : Follows reopen R) (hr : R s m) (calls : List StoreCall) :
    answers reopen s calls = answers .ok m calls := by
  induction calls generalizing s m with
  | nil => rfl
  | cons call calls ih =>
    obtain ⟨hr', heq⟩ := h.run hr call
    rw [answers_cons, answers_cons, heq, ih hr']

end
end StoreCall

/-! ### A directory and a store in memory -/

/-- A directory has the blocks of a store in memory under their names, and no directories. -/
structure Directory.Mirrors (d : Directory) (m : MemoryStore) : Prop where
  blocks : ∀ cid, d.items.get? (BlockWrite.blockName cid) = (m.blocks.get? cid).map .file
  files : ∀ name, d.items.get? name ≠ some .directory
  names : ∀ cid data, m.blocks.get? cid = some data → cid.Names data

namespace Directory.Mirrors
variable {d : Directory} {m : MemoryStore} {cid : Cid} {data : Bytes}

theorem empty : Mirrors {} {} := by
  refine ⟨fun _ => rfl, fun name h => ?_, nofun⟩
  rw [Table.get?_empty] at h
  cases h

theorem isTaken (h : d.Mirrors m) (cid : Cid) :
    BlockWrite.isTaken (some d) cid = m.blocks.contains cid := by
  show (d.items.get? (BlockWrite.blockName cid)).isSome = (m.blocks.get? cid).isSome
  rw [h.blocks, Option.isSome_map]

theorem get (h : d.Mirrors m) (path : String) (cid : Cid) :
    DirectoryStore.get ⟨path, some d⟩ cid = .ok (m.blocks.get? cid) := by
  cases hm : m.blocks.get? cid with
  | none =>
    have hitem := h.blocks cid
    rw [hm] at hitem
    unfold DirectoryStore.get
    simp only [Option.bind_some, hitem]
    rfl
  | some data =>
    have hitem := h.blocks cid
    rw [hm] at hitem
    exact DirectoryStore.get_of_item hitem (h.names cid data hm)

/-- Both stores keep what is there and take what is new, whatever number the write has. -/
theorem complete (h : d.Mirrors m) (hn : cid.Names data) (serial : UInt64) :
    let r := BlockWrite.complete { cid, data, serial } (some d)
    r.1.result = .ok () ∧ ∃ d', r.2 = some d' ∧ d'.Mirrors (m.insert cid data) := by
  intro r
  have htaken := h.isTaken cid
  unfold MemoryStore.insert
  rcases BlockWrite.complete_cases cid data serial (some d) with ⟨hhas, hresult, hroot⟩ |
    ⟨-, -, -, hdir⟩ | ⟨hhas, hresult, _, d', hd, hroot, hitems⟩
  · rw [if_pos (htaken.symm.trans hhas)]
    exact ⟨hresult, d, hroot, h⟩
  · exact absurd (hdir d rfl) (h.files _)
  · obtain rfl := Option.some.inj hd
    rw [if_neg (by rw [← htaken, hhas]; exact Bool.false_ne_true)]
    refine ⟨hresult, d', hroot, fun c => ?_, fun name => ?_, fun c b hb => ?_⟩
    · show _ = ((m.blocks.set cid data).get? c).map DirectoryItem.file
      rw [hitems, if_neg (BlockWrite.blockName_ne_partialName c cid serial), Table.get?_set]
      by_cases hc : c = cid
      · rw [if_pos (congrArg _ hc), if_pos hc]
        rfl
      · rw [if_neg fun h => hc (BlockWrite.blockName_injective h), if_neg hc]
        exact h.blocks c
    · intro hdir
      rw [hitems] at hdir
      split at hdir
      · cases hdir
      split at hdir
      · cases hdir
      · exact h.files name hdir
    · have hb : (m.blocks.set cid data).get? c = some b := hb
      rw [Table.get?_set] at hb
      split at hb
      · rename_i hc
        rw [hc, ← Option.some.inj hb]
        exact hn
      · exact h.names c b hb

end Directory.Mirrors

namespace DirectoryStore

/-- Opens the directory anew. -/
def reopen (s : DirectoryStore) : Except StoreError DirectoryStore :=
  DirectoryStore.open s.path s.root false

/-- The store has a directory with the blocks of the store in memory. -/
def Mirrors (s : DirectoryStore) (m : MemoryStore) : Prop :=
  ∃ d, s.root = some d ∧ d.Mirrors m

variable {s : DirectoryStore} {m : MemoryStore} {cid : Cid} {data : Bytes}

theorem Mirrors.has (h : s.Mirrors m) (cid : Cid) : s.has cid = m.blocks.contains cid := by
  obtain ⟨d, hd, h⟩ := h
  rw [DirectoryStore.has, hd]
  exact h.isTaken cid

theorem Mirrors.get (h : s.Mirrors m) (cid : Cid) : s.get cid = .ok (m.blocks.get? cid) := by
  obtain ⟨path, root⟩ := s
  obtain ⟨d, rfl, h⟩ := h
  exact h.get path cid

theorem Mirrors.reopen (h : s.Mirrors m) : s.reopen = .ok s := by
  obtain ⟨path, root⟩ := s
  obtain ⟨d, rfl, -⟩ := h
  rfl

/-- A write under any number. -/
theorem Mirrors.complete (h : s.Mirrors m) (hn : cid.Names data) (serial : UInt64) :
    let r := BlockWrite.complete { cid, data, serial } s.root
    r.1.result = .ok () ∧ Mirrors { s with root := r.2 } (m.insert cid data) := by
  obtain ⟨d, hd, h⟩ := h
  rw [hd]
  obtain ⟨hok, d', hd', h'⟩ := h.complete hn serial
  exact ⟨hok, d', hd', h'⟩

theorem Mirrors.write (h : s.Mirrors m) (hn : cid.Names data) :
    (s.write cid data).2 = .ok () ∧ (s.write cid data).1.Mirrors (m.insert cid data) :=
  h.complete hn _

theorem follows : StoreCall.Follows reopen Mirrors where
  put {s m} h codec data := by
    obtain ⟨hok, h'⟩ := h.write (Cid.names_ofData codec data)
    rw [put_of_ok hok]
    exact ⟨h', rfl⟩
  putBlock h b := (h.write b.names).symm
  has h cid := congrArg Except.ok (h.has cid)
  get h cid := h.get cid
  reopen h := ⟨_, h.reopen, h⟩

end DirectoryStore

/-! ### Numbers that are drawn -/

/-- A store whose writes have any numbers, drawn one after the other. -/
structure DrawingStore where
  store : DirectoryStore
  serials : Nat → UInt64
  drawn : Nat := 0

namespace DrawingStore

def write (s : DrawingStore) (cid : Cid) (data : Bytes) : DrawingStore × Except StoreError Unit :=
  let (w, root) := BlockWrite.complete { cid, data, serial := s.serials s.drawn } s.store.root
  ({ s with store := { s.store with root }, drawn := s.drawn + 1 }, w.result)

instance : BlockStore DrawingStore where
  has s cid := BlockStore.has s.store cid
  get s cid := BlockStore.get s.store cid
  put s codec data :=
    let cid := Cid.ofData codec data
    let (s, result) := s.write cid data
    (s, result.map fun _ => cid)
  putBlock s b := s.write b.cid b.data

def reopen (s : DrawingStore) : Except StoreError DrawingStore :=
  s.store.reopen.map fun store => { s with store }

theorem follows : StoreCall.Follows reopen fun s m => s.store.Mirrors m where
  put {s m} h codec data := by
    obtain ⟨hok, h'⟩ := h.complete (Cid.names_ofData codec data) (s.serials s.drawn)
    have hput : BlockStore.put s codec data = ((s.write (Cid.ofData codec data) data).1,
      (s.write (Cid.ofData codec data) data).2.map fun _ => Cid.ofData codec data) := rfl
    have hwrite : (s.write (Cid.ofData codec data) data).2 = .ok () := hok
    rw [hput, hwrite]
    exact ⟨h', rfl⟩
  putBlock {s m} h b := (h.complete b.names (s.serials s.drawn)).symm
  has h cid := congrArg Except.ok (h.has cid)
  get h cid := h.get cid
  reopen {s m} h := by
    refine ⟨s, ?_, h⟩
    rw [reopen, h.reopen]
    rfl

end DrawingStore

/-- Calls on a store in a new or an empty directory are answered as calls on a store in memory are,
however often the directory is opened anew and whatever numbers the writes have. No two blocks have the
same file, and no block has the name of a file that is still being written. -/
theorem answers_same_as_memory (path : String) (calls : List StoreCall) :
    let s : DirectoryStore := ⟨path, some {}⟩
    DirectoryStore.open path none false = .ok s ∧ DirectoryStore.open path (some {}) false = .ok s ∧
    StoreCall.answers DirectoryStore.reopen s calls = StoreCall.memoryAnswers calls ∧
    (∀ serials, StoreCall.answers DrawingStore.reopen ⟨s, serials, 0⟩ calls =
      StoreCall.memoryAnswers calls) ∧
    Function.Injective BlockWrite.blockName ∧
    ∀ cid cid' serial, BlockWrite.blockName cid ≠ BlockWrite.partialName cid' serial := by
  intro s
  have hs : s.Mirrors {} := ⟨{}, rfl, .empty⟩
  exact ⟨rfl, rfl, DirectoryStore.follows.answers_eq hs calls,
    fun serials => DrawingStore.follows.answers_eq hs calls,
    fun _ _ h => BlockWrite.blockName_injective h, BlockWrite.blockName_ne_partialName⟩

end BlockExchange
