import BlockExchange.Exchange.Fetch
import BlockExchange.Proofs.FileNames
import BlockExchange.Proofs.StoreContent

/-!
# Writes into a directory

What an undisturbed write does (`BlockWrite.complete_cases`): it finds the name taken and does nothing,
or it cannot put the content together, or the name stands for the content afterwards. Whatever has a
name keeps it (`DirectoryStore.Kept`). So a block can be read after it was stored, unless something else
had its name before: that is not replaced, whether or not it is the block (`get_of_stored`).
-/

namespace BlockExchange

namespace BlockWrite
variable {cid : Cid} {data : Bytes} {serial : UInt64} {root : Option Directory} {d : Directory}

theorem writeFile_of_plain {name : String} (hplain : Directory.isPlainName name = true)
    (hitem : d.items.get? name ≠ some .directory) (content : Bytes) :
    d.writeFile name content = some ⟨d.items.set name (.file content)⟩ := by
  unfold Directory.writeFile
  rw [hplain]
  cases h : d.items.get? name with
  | none => rfl
  | some item =>
    cases item with
    | file _ => rfl
    | directory => exact absurd h hitem

theorem writeFile_of_directory {name : String} (hitem : d.items.get? name = some .directory)
    (content : Bytes) : d.writeFile name content = none := by
  unfold Directory.writeFile
  rw [hitem]
  split <;> rfl

theorem complete_of_taken (h : isTaken root cid = true) : complete { cid, data, serial } root =
    ({ cid, data, serial, stage := .finished (.ok ()) }, root) := by
  simp only [complete, step, h, if_true, became]

theorem complete_of_failed (hfree : isTaken root cid = false)
    (h : (root.bind fun d => d.writeFile (partialName cid serial) []) = none) :
    complete { cid, data, serial } root =
      ({ cid, data, serial, stage := .finished (.error (.writeFailed cid)) }, root) := by
  simp only [complete, step, hfree, Bool.false_eq_true, if_false, became, h]

theorem step_checking (hfree : isTaken root cid = false) (n : Nat) :
    step { cid, data, serial } n root = ({ cid, data, serial, stage := .creating }, root) := by
  unfold step
  simp only [hfree, Bool.false_eq_true, if_false]
  rfl

theorem step_creating (hitem : d.items.get? (partialName cid serial) ≠ some .directory) (n : Nat) :
    step { cid, data, serial, stage := .creating } n (some d) =
      ({ cid, data, serial, stage := .writing data },
        some ⟨d.items.set (partialName cid serial) (.file [])⟩) := by
  unfold step
  simp only [Option.bind_some, writeFile_of_plain (isPlainName_partialName cid serial) hitem]
  rfl

/-- A piece of the content is written. -/
theorem step_writing_piece {done rest : Bytes}
    (hitem : d.items.get? (partialName cid serial) = some (.file done)) (n : Nat) :
    step { cid, data, serial, stage := .writing rest } n (some d) =
      ({ cid, data, serial,
          stage := if (rest.drop n).isEmpty then .placing else .writing (rest.drop n) },
        some ⟨d.items.set (partialName cid serial) (.file (done ++ rest.take n))⟩) := by
  unfold step Directory.appendFile
  simp only [Option.bind_some, hitem]
  rfl

theorem step_writing {content rest : Bytes}
    (hitem : d.items.get? (partialName cid serial) = some (.file content)) :
    step { cid, data, serial, stage := .writing rest } rest.length (some d) =
      ({ cid, data, serial, stage := .placing },
        some ⟨d.items.set (partialName cid serial) (.file (content ++ rest))⟩) := by
  rw [step_writing_piece hitem, List.take_length, List.drop_length]
  rfl

/-- The content gets its name, over a file that has it. -/
theorem step_placing {content : Bytes}
    (hitem : d.items.get? (partialName cid serial) = some (.file content))
    (hdir : d.items.get? (blockName cid) ≠ some .directory) (n : Nat) :
    step { cid, data, serial, stage := .placing } n (some d) =
      ({ cid, data, serial, stage := .finished (.ok ()) },
        some ⟨(d.items.erase (partialName cid serial)).set (blockName cid) (.file content)⟩) := by
  have hrename : d.rename (partialName cid serial) (blockName cid) =
      some ⟨(d.items.erase (partialName cid serial)).set (blockName cid) (.file content)⟩ := by
    unfold Directory.rename
    rw [hitem]
    cases hblock : d.items.get? (blockName cid) with
    | none => rfl
    | some item =>
      cases item with
      | file _ => rfl
      | directory => exact absurd hblock hdir
  unfold step
  simp only [Option.bind_some, hrename]
  rfl

/-- A write that nothing hinders puts the content in its place. -/
theorem complete_of_free (data : Bytes) (hfree : isTaken (some d) cid = false)
    (hitem : d.items.get? (partialName cid serial) ≠ some .directory) :
    ∃ d', complete { cid, data, serial } (some d) =
        ({ cid, data, serial, stage := .finished (.ok ()) }, some d') ∧
      ∀ name, d'.items.get? name = if name = blockName cid then some (.file data)
        else if name = partialName cid serial then none else d.items.get? name := by
  have hne : blockName cid ≠ partialName cid serial := blockName_ne_partialName cid cid serial
  have hname : d.items.get? (blockName cid) = none :=
    Option.isNone_iff_eq_none.mp (Option.isSome_eq_false_iff.mp hfree)
  obtain ⟨created, hcreate⟩ : ∃ created : Directory,
      created = ⟨d.items.set (partialName cid serial) (.file [])⟩ := ⟨_, rfl⟩
  obtain ⟨written, hwrite⟩ : ∃ written : Directory,
      written = ⟨created.items.set (partialName cid serial) (.file ([] ++ data))⟩ := ⟨_, rfl⟩
  have hcreated : created.items.get? (partialName cid serial) = some (.file []) := by
    rw [hcreate, Table.get?_set, if_pos rfl]
  have hwritten : written.items.get? (partialName cid serial) = some (.file data) := by
    rw [hwrite, Table.get?_set, if_pos rfl, List.nil_append]
  have hother : ∀ name, name ≠ partialName cid serial →
      written.items.get? name = d.items.get? name := fun name h => by
    rw [hwrite, Table.get?_set, if_neg h, hcreate, Table.get?_set, if_neg h]
  have hplace : written.items.get? (blockName cid) ≠ some .directory := by
    rw [hother _ hne, hname]
    exact nofun
  refine ⟨⟨(written.items.erase (partialName cid serial)).set (blockName cid) (.file data)⟩, ?_,
    fun name => ?_⟩
  · simp only [complete, step_checking hfree, step_creating hitem, ← hcreate, step_writing hcreated,
      ← hwrite, step_placing hwritten hplace]
  · rw [Table.get?_set, Table.get?_erase]
    split
    · rfl
    split
    · rfl
    · rename_i hown
      exact hother name hown

/-- What an undisturbed write can do. `d'` is the directory with the block in the place of whatever had
one of the two names. -/
theorem complete_cases (cid : Cid) (data : Bytes) (serial : UInt64) (root : Option Directory) :
    let r := complete { cid, data, serial } root
    (isTaken root cid = true ∧ r.1.result = .ok () ∧ r.2 = root) ∨
    (isTaken root cid = false ∧ r.1.result = .error (.writeFailed cid) ∧ r.2 = root ∧
      ∀ d, root = some d → d.items.get? (partialName cid serial) = some .directory) ∨
    (isTaken root cid = false ∧ r.1.result = .ok () ∧ ∃ d d', root = some d ∧ r.2 = some d' ∧
      ∀ name, d'.items.get? name = if name = blockName cid then some (.file data)
        else if name = partialName cid serial then none else d.items.get? name) := by
  intro r
  cases htaken : isTaken root cid with
  | true =>
    have hr : r = _ := complete_of_taken htaken
    rw [hr]
    exact .inl ⟨rfl, rfl, rfl⟩
  | false =>
    by_cases hdir : ∀ d, root = some d → d.items.get? (partialName cid serial) = some .directory
    · have hr : r = _ := complete_of_failed htaken (by
        cases root with
        | none => rfl
        | some d => exact writeFile_of_directory (hdir d rfl) [])
      rw [hr]
      exact .inr (.inl ⟨rfl, rfl, rfl, hdir⟩)
    · cases root with
      | none => exact absurd nofun hdir
      | some d =>
        have hitem : d.items.get? (partialName cid serial) ≠ some .directory := fun h =>
          hdir fun d' hd => by rw [← Option.some.inj hd]; exact h
        obtain ⟨d', hr, hitems⟩ := complete_of_free data htaken hitem
        have hr : r = _ := hr
        rw [hr]
        exact .inr (.inr ⟨rfl, rfl, d, d', rfl, rfl, hitems⟩)

end BlockWrite
/-! ### Stores -/

namespace DirectoryStore
variable {s s' s'' : DirectoryStore} {cid : Cid} {data : Bytes}

/-- What has a name keeps it, and the name goes on to stand for the same. -/
def Kept (s s' : DirectoryStore) : Prop :=
  ∀ cid, s.has cid = true → s'.has cid = true ∧ s'.get cid = s.get cid

theorem Kept.refl (s : DirectoryStore) : s.Kept s :=
  fun _ h => ⟨h, rfl⟩

theorem Kept.trans (h : s.Kept s') (h' : s'.Kept s'') : s.Kept s'' := fun cid hcid =>
  have hk := h cid hcid
  have hk' := h' cid hk.1
  ⟨hk'.1, hk'.2.trans hk.2⟩

theorem get_of_item {d : Directory} {path : String} {content : Bytes}
    (h : d.items.get? (BlockWrite.blockName cid) = some (.file content)) (hn : cid.Names content) :
    get ⟨path, some d⟩ cid = .ok (some content) := by
  unfold get
  simp only [Option.bind_some, h]
  exact if_pos hn

theorem get_of_mismatch {content : Bytes}
    (h : s.root.bind (·.items.get? (BlockWrite.blockName cid)) = some (.file content))
    (hn : ¬ cid.Names content) : s.get cid = .error (.digestMismatch cid) := by
  unfold get
  simp only [h]
  exact if_neg hn

theorem get_congr {d d' : Directory} {path : String}
    (h : d'.items.get? (BlockWrite.blockName cid) = d.items.get? (BlockWrite.blockName cid)) :
    get ⟨path, some d'⟩ cid = get ⟨path, some d⟩ cid := by
  unfold get
  simp only [Option.bind_some, h]

/-- What a store is after a write under an identifier, and what it told of it. -/
structure Written (s : DirectoryStore) (cid : Cid) (data : Bytes) (s' : DirectoryStore)
    (result : Except StoreError Unit) : Prop where
  kept : s.Kept s'
  added : ∀ c, s'.has c = true → s.has c = true ∨ c = cid
  stored : result = .ok () →
    s'.has cid = true ∧ s'.get cid = if s.has cid then s.get cid else .ok (some data)

theorem written_complete (s : DirectoryStore) (hn : cid.Names data) (serial : UInt64) :
    let r := BlockWrite.complete { cid, data, serial } s.root
    s.Written cid data { s with root := r.2 } r.1.result := by
  obtain ⟨path, root⟩ := s
  intro r
  rcases BlockWrite.complete_cases cid data serial root with ⟨htaken, -, hroot⟩ |
    ⟨-, hresult, hroot, -⟩ | ⟨hfree, -, d, d', rfl, hroot, hitems⟩
  · have hsame : ({ path, root := r.2 } : DirectoryStore) = ⟨path, root⟩ := by rw [← hroot]
    rw [hsame]
    have hhas : has ⟨path, root⟩ cid = true := htaken
    exact ⟨.refl _, fun _ h => .inl h, fun _ => ⟨hhas, by rw [if_pos hhas]⟩⟩
  · have hsame : ({ path, root := r.2 } : DirectoryStore) = ⟨path, root⟩ := by rw [← hroot]
    rw [hsame]
    refine ⟨.refl _, fun _ h => .inl h, fun hok => ?_⟩
    have hfailed : r.1.result = .error (.writeFailed cid) := hresult
    rw [hfailed] at hok
    cases hok
  · have hsame : ({ path, root := r.2 } : DirectoryStore) = ⟨path, some d'⟩ := by rw [← hroot]
    rw [hsame]
    have hhas : has ⟨path, some d⟩ cid = false := hfree
    have hblock : d'.items.get? (BlockWrite.blockName cid) = some (.file data) := by
      rw [hitems, if_pos rfl]
    have hother : ∀ c, c ≠ cid → d'.items.get? (BlockWrite.blockName c) =
        d.items.get? (BlockWrite.blockName c) := fun c hc => by
      rw [hitems, if_neg fun h => hc (BlockWrite.blockName_injective h),
        if_neg (BlockWrite.blockName_ne_partialName c cid serial)]
    refine ⟨fun c hc => ?_, fun c hc => ?_, fun _ => ⟨?_, ?_⟩⟩
    · have hne : c ≠ cid := fun h => by
        rw [h, hhas] at hc
        cases hc
      refine ⟨?_, get_congr (hother c hne)⟩
      show (d'.items.get? (BlockWrite.blockName c)).isSome = true
      rw [hother c hne]
      exact hc
    · by_cases hne : c = cid
      · exact .inr hne
      · have hc : (d'.items.get? (BlockWrite.blockName c)).isSome = true := hc
        rw [hother c hne] at hc
        exact .inl hc
    · show (d'.items.get? (BlockWrite.blockName cid)).isSome = true
      rw [hblock]
      rfl
    · rw [hhas]
      exact get_of_item hblock hn

theorem written_write (s : DirectoryStore) (hn : cid.Names data) :
    s.Written cid data (s.write cid data).1 (s.write cid data).2 :=
  s.written_complete hn _

/-- A directory without directories in it takes every block. -/
theorem write_eq_ok {d : Directory} {path : String}
    (hfiles : ∀ name, d.items.get? name ≠ some .directory) (cid : Cid) (data : Bytes) :
    (write ⟨path, some d⟩ cid data).2 = .ok () := by
  rcases BlockWrite.complete_cases cid data (BlockWrite.freeSerial d cid d.items.size 0) (some d) with
    ⟨-, hresult, -⟩ | ⟨-, -, -, hdir⟩ | ⟨-, hresult, -⟩
  · exact hresult
  · exact absurd (hdir d rfl) (hfiles _)
  · exact hresult

theorem written_putBlock (s : DirectoryStore) (b : HashedBlock) :
    s.Written b.cid b.data (BlockStore.putBlock s b).1 (BlockStore.putBlock s b).2 :=
  s.written_write b.names

theorem put_of_ok {codec : UInt64} (h : (s.write (Cid.ofData codec data) data).2 = .ok ()) :
    BlockStore.put s codec data =
      ((s.write (Cid.ofData codec data) data).1, .ok (Cid.ofData codec data)) := by
  have hput : BlockStore.put s codec data = ((s.write (Cid.ofData codec data) data).1,
    (s.write (Cid.ofData codec data) data).2.map fun _ => Cid.ofData codec data) := rfl
  rw [hput, h]
  rfl

theorem write_of_taken (h : s.has cid = true) (data : Bytes) : s.write cid data = (s, .ok ()) := by
  have htaken : BlockWrite.isTaken s.root cid = true := h
  unfold write
  simp only [BlockWrite.complete_of_taken htaken]
  rfl

theorem write_of_put {codec : UInt64} {c : Cid} (h : (BlockStore.put s codec data).2 = .ok c) :
    c = Cid.ofData codec data ∧ (s.write c data).2 = .ok () ∧
      (BlockStore.put s codec data).1 = (s.write c data).1 := by
  have hput : (s.write (Cid.ofData codec data) data).2.map (fun _ => Cid.ofData codec data) = .ok c := h
  cases hr : (s.write (Cid.ofData codec data) data).2 with
  | error e =>
    rw [hr] at hput
    cases hput
  | ok u =>
    rw [hr] at hput
    obtain rfl := Except.ok.inj hput
    exact ⟨rfl, hr, rfl⟩

end DirectoryStore

/-! ### Blocks that were fetched -/

namespace Exchange

theorem gather_of_found {x x' : Exchange DirectoryStore} {b : HashedBlock} {slots : List FetchSlot}
    {bs : List HashedBlock} (h : x.gather true (.found b :: slots) = (x', .ok bs)) :
    ∃ bs', x.gather true slots = (x', .ok bs') := by
  unfold gather at h
  cases hrest : x.gather true slots with
  | mk x'' r =>
    rw [hrest] at h
    cases r with
    | error e => cases h
    | ok bs' =>
      obtain rfl : x'' = x' := congrArg Prod.fst h
      exact ⟨bs', rfl⟩

theorem gather_of_awaited {x x' : Exchange DirectoryStore} {f : WantFuture} {slots : List FetchSlot}
    {bs : List HashedBlock} (h : x.gather true (.awaited f :: slots) = (x', .ok bs)) :
    ∃ b bs', x.wants.poll f = .delivered b ∧ (BlockStore.putBlock x.store b).2 = .ok () ∧
      gather true { x with store := (BlockStore.putBlock x.store b).1 } slots = (x', .ok bs') := by
  unfold gather at h
  cases hpoll : x.wants.poll f with
  | pending => rw [hpoll] at h; cases h
  | abandoned => rw [hpoll] at h; cases h
  | delivered b =>
    simp only [hpoll, if_true] at h
    cases hput : BlockStore.putBlock x.store b with
    | mk store r =>
      rw [hput] at h
      cases r with
      | error e => cases h
      | ok u =>
        simp only at h
        cases hrest : gather true { x with store } slots with
        | mk x'' r =>
          rw [hrest] at h
          cases r with
          | error e => cases h
          | ok bs' =>
            obtain rfl : x'' = x' := congrArg Prod.fst h
            exact ⟨b, bs', rfl, by rw [hput], by rw [hput]; exact hrest⟩

/-- Blocks from the network are written one by one, and each can be read in the end unless something
else had its name before. -/
theorem kept_of_gather {x x' : Exchange DirectoryStore} {slots : List FetchSlot}
    {bs : List HashedBlock} (h : x.gather true slots = (x', .ok bs)) :
    x.store.Kept x'.store ∧ ∀ f, .awaited f ∈ slots → ∀ b, x.wants.poll f = .delivered b →
      x.store.has b.cid = false → ∃ data, x'.store.get b.cid = .ok (some data) := by
  induction slots generalizing x bs with
  | nil =>
    obtain rfl := congrArg Prod.fst h
    exact ⟨.refl _, nofun⟩
  | cons slot slots ih =>
    cases slot with
    | found b₀ =>
      obtain ⟨bs', hrest⟩ := gather_of_found h
      obtain ⟨hkept, hget⟩ := ih hrest
      refine ⟨hkept, fun f hf => hget f ?_⟩
      rcases List.mem_cons.mp hf with hf | hf
      · cases hf
      · exact hf
    | awaited f₀ =>
      obtain ⟨b₀, bs', hpoll, hput, hrest⟩ := gather_of_awaited h
      have hw := x.store.written_putBlock b₀
      obtain ⟨hhas, hstored⟩ := hw.stored hput
      obtain ⟨hkept, hget⟩ := ih hrest
      have hfirst : x.store.has b₀.cid = false → ∃ data, x'.store.get b₀.cid = .ok (some data) := by
        intro hfree
        rw [hfree] at hstored
        exact ⟨b₀.data, (hkept b₀.cid hhas).2.trans hstored⟩
      refine ⟨hw.kept.trans hkept, fun f hf b hb hfree => ?_⟩
      rcases List.mem_cons.mp hf with hf | hf
      · obtain rfl := FetchSlot.awaited.inj hf
        obtain rfl : b₀ = b := WantOutcome.delivered.inj (hpoll.symm.trans hb)
        exact hfirst hfree
      · cases hafter : (BlockStore.putBlock x.store b₀).1.has b.cid with
        | false => exact hget f hf b hb hafter
        | true =>
          rcases hw.added b.cid hafter with hhad | hsame
          · exact absurd (hfree.symm.trans hhad) nofun
          · rw [hsame] at hfree ⊢
            exact hfirst hfree

end Exchange

/-! ### Reading what was stored -/

namespace DirectoryStore

/-- A block that was stored can be read if nothing had its name. What had the name is left as it was, so
that the block is read as it would have been without storing it, which may fail. That goes for a write
under any number, for both ways to store a block, and for blocks that were fetched and put into the
store, whatever the directory held before. -/
theorem get_of_stored (s : DirectoryStore) :
    (∀ cid data serial, cid.Names data →
      (BlockWrite.complete { cid, data, serial } s.root).1.result = .ok () →
      get { s with root := (BlockWrite.complete { cid, data, serial } s.root).2 } cid =
        if s.has cid then s.get cid else .ok (some data)) ∧
    (∀ codec data cid, (BlockStore.put s codec data).2 = .ok cid → cid = Cid.ofData codec data ∧
      BlockStore.get (BlockStore.put s codec data).1 cid =
        if s.has cid then s.get cid else .ok (some data)) ∧
    (∀ b, (BlockStore.putBlock s b).2 = .ok () →
      BlockStore.get (BlockStore.putBlock s b).1 b.cid =
        if s.has b.cid then s.get b.cid else .ok (some b.data)) ∧
    ∀ (x x' : Exchange DirectoryStore) slots bs, x.store = s → x.gather true slots = (x', .ok bs) →
      ∀ f b, .awaited f ∈ slots → x.wants.poll f = .delivered b →
        (s.has b.cid = true → x'.store.get b.cid = s.get b.cid) ∧
        (s.has b.cid = false → ∃ data, b.cid.Names data ∧ x'.store.get b.cid = .ok (some data)) := by
  refine ⟨fun cid data serial hn hok => ?_, fun codec data cid hok => ?_, fun b hok => ?_, ?_⟩
  · exact ((s.written_complete hn serial).stored hok).2
  · obtain ⟨hcid, hwrite, hsame⟩ := write_of_put hok
    refine ⟨hcid, ?_⟩
    rw [hsame]
    exact ((s.written_write (hcid ▸ Cid.names_ofData codec data)).stored hwrite).2
  · exact ((s.written_putBlock b).stored hok).2
  · rintro x x' slots bs rfl hgather f b hf hb
    obtain ⟨hkept, hget⟩ := Exchange.kept_of_gather hgather
    refine ⟨fun hhas => (hkept b.cid hhas).2, fun hfree => ?_⟩
    obtain ⟨data, hdata⟩ := hget f hf b hb hfree
    exact ⟨data, (x'.store.faithful b.cid data hdata).2, hdata⟩

/-- In a directory that holds another block and a file under no block's name, what was stored can be
read. -/
theorem get_of_stored_beside :
    let cid := Cid.ofData Codec.raw [1]
    let other := BlockWrite.blockName (Cid.ofData Codec.raw [2])
    let items : Table String DirectoryItem :=
      (Table.empty.set other (.file [2])).set "notes" (.file [1])
    let s : DirectoryStore := ⟨"blocks", some ⟨items⟩⟩
    (BlockStore.put s Codec.raw [1]).2 = .ok cid ∧
    BlockStore.get (BlockStore.put s Codec.raw [1]).1 cid = .ok (some [1]) := by
  intro cid other items s
  have hfiles : ∀ name, items.get? name ≠ some .directory := by
    intro name hname
    rw [Table.get?_set, Table.get?_set] at hname
    split at hname
    · cases hname
    · split at hname <;> cases hname
  have hwrite : (s.write cid [1]).2 = .ok () := write_eq_ok hfiles cid [1]
  have hput : (BlockStore.put s Codec.raw [1]).2 = .ok cid := congrArg Prod.snd (put_of_ok hwrite)
  obtain ⟨-, hget⟩ := (get_of_stored s).2.1 Codec.raw [1] cid hput
  have hfree : s.has cid = false := by decide +kernel
  rw [hfree] at hget
  exact ⟨hput, hget⟩

/-- A file with other content under the name of a block: the block is said to be stored, and cannot be
read. -/
theorem get_of_corrupt {codec : UInt64} {data content : Bytes} {path : String} {d : Directory}
    (hitem : d.items.get? (BlockWrite.blockName (Cid.ofData codec data)) = some (.file content))
    (hn : ¬ (Cid.ofData codec data).Names content) :
    (BlockStore.put ⟨path, some d⟩ codec data : DirectoryStore × _).2 =
      .ok (Cid.ofData codec data) ∧
    BlockStore.get (BlockStore.put ⟨path, some d⟩ codec data : DirectoryStore × _).1
      (Cid.ofData codec data) = .error (.digestMismatch (Cid.ofData codec data)) := by
  have hhas : has ⟨path, some d⟩ (Cid.ofData codec data) = true := by
    show (d.items.get? (BlockWrite.blockName (Cid.ofData codec data))).isSome = true
    rw [hitem]
    rfl
  rw [put_of_ok (by rw [write_of_taken hhas]), write_of_taken hhas]
  exact ⟨rfl, get_of_mismatch hitem hn⟩

theorem unreadable_after_put :
    let cid := Cid.ofData Codec.raw [1]
    let s : DirectoryStore :=
      ⟨"blocks", some ⟨Table.empty.set (BlockWrite.blockName cid) (.file [2])⟩⟩
    (BlockStore.put s Codec.raw [1]).2 = .ok cid ∧
    BlockStore.get (BlockStore.put s Codec.raw [1]).1 cid = .error (.digestMismatch cid) :=
  get_of_corrupt (by rw [Table.get?_set, if_pos rfl]) (by decide +kernel)

end DirectoryStore
end BlockExchange
