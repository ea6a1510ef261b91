import BlockExchange.Proofs.DirectoryWrites

/-!
# Writes beside one another

A write keeps to two names: its own, under which nobody else puts anything, and the name of its block,
which it gives away only when all the content is there. `Supported` says what the directory has for a
write at each of its stages, and `Touches` what a step may change for others. A step of a write that is
supported leads to one that is (`Supported.step`), and a write under another name stays supported
(`Touches.supported`).
-/

namespace BlockExchange

namespace Directory

/-- The name of a block stands for this content. -/
def Holds (d : Directory) (cid : Cid) (data : Bytes) : Prop :=
  d.items.get? (BlockWrite.blockName cid) = some (.file data)

def Readable (d : Directory) (cid : Cid) : Prop :=
  ∃ data, cid.Names data ∧ d.Holds cid data

/-- What has the name of a block is all of that block. -/
def Whole (d : Directory) : Prop :=
  ∀ cid, d.items.get? (BlockWrite.blockName cid) = none ∨ d.Readable cid

theorem Whole.empty : Whole {} :=
  fun _ => .inl rfl

theorem Whole.ne_directory {d : Directory} (h : d.Whole) (cid : Cid) :
    d.items.get? (BlockWrite.blockName cid) ≠ some .directory := by
  intro hdir
  rcases h cid with hnone | ⟨_, -, hfile⟩
  · rw [hnone] at hdir
    cases hdir
  · rw [Holds, hdir] at hfile
    cases hfile

theorem Whole.readable_of_taken {d : Directory} (h : d.Whole) {cid : Cid}
    (htaken : BlockWrite.isTaken (some d) cid = true) : d.Readable cid := by
  refine (h cid).resolve_left fun hnone => ?_
  have htaken : (d.items.get? (BlockWrite.blockName cid)).isSome = true := htaken
  rw [hnone] at htaken
  cases htaken

/-- A store over a whole directory reads a block or nothing. -/
theorem Whole.get {d : Directory} (h : d.Whole) (path : String) (cid : Cid) :
    DirectoryStore.get ⟨path, some d⟩ cid = .ok none ∨
      ∃ data, DirectoryStore.get ⟨path, some d⟩ cid = .ok (some data) ∧ cid.Names data ∧
        d.Holds cid data := by
  rcases h cid with hnone | ⟨data, hn, hfile⟩
  · refine .inl ?_
    unfold DirectoryStore.get
    simp only [Option.bind_some, hnone]
  · exact .inr ⟨data, DirectoryStore.get_of_item hfile hn, hn, hfile⟩

end Directory

namespace BlockWrite

/-- The name that a write has for itself. -/
def ownName (w : BlockWrite) : String :=
  partialName w.cid w.serial

/-- What the directory has under a write's own name, stage by stage. A write that is through has gone
well, has left nothing behind and its block is there. -/
def Supported (w : BlockWrite) (d : Directory) : Prop :=
  match w.stage with
  | .checking | .creating => d.items.get? w.ownName = none
  | .writing rest => ∃ done, d.items.get? w.ownName = some (.file done) ∧ done ++ rest = w.data
  | .placing => d.items.get? w.ownName = some (.file w.data)
  | .finished r => r = .ok () ∧ d.items.get? w.ownName = none ∧ d.Readable w.cid

/-- What a step of a write may change: what is under its own name, and the name of its block, which
may come to stand for the whole content. -/
structure Touches (w : BlockWrite) (d d' : Directory) : Prop where
  others : ∀ name, name ≠ w.ownName → name ≠ blockName w.cid →
    d'.items.get? name = d.items.get? name
  block : d'.items.get? (blockName w.cid) = d.items.get? (blockName w.cid) ∨ d'.Holds w.cid w.data

namespace Touches
variable {w : BlockWrite} {d d' : Directory} {cid : Cid}

theorem refl (w : BlockWrite) (d : Directory) : w.Touches d d :=
  ⟨fun _ _ _ => rfl, .inl rfl⟩

/-- Setting one's own name leaves all names of blocks alone. -/
theorem of_own (h : ∀ name, name ≠ w.ownName → d'.items.get? name = d.items.get? name) :
    w.Touches d d' :=
  ⟨fun name hown _ => h name hown, .inl (h _ (blockName_ne_partialName _ _ _))⟩

theorem block_cases (h : w.Touches d d') (cid : Cid) :
    d'.items.get? (blockName cid) = d.items.get? (blockName cid) ∨
      cid = w.cid ∧ d'.Holds w.cid w.data := by
  by_cases hcid : cid = w.cid
  · rcases h.block with hsame | hnew
    · exact .inl (hcid ▸ hsame)
    · exact .inr ⟨hcid, hnew⟩
  · exact .inl (h.others _ (blockName_ne_partialName _ _ _)
      fun hname => hcid (blockName_injective hname))

theorem readable (h : w.Touches d d') (hn : w.cid.Names w.data) (hr : d.Readable cid) :
    d'.Readable cid := by
  rcases h.block_cases cid with hsame | ⟨rfl, hnew⟩
  · obtain ⟨data, hdata, hfile⟩ := hr
    exact ⟨data, hdata, hsame.trans hfile⟩
  · exact ⟨w.data, hn, hnew⟩

theorem whole (h : w.Touches d d') (hn : w.cid.Names w.data) (hd : d.Whole) : d'.Whole := by
  intro cid
  rcases h.block_cases cid with hsame | ⟨rfl, hnew⟩
  · rcases hd cid with hnone | hr
    · exact .inl (hsame.trans hnone)
    · exact .inr (h.readable hn hr)
  · exact .inr ⟨w.data, hn, hnew⟩

/-- A write does not get in the way of another under a different name. -/
theorem supported {v : BlockWrite} (h : w.Touches d d') (hn : w.cid.Names w.data)
    (hne : v.ownName ≠ w.ownName) (hv : v.Supported d) : v.Supported d' := by
  have hown : d'.items.get? v.ownName = d.items.get? v.ownName :=
    h.others _ hne (blockName_ne_partialName _ _ _).symm
  unfold Supported at hv ⊢
  rw [hown]
  split at hv
  · exact hv
  · exact hv
  · exact hv
  · exact hv
  · exact ⟨hv.1, hv.2.1, h.readable hn hv.2.2⟩

end Touches

section
variable {cid : Cid} {data : Bytes} {serial : UInt64} {d : Directory}

theorem step_of_taken (h : isTaken (some d) cid = true) (n : Nat) :
    step { cid, data, serial } n (some d) =
      ({ cid, data, serial, stage := .finished (.ok ()) }, some d) := by
  unfold step
  simp only [h, if_true]
  rfl

end

/-- Every step of a write goes well and leads to the next stage. -/
theorem Supported.step {w : BlockWrite} {d : Directory} (h : w.Supported d) (hd : d.Whole)
    (hn : w.cid.Names w.data) (n : Nat) :
    ∃ stage d', w.step n (some d) = ({ w with stage }, some d') ∧
      ({ w with stage } : BlockWrite).Supported d' ∧ w.Touches d d' := by
  obtain ⟨cid, data, serial, stage⟩ := w
  have hset : ∀ item name, name ≠ partialName cid serial →
      (d.items.set (partialName cid serial) item).get? name = d.items.get? name := by
    intro item name hne
    rw [Table.get?_set, if_neg hne]
  cases stage with
  | checking =>
    cases htaken : isTaken (some d) cid with
    | true =>
      exact ⟨_, d, step_of_taken htaken n, ⟨rfl, h, hd.readable_of_taken htaken⟩, .refl _ d⟩
    | false => exact ⟨_, d, step_checking htaken n, h, .refl _ d⟩
  | creating =>
    have habsent : d.items.get? (partialName cid serial) = none := h
    refine ⟨_, _, step_creating (by rw [habsent]; exact nofun) n, ⟨[], ?_, rfl⟩, .of_own (hset _)⟩
    exact (Table.get?_set ..).trans (if_pos rfl)
  | writing rest =>
    obtain ⟨done, hfile, hdata⟩ := h
    refine ⟨_, _, step_writing_piece hfile n, ?_, .of_own (hset _)⟩
    have hitem : (d.items.set (partialName cid serial) (.file (done ++ rest.take n))).get?
        (partialName cid serial) = some (.file (done ++ rest.take n)) :=
      (Table.get?_set ..).trans (if_pos rfl)
    have hdone : (done ++ rest.take n) ++ rest.drop n = data := by
      rw [List.append_assoc, List.take_append_drop]
      exact hdata
    cases hrest : (rest.drop n).isEmpty with
    | true =>
      rw [List.isEmpty_iff.mp hrest, List.append_nil] at hdone
      rw [hdone] at hitem
      exact hdone.symm ▸ hitem
    | false => exact ⟨_, hitem, hdone⟩
  | placing =>
    have hfile : d.items.get? (partialName cid serial) = some (.file data) := h
    have hne : blockName cid ≠ partialName cid serial := blockName_ne_partialName _ _ _
    have hplaced : ((d.items.erase (partialName cid serial)).set (blockName cid)
        (.file data)).get? (blockName cid) = some (.file data) :=
      (Table.get?_set ..).trans (if_pos rfl)
    refine ⟨_, _, step_placing hfile (hd.ne_directory cid) n, ⟨rfl, ?_, data, hn, hplaced⟩,
      fun name hown hblock => ?_, .inr hplaced⟩
    · show Table.get? (Table.set _ _ _) (partialName cid serial) = none
      rw [Table.get?_set, if_neg hne.symm, Table.get?_erase, if_pos rfl]
    · show Table.get? (Table.set _ _ _) name = _
      rw [Table.get?_set, if_neg hblock, Table.get?_erase]
      exact if_neg hown
  | finished r => exact ⟨_, d, rfl, h, .refl _ d⟩

/-- How many steps of a write are left at most, if each piece that it writes has a byte. -/
def left (w : BlockWrite) : Nat :=
  match w.stage with
  | .checking => w.data.length + 4
  | .creating => w.data.length + 3
  | .writing rest => rest.length + 2
  | .placing => 1
  | .finished _ => 0

theorem left_step (w : BlockWrite) (n : Nat) (root : Option Directory) :
    (w.step n root).1.left ≤ w.left - if 0 < n then 1 else 0 := by
  obtain ⟨cid, data, serial, stage⟩ := w
  have hpiece : (if 0 < n then 1 else 0) ≤ min n 1 := by split <;> omega
  unfold step
  -- a step that goes wrong ends the write, with nothing left
  cases stage with
  | checking =>
    cases isTaken root cid with
    | true =>
      simp only [if_true]
      exact Nat.zero_le _
    | false =>
      simp only [Bool.false_eq_true, if_false, became, left]
      omega
  | creating =>
    cases hcreated : root.bind (·.writeFile (partialName cid serial) []) with
    | none =>
      simp only [hcreated]
      exact Nat.zero_le _
    | some d =>
      simp only [hcreated, became, left]
      omega
  | writing rest =>
    cases hwritten : root.bind (·.appendFile (partialName cid serial) (rest.take n)) with
    | none =>
      simp only [hwritten]
      exact Nat.zero_le _
    | some d =>
      cases hrest : (rest.drop n).isEmpty with
      | true =>
        simp only [hwritten, hrest, if_true, became, left]
        omega
      | false =>
        have hmore : n < rest.length := Nat.lt_of_not_le fun h => by
          rw [List.drop_eq_nil_of_le h] at hrest
          cases hrest
        simp only [hwritten, hrest, Bool.false_eq_true, if_false, became, left, List.length_drop]
        omega
  | placing =>
    simp only
    split
    · exact Nat.zero_le _
    · split <;> exact Nat.zero_le _
  | finished r => exact Nat.zero_le _

end BlockWrite
end BlockExchange
