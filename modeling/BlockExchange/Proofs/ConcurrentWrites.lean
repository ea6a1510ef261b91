import BlockExchange.Proofs.StoreRefinement
import BlockExchange.Proofs.WriteStages

/-!
# Many calls on one directory

Calls on stores over one directory, each of which goes on step by step while the others do
(`SharedStore.run`). Each call stands where the directory supports it (`OpenCall.Stands`), whoever
makes the next step. So at every moment the name of a block stands for nothing or for all of the block,
and no call goes wrong (`never_torn`).
-/

namespace BlockExchange

/-! ### Calls that are under way -/

namespace StoreCall

/-- The write that a call makes under a number of its own. -/
def write? (serial : UInt64) : StoreCall → Option BlockWrite
  | .put codec data => some { cid := Cid.ofData codec data, data, serial }
  | .putBlock b => some { cid := b.cid, data := b.data, serial }
  | _ => none

/-- What a call answers when its write has ended. -/
def afterWrite (r : Except StoreError Unit) : StoreCall → StoreAnswer
  | .put codec data => .named (r.map fun _ => Cid.ofData codec data)
  | _ => .done r

end StoreCall

inductive CallProgress
  /-- The call answers after one look at the directory. -/
  | looking
  | writing (w : BlockWrite)
  | answered (a : StoreAnswer)

structure OpenCall where
  call : StoreCall
  progress : CallProgress

namespace OpenCall

def start (call : StoreCall) (serial : UInt64) : OpenCall where
  call := call
  progress := (call.write? serial).elim .looking .writing

/-- The next step of a call, which writes at most `n` bytes. -/
def step (c : OpenCall) (n : Nat) (s : DirectoryStore) : OpenCall × DirectoryStore :=
  match c.progress with
  | .looking =>
    let (s, a) := c.call.run DirectoryStore.reopen s
    ({ c with progress := .answered a }, s)
  | .writing w =>
    let (w, root) := w.step n s.root
    ({ c with progress := .writing w }, { s with root })
  | .answered _ => (c, s)

def answer? (c : OpenCall) : Option StoreAnswer :=
  match c.progress with
  | .looking => none
  | .writing { stage := .finished r, .. } => some (c.call.afterWrite r)
  | .writing _ => none
  | .answered a => some a

/-- Whether a write is under way. -/
def isWriting (c : OpenCall) : Bool :=
  match c.progress with
  | .writing { stage := .finished _, .. } => false
  | .writing _ => true
  | _ => false

end OpenCall

/-- Calls on stores over one directory. -/
structure SharedStore where
  store : DirectoryStore
  calls : List OpenCall

namespace SharedStore

def start (s : DirectoryStore) (calls : List (StoreCall × UInt64)) : SharedStore where
  store := s
  calls := calls.map fun (call, serial) => .start call serial

/-- One of the calls makes a step. -/
def move (s : SharedStore) (i n : Nat) : SharedStore :=
  match s.calls[i]? with
  | none => s
  | some c =>
    let (c, store) := c.step n s.store
    { store, calls := s.calls.set i c }

/-- The calls make steps in this order, each with how much it may write. -/
def run (s : SharedStore) (schedule : List (Nat × Nat)) : SharedStore :=
  schedule.foldl (fun s (i, n) => s.move i n) s

end SharedStore

/-! ### What a directory has for a call -/

namespace StoreCall
variable {q : StoreCall} {serial : UInt64} {w : BlockWrite} {d d' : Directory}

/-- An answer that is right: a block that was put can be read, and what is read is all of a block. -/
def Told (d : Directory) : StoreCall → StoreAnswer → Prop
  | .put codec data, a =>
    a = .named (.ok (Cid.ofData codec data)) ∧ d.Readable (Cid.ofData codec data)
  | .putBlock b, a => a = .done (.ok ()) ∧ d.Readable b.cid
  | .has cid, a => ∃ b, a = .present (.ok b) ∧ (b = true → d.Readable cid)
  | .get cid, a => a = .content (.ok none) ∨
    ∃ data, a = .content (.ok (some data)) ∧ cid.Names data ∧ d.Readable cid
  | .reopen, a => a = .done (.ok ())

theorem Told.mono (hd : ∀ cid, d.Readable cid → d'.Readable cid) {a : StoreAnswer}
    (h : q.Told d a) : q.Told d' a := by
  cases q with
  | put codec data => exact ⟨h.1, hd _ h.2⟩
  | putBlock b => exact ⟨h.1, hd _ h.2⟩
  | has cid =>
    obtain ⟨b, ha, hb⟩ := h
    exact ⟨b, ha, fun ht => hd _ (hb ht)⟩
  | get cid =>
    rcases h with ha | ⟨data, ha, hn, hr⟩
    · exact .inl ha
    · exact .inr ⟨data, ha, hn, hd _ hr⟩
  | reopen => exact h

/-- Only what has its right name is written. -/
theorem names_of_write? (h : q.write? serial = some w) : w.cid.Names w.data := by
  cases q <;> cases h
  · exact Cid.names_ofData _ _
  · exact HashedBlock.names _

theorem told_afterWrite (h : q.write? serial = some w) (hr : d.Readable w.cid) :
    q.Told d (q.afterWrite (.ok ())) := by
  cases q <;> cases h
  · exact ⟨rfl, hr⟩
  · exact ⟨rfl, hr⟩

/-- A call that writes nothing leaves the directory as it is. -/
theorem told_run (h : q.write? serial = none) (hd : d.Whole) (path : String) :
    ∃ a, q.run DirectoryStore.reopen ⟨path, some d⟩ = (⟨path, some d⟩, a) ∧ q.Told d a := by
  cases q with
  | put | putBlock => cases h
  | has cid => exact ⟨_, rfl, _, rfl, hd.readable_of_taken⟩
  | get cid =>
    refine ⟨_, rfl, ?_⟩
    rcases hd.get path cid with hnone | ⟨data, hsome, hn, hfile⟩
    · exact .inl (congrArg StoreAnswer.content hnone)
    · exact .inr ⟨data, congrArg StoreAnswer.content hsome, hn, data, hn, hfile⟩
  | reopen => exact ⟨_, rfl, rfl⟩

/-- The writes that calls make, each call with its number. -/
def writes (calls : List (StoreCall × UInt64)) : List BlockWrite :=
  calls.filterMap fun (q, serial) => q.write? serial

theorem mem_writes {calls : List (StoreCall × UInt64)} {i : Nat}
    (hi : calls[i]? = some (q, serial)) (h : q.write? serial = some w) : w ∈ writes calls :=
  List.mem_filterMap.mpr ⟨(q, serial), List.mem_of_getElem? hi, h⟩

theorem ownName_ne {calls : List (StoreCall × UInt64)}
    (distinct : ((writes calls).map BlockWrite.ownName).Nodup) {i j : Nat} (hij : i ≠ j)
    {q' : StoreCall} {serial' : UInt64} {v : BlockWrite} (hi : calls[i]? = some (q, serial))
    (hj : calls[j]? = some (q', serial')) (hw : q.write? serial = some w)
    (hv : q'.write? serial' = some v) : v.ownName ≠ w.ownName := by
  have hpairs := List.pairwise_filterMap.mp (List.pairwise_map.mp distinct)
  rw [List.pairwise_iff_getElem] at hpairs
  obtain ⟨hilt, hi⟩ := List.getElem?_eq_some_iff.mp hi
  obtain ⟨hjlt, hj⟩ := List.getElem?_eq_some_iff.mp hj
  rcases Nat.lt_or_gt_of_ne hij with hlt | hgt
  · exact (hpairs i j hilt hjlt hlt w (by rw [hi]; exact hw) v (by rw [hj]; exact hv)).symm
  · exact hpairs j i hjlt hilt hgt v (by rw [hj]; exact hv) w (by rw [hi]; exact hw)

end StoreCall

namespace OpenCall
variable {d d' : Directory} {q : StoreCall} {serial : UInt64} {c : OpenCall} {w : BlockWrite}

/-- How far a call is, and what the directory has for it. -/
inductive Stands (d : Directory) (q : StoreCall) (serial : UInt64) : OpenCall → Prop
  | looking (h : q.write? serial = none) : Stands d q serial ⟨q, .looking⟩
  | writing {w : BlockWrite} {stage : WriteStage} (h : q.write? serial = some w)
      (hs : ({ w with stage } : BlockWrite).Supported d) :
      Stands d q serial ⟨q, .writing { w with stage }⟩
  | answered {a : StoreAnswer} (h : q.write? serial = none) (ha : q.Told d a) :
      Stands d q serial ⟨q, .answered a⟩

/-- A write starts with nothing under its own name. -/
theorem stands_start (fresh : ∀ w, q.write? serial = some w → d.items.get? w.ownName = none) :
    (start q serial).Stands d q serial := by
  unfold start
  cases hw : q.write? serial with
  | none => exact .looking hw
  | some w =>
    have hstage : w.stage = .checking := by cases q <;> cases hw <;> rfl
    have hsupported : w.Supported d := by
      unfold BlockWrite.Supported
      rw [hstage]
      exact fresh w hw
    have hstands : (⟨q, .writing { w with stage := w.stage }⟩ : OpenCall).Stands d q serial :=
      .writing hw hsupported
    exact hstands

theorem Stands.told (h : c.Stands d q serial) {a : StoreAnswer} (ha : c.answer? = some a) :
    q.Told d a := by
  cases h with
  | looking => cases ha
  | @writing w stage hw hs =>
    cases stage with
    | finished r =>
      obtain ⟨rfl, -, hr⟩ := hs
      obtain rfl := Option.some.inj ha
      exact StoreCall.told_afterWrite hw hr
    | _ => cases ha
  | answered _ htold =>
    obtain rfl := Option.some.inj ha
    exact htold

/-- A write that is not under way any more is through. -/
theorem Stands.finished (h : c.Stands d q serial) (hw : q.write? serial = some w)
    (hdone : c.isWriting = false) : d.items.get? w.ownName = none ∧ d.Readable w.cid := by
  cases h with
  | looking hnone =>
    rw [hw] at hnone
    cases hnone
  | answered hnone =>
    rw [hw] at hnone
    cases hnone
  | @writing v stage hv hs =>
    obtain rfl := Option.some.inj (hv.symm.trans hw)
    cases stage with
    | finished r => exact hs.2
    | _ => cases hdone

/-- The other calls' steps leave a call where it is. -/
theorem Stands.frame (h : c.Stands d q serial) (ht : w.Touches d d') (hn : w.cid.Names w.data)
    (hne : ∀ v, q.write? serial = some v → v.ownName ≠ w.ownName) : c.Stands d' q serial := by
  cases h with
  | looking hw => exact .looking hw
  | @writing v stage hv hs =>
    exact .writing hv (ht.supported (v := { v with stage }) hn (hne v hv) hs)
  | answered hw ha => exact .answered hw (ha.mono fun _ => ht.readable hn)

theorem Stands.step (h : c.Stands d q serial) (hd : d.Whole) (n : Nat) (path : String) :
    ∃ c' d', c.step n ⟨path, some d⟩ = (c', ⟨path, some d'⟩) ∧ c'.Stands d' q serial ∧
      (d' = d ∨ ∃ w, q.write? serial = some w ∧ w.Touches d d') := by
  cases h with
  | looking hw =>
    obtain ⟨a, hrun, ha⟩ := StoreCall.told_run hw hd path
    refine ⟨⟨q, .answered a⟩, d, ?_, .answered hw ha, .inl rfl⟩
    unfold step
    simp only [hrun]
  | @writing w stage hw hs =>
    have hn : w.cid.Names w.data := StoreCall.names_of_write? hw
    obtain ⟨stage', d', hstep, hs', ht⟩ := hs.step hd hn n
    refine ⟨⟨q, .writing { w with stage := stage' }⟩, d', ?_, .writing hw hs',
      .inr ⟨w, hw, ht.others, ht.block⟩⟩
    unfold step
    simp only [hstep]
  | answered hw ha => exact ⟨_, d, rfl, .answered hw ha, .inl rfl⟩

end OpenCall

/-! ### All calls together -/

namespace SharedStore
variable {calls : List (StoreCall × UInt64)} {d₀ d : Directory} {s : SharedStore} {path : String}

/-- What holds at every moment of the calls on a directory that was `d₀` and is `d`. -/
structure Sound (calls : List (StoreCall × UInt64)) (path : String) (d₀ d : Directory)
    (s : SharedStore) : Prop where
  store : s.store = ⟨path, some d⟩
  length : s.calls.length = calls.length
  stands : ∀ (i : Nat) q serial, calls[i]? = some (q, serial) →
    ∃ c : OpenCall, s.calls[i]? = some c ∧ c.Stands d q serial
  whole : d.Whole
  origin : ∀ cid data, d.Holds cid data → d₀.Holds cid data ∨
    ∃ w ∈ StoreCall.writes calls, w.cid = cid ∧ w.data = data
  others : ∀ name, (∀ w ∈ StoreCall.writes calls,
    name ≠ w.ownName ∧ name ≠ BlockWrite.blockName w.cid) → d.items.get? name = d₀.items.get? name

theorem sound_start (whole : d₀.Whole)
    (fresh : ∀ w ∈ StoreCall.writes calls, d₀.items.get? w.ownName = none) (path : String) :
    Sound calls path d₀ d₀ (start ⟨path, some d₀⟩ calls) := by
  refine ⟨rfl, List.length_map _, fun i q serial hi => ?_, whole, fun _ _ h => .inl h,
    fun _ _ => rfl⟩
  refine ⟨.start q serial, ?_, OpenCall.stands_start fun w hw =>
    fresh w (StoreCall.mem_writes hi hw)⟩
  rw [start, List.getElem?_map, hi]
  rfl

theorem Sound.move (h : Sound calls path d₀ d s)
    (distinct : ((StoreCall.writes calls).map BlockWrite.ownName).Nodup) (i n : Nat) :
    ∃ d', Sound calls path d₀ d' (s.move i n) := by
  unfold SharedStore.move
  cases hc : s.calls[i]? with
  | none => exact ⟨d, h⟩
  | some c =>
    have hilt : i < s.calls.length := (List.getElem?_eq_some_iff.mp hc).1
    obtain ⟨⟨q, serial⟩, hi⟩ : ∃ p, calls[i]? = some p :=
      ⟨_, List.getElem?_eq_getElem (h.length ▸ hilt)⟩
    obtain ⟨_, hc', hstands⟩ := h.stands i q serial hi
    obtain rfl := Option.some.inj (hc.symm.trans hc')
    obtain ⟨c', d', hstep, hstands', hchange⟩ := hstands.step h.whole n path
    simp only [h.store, hstep]
    refine ⟨d', rfl, (List.length_set ..).trans h.length, fun j q' serial' hj => ?_, ?_, ?_, ?_⟩
    · rw [List.getElem?_set]
      by_cases hij : i = j
      · subst hij
        obtain ⟨rfl, rfl⟩ := Prod.mk.inj (Option.some.inj (hi.symm.trans hj))
        exact ⟨c', by rw [if_pos rfl, if_pos hilt], hstands'⟩
      · rw [if_neg hij]
        obtain ⟨b, hb, hbstands⟩ := h.stands j q' serial' hj
        refine ⟨b, hb, ?_⟩
        rcases hchange with rfl | ⟨w, hw, ht⟩
        · exact hbstands
        · exact hbstands.frame ht (StoreCall.names_of_write? hw)
            fun v hv => StoreCall.ownName_ne distinct hij hi hj hw hv
    · rcases hchange with rfl | ⟨w, hw, ht⟩
      · exact h.whole
      · exact ht.whole (StoreCall.names_of_write? hw) h.whole
    · intro cid data hfile
      rcases hchange with rfl | ⟨w, hw, ht⟩
      · exact h.origin cid data hfile
      · rcases ht.block_cases cid with hsame | ⟨rfl, hnew⟩
        · exact h.origin cid data (hsame.symm.trans hfile)
        · have hdata := DirectoryItem.file.inj (Option.some.inj (hnew.symm.trans hfile))
          exact .inr ⟨w, StoreCall.mem_writes hi hw, rfl, hdata⟩
    · intro name hname
      rcases hchange with rfl | ⟨w, hw, ht⟩
      · exact h.others name hname
      · obtain ⟨hown, hblock⟩ := hname w (StoreCall.mem_writes hi hw)
        exact (ht.others name hown hblock).trans (h.others name hname)

theorem Sound.run (h : Sound calls path d₀ d s)
    (distinct : ((StoreCall.writes calls).map BlockWrite.ownName).Nodup)
    (schedule : List (Nat × Nat)) : ∃ d', Sound calls path d₀ d' (s.run schedule) := by
  induction schedule generalizing s d with
  | nil => exact ⟨d, h⟩
  | cons m schedule ih =>
    obtain ⟨d', h'⟩ := h.move distinct m.1 m.2
    exact ih h'

end SharedStore

/-! ### Calls come to an end -/

namespace OpenCall

def left (c : OpenCall) : Nat :=
  match c.progress with
  | .looking => 1
  | .writing w => w.left
  | .answered _ => 0

theorem left_step (c : OpenCall) (n : Nat) (s : DirectoryStore) :
    (c.step n s).1.left ≤ c.left - if 0 < n then 1 else 0 := by
  obtain ⟨q, progress⟩ := c
  cases progress with
  | looking => exact Nat.zero_le _
  | writing w => exact w.left_step n s.root
  | answered a => exact Nat.zero_le _

theorem answer?_of_left {c : OpenCall} (h : c.left = 0) : ∃ a, c.answer? = some a := by
  obtain ⟨q, progress⟩ := c
  cases progress with
  | looking => cases h
  | writing w =>
    obtain ⟨cid, data, serial, stage⟩ := w
    cases stage with
    | finished r => exact ⟨_, rfl⟩
    | _ => cases h
  | answered a => exact ⟨a, rfl⟩

theorem isWriting_of_answer? {c : OpenCall} {a : StoreAnswer} (h : c.answer? = some a) :
    c.isWriting = false := by
  obtain ⟨q, progress⟩ := c
  cases progress with
  | looking | answered _ => rfl
  | writing w =>
    obtain ⟨cid, data, serial, stage⟩ := w
    cases stage with
    | finished r => rfl
    | _ => cases h

end OpenCall

/-- How many steps a call takes at most. -/
def StoreCall.effort : StoreCall → Nat
  | .put _ data => data.length + 4
  | .putBlock b => b.data.length + 4
  | _ => 1

theorem OpenCall.left_start (q : StoreCall) (serial : UInt64) : (start q serial).left = q.effort := by
  cases q <;> rfl

namespace SharedStore
variable {s : SharedStore} {c : OpenCall} {i : Nat}

theorem exists_left_move (h : s.calls[i]? = some c) (j n : Nat) :
    ∃ c', (s.move j n).calls[i]? = some c' ∧ c'.left ≤ c.left - if j = i ∧ 0 < n then 1 else 0 := by
  unfold move
  cases hb : s.calls[j]? with
  | none =>
    have hji : j ≠ i := by
      rintro rfl
      rw [h] at hb
      cases hb
    exact ⟨c, h, by rw [if_neg fun hj => hji hj.1]; exact Nat.le_refl _⟩
  | some b =>
    simp only
    rw [List.getElem?_set]
    by_cases hji : j = i
    · subst hji
      obtain rfl := Option.some.inj (h.symm.trans hb)
      refine ⟨_, by rw [if_pos rfl, if_pos (List.getElem?_eq_some_iff.mp h).1], ?_⟩
      simpa using c.left_step n s.store
    · rw [if_neg hji, if_neg fun hj => hji hj.1]
      exact ⟨c, h, Nat.le_refl _⟩

/-- A call that gets its steps comes to its end. -/
theorem exists_left_run (h : s.calls[i]? = some c) (schedule : List (Nat × Nat)) :
    ∃ c', (s.run schedule).calls[i]? = some c' ∧
      c'.left ≤ c.left - schedule.countP fun m => m.1 = i ∧ 0 < m.2 := by
  induction schedule generalizing s c with
  | nil => exact ⟨c, h, Nat.le_refl _⟩
  | cons m schedule ih =>
    obtain ⟨c', hc', hleft⟩ := exists_left_move h m.1 m.2
    obtain ⟨c'', hc'', hleft'⟩ := ih hc'
    refine ⟨c'', hc'', hleft'.trans ?_⟩
    simp only [List.countP_cons, decide_eq_true_eq]
    omega

/-- What holds once no write is under way: the blocks can be read, and nothing but blocks has been
added. -/
structure Settled (calls : List (StoreCall × UInt64)) (path : String) (d₀ d : Directory) : Prop where
  readable : ∀ w ∈ StoreCall.writes calls,
    ∃ data, DirectoryStore.get ⟨path, some d⟩ w.cid = .ok (some data) ∧ w.cid.Names data
  cleared : ∀ w ∈ StoreCall.writes calls, d.exists? w.ownName = false
  others : ∀ name, (∀ w ∈ StoreCall.writes calls, name ≠ BlockWrite.blockName w.cid) →
    d.items.get? name = d₀.items.get? name

theorem Sound.settled {calls : List (StoreCall × UInt64)} {path : String} {d₀ d : Directory}
    (h : Sound calls path d₀ d s)
    (fresh : ∀ w ∈ StoreCall.writes calls, d₀.items.get? w.ownName = none)
    (hdone : ∀ c ∈ s.calls, c.isWriting = false) : Settled calls path d₀ d := by
  have hfinished : ∀ w ∈ StoreCall.writes calls,
      d.items.get? w.ownName = none ∧ d.Readable w.cid := by
    intro w hw
    obtain ⟨⟨q, serial⟩, hmem, hwrite⟩ := List.mem_filterMap.mp hw
    obtain ⟨i, hi⟩ := List.getElem?_of_mem hmem
    obtain ⟨c, hc, hstands⟩ := h.stands i q serial hi
    exact hstands.finished hwrite (hdone c (List.mem_of_getElem? hc))
  refine ⟨fun w hw => ?_, fun w hw => ?_, fun name hname => ?_⟩
  · obtain ⟨data, hn, hfile⟩ := (hfinished w hw).2
    exact ⟨data, DirectoryStore.get_of_item hfile hn, hn⟩
  · exact Option.isSome_eq_false_iff.mpr (Option.isNone_iff_eq_none.mpr (hfinished w hw).1)
  · by_cases hown : ∃ w ∈ StoreCall.writes calls, name = w.ownName
    · obtain ⟨w, hw, rfl⟩ := hown
      exact (hfinished w hw).1.trans (fresh w hw).symm
    · exact h.others name fun w hw => ⟨fun heq => hown ⟨w, hw, heq⟩, hname w hw⟩

/-- Any calls on a directory, with their steps in any order and their content in any pieces. At every
moment the name of a block stands for nothing or for all of a block that was there or is being
written, and every answer is right. Each call answers after so many steps of its own, and when no
write is under way all that were written can be read and nothing else is left of them. -/
theorem never_torn {d₀ : Directory} {calls : List (StoreCall × UInt64)} (whole : d₀.Whole)
    (distinct : ((StoreCall.writes calls).map BlockWrite.ownName).Nodup)
    (fresh : ∀ w ∈ StoreCall.writes calls, d₀.items.get? w.ownName = none) (path : String)
    (schedule : List (Nat × Nat)) :
    let s := (start ⟨path, some d₀⟩ calls).run schedule
    s.calls.length = calls.length ∧ ∃ d, s.store = ⟨path, some d⟩ ∧ d.Whole ∧
      (∀ cid data, d.Holds cid data → d₀.Holds cid data ∨
        ∃ w ∈ StoreCall.writes calls, w.cid = cid ∧ w.data = data) ∧
      (∀ (i : Nat) q serial, calls[i]? = some (q, serial) → ∃ c : OpenCall, s.calls[i]? = some c ∧
        (∀ a, c.answer? = some a → q.Told d a) ∧
        (q.effort ≤ schedule.countP (fun m => m.1 = i ∧ 0 < m.2) → ∃ a, c.answer? = some a)) ∧
      ((∀ c ∈ s.calls, c.isWriting = false) → Settled calls path d₀ d) := by
  intro s
  have hstart := sound_start whole fresh path
  obtain ⟨d, h⟩ := hstart.run distinct schedule
  refine ⟨h.length, d, h.store, h.whole, h.origin, fun i q serial hi => ?_, h.settled fresh⟩
  obtain ⟨c, hc, hstands⟩ := h.stands i q serial hi
  refine ⟨c, hc, fun a ha => hstands.told ha, fun heffort => OpenCall.answer?_of_left ?_⟩
  have hfirst : (start ⟨path, some d₀⟩ calls).calls[i]? = some (.start q serial) := by
    rw [start, List.getElem?_map, hi]
    rfl
  obtain ⟨c', hc', hleft⟩ := exists_left_run hfirst schedule
  obtain rfl := Option.some.inj (hc.symm.trans hc')
  rw [OpenCall.left_start] at hleft
  omega

/-- Two writers put the same block byte by byte, in turns, and a reader looks in between. -/
theorem never_torn_two_writers :
    let b : HashedBlock := .raw [1, 2, 3]
    let calls : List (StoreCall × UInt64) :=
      [(.put Codec.raw b.data, 7), (.putBlock b, 8), (.get b.cid, 0)]
    let schedule := (List.range 7).flatMap fun _ => [(0, 1), (2, 1), (1, 1)]
    Directory.Whole {} ∧ ((StoreCall.writes calls).map BlockWrite.ownName).Nodup ∧
    (∀ w ∈ StoreCall.writes calls, ({} : Directory).items.get? w.ownName = none) ∧
    ∃ s d answer, s = (start ⟨"blocks", some {}⟩ calls).run schedule ∧
      s.store = ⟨"blocks", some d⟩ ∧ d.Whole ∧ s.calls.map OpenCall.answer? =
        [some (.named (.ok b.cid)), some (.done (.ok ())), some answer] ∧
      (StoreCall.get b.cid).Told d answer ∧ Settled calls "blocks" {} d := by
  intro b calls schedule
  have hne : BlockWrite.partialName b.cid 7 ≠ BlockWrite.partialName b.cid 8 := by
    intro h
    have hchars := congrArg String.toList h
    rw [BlockWrite.toList_partialName, BlockWrite.toList_partialName,
      List.append_cancel_left_eq] at hchars
    exact absurd hchars (by decide)
  have hdistinct : ((StoreCall.writes calls).map BlockWrite.ownName).Nodup :=
    List.nodup_cons.mpr ⟨fun h => hne (List.mem_singleton.mp h), List.nodup_singleton _⟩
  have hfresh : ∀ w ∈ StoreCall.writes calls, ({} : Directory).items.get? w.ownName = none :=
    fun _ _ => rfl
  obtain ⟨hlength, d, hstore, hwhole, -, hcalls, hsettled⟩ :=
    never_torn .empty hdistinct hfresh "blocks" schedule
  obtain ⟨c₀, h₀, htold₀, hdone₀⟩ := hcalls 0 _ _ rfl
  obtain ⟨c₁, h₁, htold₁, hdone₁⟩ := hcalls 1 _ _ rfl
  obtain ⟨c₂, h₂, htold₂, hdone₂⟩ := hcalls 2 _ _ rfl
  obtain ⟨a₀, ha₀⟩ := hdone₀ (by decide)
  obtain ⟨a₁, ha₁⟩ := hdone₁ (by decide)
  obtain ⟨a₂, ha₂⟩ := hdone₂ (by decide)
  obtain ⟨x, y, z, hs⟩ := List.length_eq_three.mp hlength
  rw [hs] at h₀ h₁ h₂
  obtain rfl := Option.some.inj h₀
  obtain rfl := Option.some.inj h₁
  obtain rfl := Option.some.inj h₂
  obtain ⟨rfl, -⟩ := htold₀ a₀ ha₀
  obtain ⟨rfl, -⟩ := htold₁ a₁ ha₁
  refine ⟨.empty, hdistinct, hfresh, _, d, a₂, rfl, hstore, hwhole, ?_, htold₂ a₂ ha₂, hsettled ?_⟩
  · rw [hs, List.map_cons, List.map_cons, List.map_cons, ha₀, ha₁, ha₂]
    rfl
  · intro c hc
    rw [hs] at hc
    simp only [List.mem_cons, List.not_mem_nil, or_false] at hc
    rcases hc with rfl | rfl | rfl
    · exact OpenCall.isWriting_of_answer? ha₀
    · exact OpenCall.isWriting_of_answer? ha₁
    · exact OpenCall.isWriting_of_answer? ha₂

end SharedStore
end BlockExchange
