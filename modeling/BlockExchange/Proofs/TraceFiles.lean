import BlockExchange.Trace.Log
import Mathlib

/-!
# The files of a trace log

A writer appends to the file that it made last. So the files, in the order in which they were made,
and the buffer behind them hold one text (`TraceWriter.text`). As long as the writer's directory is
there (`TraceWriter.InPlace`), writing a line puts it behind that text and changes nothing else, also
when a new file is started (`InPlace.write`): the new file has a name of its own
(`TraceDirectory.contains_freshName`).
-/

namespace BlockExchange

namespace Table
variable {α β : Type} [DecidableEq α] {t : Table α β} {a : α} {b : β}

theorem contains_iff_mem_keys : t.contains a = true ↔ a ∈ t.keys := by
  unfold contains keys
  rw [Option.isSome_iff_exists, List.mem_map]
  constructor
  · rintro ⟨b, hb⟩
    exact ⟨(a, b), (get?_eq_some_iff t).mp hb, rfl⟩
  · rintro ⟨⟨a, b⟩, hp, rfl⟩
    exact ⟨b, (get?_eq_some_iff t).mpr hp⟩

theorem pairs_set_of_absent (h : t.contains a = false) (b : β) :
    (t.set a b).pairs = t.pairs ++ [(a, b)] := by
  have hkeys : a ∉ t.keys := fun hmem => by
    rw [contains_iff_mem_keys.mpr hmem] at h
    cases h
  unfold set
  rw [dif_neg hkeys]

/-- The key that was set last keeps its place. -/
theorem pairs_set_last {older : List (α × β)} (h : t.pairs = older ++ [(a, b)]) (c : β) :
    (t.set a c).pairs = older ++ [(a, c)] := by
  have hmem : a ∈ t.keys := by
    unfold keys
    rw [h, List.map_append]
    exact List.mem_append_right _ (List.mem_singleton_self a)
  have hnodup := t.nodup_keys
  rw [h, List.map_append] at hnodup
  have hold : replaced older a c = older := by
    refine (List.map_congr_left fun p hp => ?_).trans (List.map_id older)
    have hne : p.1 ≠ a :=
      (List.nodup_append.mp hnodup).2.2 p.1 (List.mem_map_of_mem hp) a (List.mem_singleton_self a)
    rw [if_neg hne, id]
  unfold set
  rw [dif_pos hmem]
  show replaced t.pairs a c = _
  unfold replaced at hold ⊢
  rw [h, List.map_append, hold, List.map_singleton, if_pos rfl]

end Table

namespace TraceDirectory
variable {d : TraceDirectory}

theorem fileName_injective {m n : Nat} (h : fileName m = fileName n) : m = n := by
  have hchars := congrArg String.toList h
  unfold fileName at hchars
  rw [String.toList_append, String.toList_append] at hchars
  exact Nat.repr_injective (String.toList_inj.mp (List.append_cancel_right hchars))

theorem contains_of_freshName {tries nanos : Nat}
    (h : d.contains (freshName d tries nanos) = true) :
    ∀ k ≤ tries, d.contains (fileName (nanos + k)) = true := by
  induction tries generalizing nanos with
  | zero =>
    intro k hk
    obtain rfl := Nat.le_zero.mp hk
    exact h
  | succ tries ih =>
    unfold freshName at h
    split at h
    · rename_i htaken
      intro k hk
      cases k with
      | zero => exact htaken
      | succ k =>
        rw [show nanos + (k + 1) = nanos + 1 + k by omega]
        exact ih h k (Nat.le_of_succ_le_succ hk)
    · rename_i hfree
      exact absurd h hfree

/-- One of the names looked at is free, as there is one more of them than there are files. -/
theorem contains_freshName (d : TraceDirectory) (nanos : Nat) :
    d.contains (freshName d d.size nanos) = false := by
  refine Bool.eq_false_iff.mpr fun htaken => ?_
  let names := (List.range (d.size + 1)).map fun k => fileName (nanos + k)
  have hnodup : names.Nodup :=
    List.nodup_range.map fun k l hkl => Nat.add_left_cancel (fileName_injective hkl)
  have hsubset : names ⊆ d.keys := fun name hname => by
    obtain ⟨k, hk, rfl⟩ := List.mem_map.mp hname
    have hle : k ≤ d.size := Nat.le_of_lt_succ (List.mem_range.mp hk)
    exact Table.contains_iff_mem_keys.mp (contains_of_freshName htaken k hle)
  have hlen := (hnodup.subperm hsubset).length_le
  have hnames : names.length = d.size + 1 := by
    rw [List.length_map, List.length_range]
  have hkeys : d.keys.length = d.size := List.length_map ..
  omega

/-- The texts of the files, one behind the other. -/
def text (d : TraceDirectory) : List Char :=
  d.pairs.flatMap fun p => p.2.toList

theorem pairs_create (d : TraceDirectory) (now : Timestamp) :
    (d.create now).1.pairs = d.pairs ++ [((d.create now).2, "")] :=
  Table.pairs_set_of_absent (d.contains_freshName now.nanos) ""

theorem text_create (d : TraceDirectory) (now : Timestamp) : (d.create now).1.text = d.text := by
  unfold text
  rw [pairs_create, List.flatMap_append]
  exact List.append_nil _

end TraceDirectory

namespace TraceWriter
variable {w : TraceWriter}

/-- All that was written: what the files hold, and what the buffer holds behind that. -/
def text (w : TraceWriter) : List Char :=
  (w.directory.elim [] TraceDirectory.text) ++ w.buffered.toList

/-- The directory is there, and the file being written is the last one made in it. -/
def InPlace (w : TraceWriter) : Prop :=
  ∃ d older name content, w.directory = some d ∧ w.file = some name ∧
    d.pairs = older ++ [(name, content)]

section
variable {d : TraceDirectory} {older : List (String × String)} {name content : String}

/-- What was buffered is put behind what is in the file that was made last. -/
theorem exists_flush (hdirectory : w.directory = some d) (hfile : w.file = some name)
    (hlast : d.pairs = older ++ [(name, content)]) :
    ∃ d', w.flush.directory = some d' ∧ d'.pairs = older ++ [(name, content ++ w.buffered)] := by
  have hget : d.get? name = some content := by
    rw [Table.get?_eq_some_iff, hlast]
    exact List.mem_append_right _ (List.mem_singleton_self _)
  refine ⟨d.append name w.buffered, ?_, ?_⟩
  · unfold TraceWriter.flush
    simp only [hdirectory, hfile]
  · unfold TraceDirectory.append
    rw [hget, Table.pairs_set_last hlast]
    rfl

theorem rotate_of_flush (hflush : w.flush.directory = some d) (now : Timestamp) :
    w.rotate now = { w.flush with
      directory := some (d.create now).1, file := some (d.create now).2, written := 0 } := by
  unfold TraceWriter.rotate
  simp only [hflush]

end

theorem InPlace.flush (h : w.InPlace) : w.flush.InPlace ∧ w.flush.text = w.text := by
  obtain ⟨d, older, name, content, hdirectory, hfile, hlast⟩ := h
  obtain ⟨d', hflush, hpairs⟩ := exists_flush hdirectory hfile hlast
  refine ⟨⟨d', older, name, _, hflush, hfile, hpairs⟩, ?_⟩
  show w.flush.directory.elim [] TraceDirectory.text ++ "".toList = _
  unfold text
  rw [hflush, hdirectory]
  simp only [Option.elim, TraceDirectory.text, hpairs, hlast, List.flatMap_append,
    List.flatMap_singleton, String.toList_append, String.toList_empty, List.append_nil,
    List.append_assoc]

theorem InPlace.rotate (h : w.InPlace) (now : Timestamp) :
    (w.rotate now).InPlace ∧ (w.rotate now).text = w.text := by
  obtain ⟨⟨d, _, _, _, hdirectory, -, -⟩, htext⟩ := h.flush
  have hrotate := rotate_of_flush hdirectory now
  refine ⟨⟨(d.create now).1, d.pairs, (d.create now).2, "", by rw [hrotate], by rw [hrotate],
    d.pairs_create now⟩, ?_⟩
  rw [← htext, hrotate]
  unfold text
  rw [hdirectory]
  exact congrArg (· ++ _) (d.text_create now)

/-- A line is put behind all that was written. -/
theorem InPlace.write (h : w.InPlace) (line : String) (now : Timestamp) :
    (w.write line now).InPlace ∧ (w.write line now).text = w.text ++ line.toList := by
  let longer : TraceWriter :=
    { w with buffered := w.buffered ++ line, written := w.written + line.utf8ByteSize }
  have hplace : longer.InPlace := h
  have htext : longer.text = w.text ++ line.toList := by
    show _ ++ (w.buffered ++ line).toList = _
    rw [String.toList_append, ← List.append_assoc]
    rfl
  have hwrite : w.write line now =
      if longer.maxFileSize ≤ longer.written then longer.rotate now else longer := rfl
  rw [hwrite]
  split
  · exact ⟨(hplace.rotate now).1, (hplace.rotate now).2.trans htext⟩
  · exact ⟨hplace, htext⟩

end TraceWriter

/-- A log that was opened writes behind what was in its directory. -/
theorem TraceLog.inPlace_of_open {settings : TraceSettings} {node node' : String}
    {directory : Option TraceDirectory} {fileInPlace shut : Bool} {now : Timestamp} {w : TraceWriter}
    (h : TraceLog.open settings node directory fileInPlace now = .ok (.enabled node' w shut)) :
    node' = node ∧ shut = false ∧ w.InPlace ∧ w.text = (directory.getD .empty).text := by
  unfold TraceLog.open at h
  split at h
  · cases h
  · split at h
    · cases h
    · split at h
      · cases h
      · obtain ⟨rfl, rfl, rfl⟩ := TraceLog.enabled.inj (Except.ok.inj h)
        refine ⟨rfl, rfl, ⟨_, _, _, "", rfl, rfl, TraceDirectory.pairs_create _ now⟩, ?_⟩
        show TraceDirectory.text _ ++ [] = _
        rw [List.append_nil]
        exact TraceDirectory.text_create _ now

end BlockExchange
