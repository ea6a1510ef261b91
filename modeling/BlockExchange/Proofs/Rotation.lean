import BlockExchange.Proofs.TraceFiles

/-!
# Rotation of a trace log

Whatever happens to a log (`LogEvent`), what it has in its directory is what was there before and the
files that it made, in the order in which it made them, each with whole lines in it
(`TraceWriter.Holds`). A line goes behind the lines of the last file, and if that brings the file to
its size, the file is left as it is from then on and an empty one with a name of its own is the last
(`Holds.write`). The buffer holds the end of the last file's lines, and nothing once the log is shut
down.
-/

namespace BlockExchange

/-! ### What happens to a log -/

/-- A record is made at one moment and comes to the writer at another, and every now and then the
writer is told to flush. -/
inductive LogEvent
  | record (r : TraceRecord) (made written : Timestamp)
  | tick
  | shutdown

namespace TraceLog

/-- Appends the line of a record that was made at `made`. -/
def recordLate (l : TraceLog) (r : TraceRecord) (made now : Timestamp) : TraceLog :=
  match l with
  | .enabled node w false =>
    if r.traceId.isEmpty then l else .enabled node (w.write (r.line node made) now) false
  | _ => l

theorem recordLate_self (l : TraceLog) (r : TraceRecord) (now : Timestamp) :
    l.recordLate r now now = l.record r now := rfl

/-- Writes the buffer out, unless the writer is gone. -/
def tick (l : TraceLog) : TraceLog :=
  match l with
  | .enabled node w false => .enabled node w.flush false
  | _ => l

def after (l : TraceLog) : LogEvent → TraceLog
  | .record r made written => l.recordLate r made written
  | .tick => l.tick
  | .shutdown => l.shutdown

/-- The line of a record, if it leaves one. -/
def lineOf (node : String) (r : TraceRecord) (made : Timestamp) : List String :=
  if r.traceId.isEmpty then [] else [r.line node made]

/-- The lines of the records that were made before the log was shut down. -/
def recorded (node : String) : List LogEvent → List String
  | [] => []
  | .record r made _ :: es => lineOf node r made ++ recorded node es
  | .tick :: es => recorded node es
  | .shutdown :: _ => []

end TraceLog

/-! ### Files of lines -/

/-- The size of a file with these lines in it. -/
def linesSize (lines : List String) : Nat :=
  (String.join lines).utf8ByteSize

/-- The lines have never brought a file to the size. -/
def Under (size : Nat) (lines : List String) : Prop :=
  ∀ front, front <+: lines → front ≠ [] → linesSize front < size

/-- The last of the lines was the first to bring a file to the size. -/
def Reached (size : Nat) (lines : List String) : Prop :=
  ∃ front line, lines = front ++ [line] ∧ Under size front ∧ size ≤ linesSize lines

section
variable {size : Nat} {lines : List String} {line : String}

theorem linesSize_concat (lines : List String) (line : String) :
    linesSize (lines ++ [line]) = linesSize lines + line.utf8ByteSize := by
  unfold linesSize
  rw [String.join_append, String.utf8ByteSize_append, String.join_cons, String.join_nil,
    String.append_empty]

theorem under_nil (size : Nat) : Under size [] := fun _ hfront hne =>
  absurd (List.prefix_nil.mp hfront) hne

theorem Under.concat (h : Under size lines) (hsize : linesSize (lines ++ [line]) < size) :
    Under size (lines ++ [line]) := by
  intro front hfront hne
  rcases List.prefix_concat_iff.mp hfront with rfl | hfront
  · exact hsize
  · exact h front hfront hne

theorem Under.reached (h : Under size lines) (hsize : size ≤ linesSize (lines ++ [line])) :
    Reached size (lines ++ [line]) :=
  ⟨lines, line, rfl, h, hsize⟩

end

/-- A file that a log made, and the lines that went to it. -/
structure LogFile where
  name : String
  lines : List String

def LogFile.entry (f : LogFile) : String × String :=
  (f.name, String.join f.lines)

theorem LogFile.map_entry (files : List LogFile) :
    (files.map LogFile.entry).map Prod.fst = files.map LogFile.name := by
  rw [List.map_map]
  rfl

namespace TraceWriter
variable {w : TraceWriter} {size : Nat} {old : TraceDirectory} {full : List LogFile} {last : LogFile}
  {content line : String}

/-- The writer has filled some files up to the size and writes to the last one, part of whose lines,
`content`, is in the directory and the rest in the buffer. -/
structure Holds (w : TraceWriter) (size : Nat) (old : TraceDirectory) (full : List LogFile)
    (last : LogFile) (content : String) : Prop where
  maxFileSize : w.maxFileSize = size
  directory : ∃ d, w.directory = some d ∧
    d.pairs = (old.pairs ++ full.map LogFile.entry) ++ [(last.name, content)]
  file : w.file = some last.name
  buffered : content ++ w.buffered = String.join last.lines
  written : w.written = linesSize last.lines
  reached : ∀ f ∈ full, Reached size f.lines
  under : Under size last.lines

theorem Holds.flush (h : w.Holds size old full last content) :
    w.flush.Holds size old full last (String.join last.lines) := by
  obtain ⟨d, hdirectory, hpairs⟩ := h.directory
  obtain ⟨d', hflush, hpairs'⟩ := exists_flush hdirectory h.file hpairs
  rw [h.buffered] at hpairs'
  exact ⟨h.maxFileSize, ⟨d', hflush, hpairs'⟩, h.file, String.append_empty, h.written, h.reached,
    h.under⟩

/-- The writer with one line more in its buffer. -/
def longer (w : TraceWriter) (line : String) : TraceWriter :=
  { w with buffered := w.buffered ++ line, written := w.written + line.utf8ByteSize }

theorem write_eq (w : TraceWriter) (line : String) (now : Timestamp) : w.write line now =
    if w.maxFileSize ≤ (w.longer line).written then (w.longer line).rotate now else w.longer line :=
  rfl

theorem Holds.buffered_longer (h : w.Holds size old full last content) (line : String) :
    content ++ (w.longer line).buffered = String.join (last.lines ++ [line]) := by
  show content ++ (w.buffered ++ line) = _
  rw [← String.append_assoc, h.buffered, String.join_append, String.join_cons, String.join_nil,
    String.append_empty]

theorem Holds.written_longer (h : w.Holds size old full last content) (line : String) :
    (w.longer line).written = linesSize (last.lines ++ [line]) := by
  rw [linesSize_concat, ← h.written]
  rfl

/-- A line that does not fill the last file. -/
theorem Holds.longer (h : w.Holds size old full last content)
    (hsize : linesSize (last.lines ++ [line]) < size) :
    (w.longer line).Holds size old full ⟨last.name, last.lines ++ [line]⟩ content where
  maxFileSize := h.maxFileSize
  directory := h.directory
  file := h.file
  buffered := h.buffered_longer line
  written := h.written_longer line
  reached := h.reached
  under := h.under.concat hsize

/-- A line that fills the last file. -/
theorem Holds.rotate (h : w.Holds size old full last content)
    (hsize : size ≤ linesSize (last.lines ++ [line])) (now : Timestamp) :
    ∃ name, ((w.longer line).rotate now).Holds size old
      (full ++ [⟨last.name, last.lines ++ [line]⟩]) ⟨name, []⟩ "" := by
  obtain ⟨d, hdirectory, hpairs⟩ := h.directory
  obtain ⟨d', hflush, hpairs'⟩ := exists_flush (w := w.longer line) hdirectory h.file hpairs
  rw [h.buffered_longer line] at hpairs'
  refine ⟨(d'.create now).2, ?_⟩
  rw [rotate_of_flush hflush now]
  refine ⟨h.maxFileSize, ⟨_, rfl, ?_⟩, rfl, rfl, rfl, fun f hf => ?_, under_nil size⟩
  · rw [d'.pairs_create now, hpairs', List.map_append, List.append_assoc old.pairs]
    rfl
  · rcases List.mem_append.mp hf with hf | hf
    · exact h.reached f hf
    · rw [List.mem_singleton.mp hf]
      exact h.under.reached hsize

/-- A line goes behind all lines, whole and into one file. -/
theorem Holds.write (h : w.Holds size old full last content) (line : String) (now : Timestamp) :
    ∃ full' last' content', (w.write line now).Holds size old full' last' content' ∧
      (full' ++ [last']).flatMap LogFile.lines =
        (full ++ [last]).flatMap LogFile.lines ++ [line] := by
  rw [write_eq, h.maxFileSize, h.written_longer line]
  split
  · rename_i hsize
    obtain ⟨name, hholds⟩ := h.rotate hsize now
    refine ⟨_, _, _, hholds, ?_⟩
    simp only [List.flatMap_append, List.flatMap_singleton, List.append_nil, List.append_assoc]
  · rename_i hsize
    refine ⟨_, _, _, h.longer (Nat.lt_of_not_le hsize), ?_⟩
    simp only [List.flatMap_append, List.flatMap_singleton, List.append_assoc]

end TraceWriter

/-! ### Runs of a log -/

namespace TraceLog
variable {l : TraceLog} {old : TraceDirectory} {node : String} {size : Nat} {lines : List String}
  {shut : Bool}

/-- The log has written these lines to files of its own, all of them to the directory if it is shut
down. -/
def Stands (l : TraceLog) (old : TraceDirectory) (node : String) (size : Nat) (lines : List String)
    (shut : Bool) : Prop :=
  ∃ w full last content, l = .enabled node w shut ∧ w.Holds size old full last content ∧
    (full ++ [last]).flatMap LogFile.lines = lines ∧
    (shut = true → content = String.join last.lines)

theorem stands_of_open {settings : TraceSettings} {directory : Option TraceDirectory}
    {fileInPlace : Bool} {now : Timestamp}
    (h : TraceLog.open settings node directory fileInPlace now = .ok l)
    (henabled : settings.enabled = true) :
    l.Stands (directory.getD .empty) node settings.maxFileSize [] false := by
  unfold TraceLog.open at h
  rw [henabled] at h
  split at h
  · contradiction
  · split at h
    · cases h
    · split at h
      · cases h
      · obtain rfl := Except.ok.inj h
        refine ⟨_, [], ⟨_, []⟩, "", rfl, ⟨rfl, ⟨_, rfl, ?_⟩, rfl, rfl, rfl, nofun, under_nil _⟩, rfl,
          nofun⟩
        rw [List.map_nil, List.append_nil]
        exact TraceDirectory.pairs_create _ now

/-- A line that comes to the writer is put behind the others. -/
theorem Stands.record (h : l.Stands old node size lines false) (r : TraceRecord)
    (made written : Timestamp) :
    (l.recordLate r made written).Stands old node size (lines ++ lineOf node r made) false := by
  obtain ⟨w, full, last, content, rfl, hholds, hlines, -⟩ := h
  show Stands (if r.traceId.isEmpty then _ else _) _ _ _ _ _
  unfold lineOf
  split
  · rw [List.append_nil]
    exact ⟨w, full, last, content, rfl, hholds, hlines, nofun⟩
  · obtain ⟨full', last', content', hholds', hlines'⟩ := hholds.write (r.line node made) written
    exact ⟨_, full', last', content', rfl, hholds', by rw [hlines', hlines], nofun⟩

theorem Stands.tick (h : l.Stands old node size lines false) :
    l.tick.Stands old node size lines false := by
  obtain ⟨w, full, last, content, rfl, hholds, hlines, -⟩ := h
  exact ⟨_, full, last, _, rfl, hholds.flush, hlines, nofun⟩

theorem Stands.shutdown (h : l.Stands old node size lines shut) :
    l.shutdown.Stands old node size lines true := by
  obtain ⟨w, full, last, content, rfl, hholds, hlines, -⟩ := h
  exact ⟨_, full, last, _, rfl, hholds.flush, hlines, fun _ => rfl⟩

/-- Whatever happens to a log that is shut down, it stays as it is. -/
theorem Stands.after_shut (h : l.Stands old node size lines true) (e : LogEvent) :
    (l.after e).Stands old node size lines true := by
  obtain ⟨w, full, last, content, rfl, hholds, hlines, hcontent⟩ := h
  have hstands : Stands (.enabled node w true) old node size lines true :=
    ⟨w, full, last, content, rfl, hholds, hlines, hcontent⟩
  cases e with
  | record r made written => exact hstands
  | tick => exact hstands
  | shutdown => exact hstands.shutdown

theorem Stands.foldl_shut (h : l.Stands old node size lines true) (es : List LogEvent) :
    (es.foldl after l).Stands old node size lines true := by
  induction es generalizing l with
  | nil => exact h
  | cons e es ih => exact ih (h.after_shut e)

/-- A run up to and behind a shutdown leaves the lines that were recorded before it. -/
theorem Stands.foldl (h : l.Stands old node size lines false) {es : List LogEvent}
    (hshut : .shutdown ∈ es) :
    (es.foldl after l).Stands old node size (lines ++ recorded node es) true := by
  induction es generalizing l lines with
  | nil => cases hshut
  | cons e es ih =>
    cases e with
    | record r made written =>
      rw [recorded, ← List.append_assoc]
      exact ih (h.record r made written) ((List.mem_cons.mp hshut).resolve_left nofun)
    | tick => exact ih h.tick ((List.mem_cons.mp hshut).resolve_left nofun)
    | shutdown =>
      rw [recorded, List.append_nil]
      exact h.shutdown.foldl_shut es

/-- A log that was opened in a directory, and was shut down at some point of its run, has left the
files that were there as they were. The lines recorded before that point are in files of its own, each
line whole and in one file, in the order in which the files were made. Every one of these but the last
was left when a line brought it to its size, and the last has not come to it. -/
theorem rotation_keeps_lines {settings : TraceSettings} {directory : Option TraceDirectory}
    {fileInPlace : Bool} {now : Timestamp} {es : List LogEvent}
    (hopen : TraceLog.open settings node directory fileInPlace now = .ok l)
    (henabled : settings.enabled = true) (hshut : .shutdown ∈ es) :
    ∃ w d full last, es.foldl after l = .enabled node w true ∧ w.directory = some d ∧
      d.pairs = (directory.getD .empty).pairs ++ (full ++ [last]).map LogFile.entry ∧
      (full ++ [last]).flatMap LogFile.lines = recorded node es ∧
      (∀ f ∈ full, Reached settings.maxFileSize f.lines) ∧
      Under settings.maxFileSize last.lines ∧
      ((full ++ [last]).map LogFile.name).Nodup ∧
      (∀ f ∈ full ++ [last], (directory.getD .empty).contains f.name = false) ∧
      ∀ name text, (directory.getD .empty).get? name = some text → d.get? name = some text := by
  obtain ⟨w, full, last, content, hl, hholds, hlines, hcontent⟩ :=
    (stands_of_open hopen henabled).foldl hshut
  obtain ⟨d, hdirectory, hpairs⟩ := hholds.directory
  rw [hcontent rfl, List.append_assoc] at hpairs
  have hentries : d.pairs = (directory.getD .empty).pairs ++ (full ++ [last]).map LogFile.entry := by
    rw [hpairs, List.map_append]
    rfl
  have hnodup := d.nodup_keys
  rw [hentries, List.map_append, LogFile.map_entry] at hnodup
  obtain ⟨-, hnames, hdisjoint⟩ := List.nodup_append.mp hnodup
  refine ⟨w, d, full, last, hl, hdirectory, hentries, hlines, hholds.reached, hholds.under, hnames,
    fun f hf => ?_, fun name text hget => ?_⟩
  · refine Bool.eq_false_iff.mpr fun hcontains => ?_
    have hkey := Table.contains_iff_mem_keys.mp hcontains
    exact hdisjoint _ hkey _ (List.mem_map_of_mem hf) rfl
  · rw [Table.get?_eq_some_iff] at hget ⊢
    rw [hentries]
    exact List.mem_append_left _ hget

/-- A log opened where a file has the name that its first one would have. The second line brings the
first file to its size of 150 bytes, the last file holds the third line, and what is recorded after the
shutdown is dropped. -/
theorem rotation_keeps_lines_two_files :
    let settings : TraceSettings := { enabled := true, maxFileSize := 150 }
    let directory : TraceDirectory := Table.empty.set (TraceDirectory.fileName 7) "older"
    let r : TraceRecord := ⟨"a", "peer", .clientStart, "entries=1 presences=0 blocks=0"⟩
    let es : List LogEvent := [.record r ⟨7⟩ ⟨8⟩, .tick, .record { r with traceId := "" } ⟨8⟩ ⟨8⟩,
      .record r ⟨8⟩ ⟨8⟩, .record r ⟨9⟩ ⟨9⟩, .shutdown, .record r ⟨10⟩ ⟨10⟩, .tick, .shutdown]
    ∃ l, TraceLog.open settings "node" (some directory) false ⟨7⟩ = .ok l ∧
      settings.enabled = true ∧ .shutdown ∈ es ∧
      recorded "node" es = [r.line "node" ⟨7⟩, r.line "node" ⟨8⟩, r.line "node" ⟨9⟩] ∧
      (es.foldl after l).files = some ["older", r.line "node" ⟨7⟩ ++ r.line "node" ⟨8⟩,
        r.line "node" ⟨9⟩] ∧
      ∃ w d full last, es.foldl after l = .enabled "node" w true ∧ w.directory = some d ∧
        d.pairs = directory.pairs ++ (full ++ [last]).map LogFile.entry ∧
        (full ++ [last]).flatMap LogFile.lines = recorded "node" es ∧
        (∀ f ∈ full, Reached 150 f.lines) ∧ Under 150 last.lines ∧
        ((full ++ [last]).map LogFile.name).Nodup ∧
        (∀ f ∈ full ++ [last], directory.contains f.name = false) ∧
        ∀ name text, directory.get? name = some text → d.get? name = some text := by
  intro settings directory r es
  have hshut : LogEvent.shutdown ∈ es := by simp [es]
  obtain ⟨l, hopen⟩ : ∃ l, TraceLog.open settings "node" (some directory) false ⟨7⟩ = .ok l :=
    ⟨_, rfl⟩
  have hfiles : (es.foldl after l).files = some ["older", r.line "node" ⟨7⟩ ++ r.line "node" ⟨8⟩,
      r.line "node" ⟨9⟩] := by
    obtain rfl := Except.ok.inj hopen
    decide +kernel
  exact ⟨l, hopen, rfl, hshut, rfl, hfiles, rotation_keeps_lines hopen rfl hshut⟩

end TraceLog
end BlockExchange
