import BlockExchange.Settings
import BlockExchange.Table
import BlockExchange.Trace.Event

/-!
# The trace log

Lines are appended to a file in the log's directory, through a buffer that is written out now and
then. When a file has reached its size, the next line goes to a new file with a name of its own. If
no new file can be made, because the directory is gone, lines go on to the old one, which nobody can
see any more. A log that is disabled or shut down drops every record.
-/

namespace BlockExchange

/-- The files in the log's directory and their texts. -/
abbrev TraceDirectory := Table String String

namespace TraceDirectory

def fileName (nanos : Nat) : String :=
  toString nanos ++ ".trace.log"

/-- The first name from `nanos` on that no file has, looking at `tries` names. -/
def freshName (d : TraceDirectory) : (tries nanos : Nat) → String
  | 0, nanos => fileName nanos
  | tries + 1, nanos =>
    if d.contains (fileName nanos) then freshName d tries (nanos + 1) else fileName nanos

/-- Adds an empty file and tells its name. -/
def create (d : TraceDirectory) (now : Timestamp) : TraceDirectory × String :=
  let name := freshName d d.size now.nanos
  (d.set name "", name)

def append (d : TraceDirectory) (name text : String) : TraceDirectory :=
  d.set name ((d.get? name).getD "" ++ text)

end TraceDirectory

structure TraceWriter where
  maxFileSize : Nat
  /-- The directory's files, unless the directory is gone. -/
  directory : Option TraceDirectory
  /-- The file being written, unless it has been removed. -/
  file : Option String
  buffered : String := ""
  /-- The bytes that went to the file being written. -/
  written : Nat := 0

namespace TraceWriter

def flush (w : TraceWriter) : TraceWriter :=
  { w with
    buffered := ""
    directory := match w.directory, w.file with
      | some d, some name => some (d.append name w.buffered)
      | d, _ => d }

/-- Starts a new file, if the directory is there. -/
def rotate (w : TraceWriter) (now : Timestamp) : TraceWriter :=
  let w := w.flush
  match w.directory with
  | none => w
  | some d =>
    let (d, name) := d.create now
    { w with directory := some d, file := some name, written := 0 }

/-- Appends one line, then starts a new file if this one has reached its size. -/
def write (w : TraceWriter) (line : String) (now : Timestamp) : TraceWriter :=
  let w := { w with buffered := w.buffered ++ line, written := w.written + line.utf8ByteSize }
  if w.maxFileSize ≤ w.written then w.rotate now else w

def removeDirectory (w : TraceWriter) : TraceWriter :=
  { w with directory := none, file := none }

def makeDirectory (w : TraceWriter) : TraceWriter :=
  match w.directory with
  | none => { w with directory := some .empty }
  | some _ => w

/-- The texts of the files, in the order in which they were made. -/
def files (w : TraceWriter) : Option (List String) :=
  w.directory.map fun d => d.pairs.map Prod.snd

end TraceWriter

inductive TraceLog
  | disabled
  | enabled (node : String) (writer : TraceWriter) (shut : Bool)

inductive TraceError
  | invalid (e : SettingsError)
  | directoryFailed (path : String)
deriving DecidableEq, Repr

def TraceError.message : TraceError → String
  | .invalid e => e.message
  | .directoryFailed path => "failed to create trace directory " ++ path

namespace TraceLog

/-- A log for `node` that starts with an empty file. The directory is made if there is none, which
fails where a file is in its place; settings that disable the log touch nothing. -/
def «open» (settings : TraceSettings) (node : String) (directory : Option TraceDirectory)
    (fileInPlace : Bool) (now : Timestamp) : Except TraceError TraceLog :=
  if !settings.enabled then .ok .disabled
  else match settings.validate with
    | .error e => .error (.invalid e)
    | .ok () =>
      if fileInPlace then .error (.directoryFailed settings.dir)
      else
        let (directory, name) := (directory.getD .empty).create now
        .ok (.enabled node
          { maxFileSize := settings.maxFileSize, directory := some directory, file := some name }
          false)

def isEnabled : TraceLog → Bool
  | .disabled => false
  | .enabled .. => true

/-- Appends the line of a record. A record without a trace id leaves none. -/
def record (l : TraceLog) (r : TraceRecord) (now : Timestamp) : TraceLog :=
  match l with
  | .enabled node w false =>
    if r.traceId.isEmpty then l else .enabled node (w.write (r.line node now) now) false
  | _ => l

def recordMessage (l : TraceLog) (peer : String) (m : Message) (event : TraceEvent)
    (now : Timestamp) : TraceLog :=
  l.record ⟨m.traceId, peer, event, m.summary⟩ now

def mapWriter (l : TraceLog) (f : TraceWriter → TraceWriter) : TraceLog :=
  match l with
  | .disabled => .disabled
  | .enabled node w shut => .enabled node (f w) shut

/-- Writes the buffer out; later records are dropped. -/
def shutdown (l : TraceLog) : TraceLog :=
  match l with
  | .enabled node w _ => .enabled node w.flush true
  | .disabled => .disabled

def files : TraceLog → Option (List String)
  | .disabled => none
  | .enabled _ w _ => w.files

/-- The trace id made from a number: 32 lower-case hexadecimal digits. -/
def traceId (n : Nat) : String :=
  Hex.encode (Bytes.ofNat 16 n)

end TraceLog
end BlockExchange
