import BlockExchange.Bytes
import BlockExchange.Table

/-!
# Directories

A `Directory` is the content of one directory: files by name, and directories of which only the name
matters. Each operation is one step, which others may come before or after.
-/

namespace BlockExchange

inductive DirectoryItem
  | file (content : Bytes)
  | directory
deriving DecidableEq

structure Directory where
  items : Table String DirectoryItem := .empty

namespace Directory

/-- How many bytes the name of a file has at most. -/
def maxNameSize : Nat := 255

/-- Whether a name stands for something in the directory itself and may be given to it. -/
def isPlainName (name : String) : Bool :=
  !name.isEmpty && name != "." && name != ".." && name.utf8ByteSize ≤ maxNameSize
    && name.toList.all fun c => c != '/' && c != '\x00'

def exists? (d : Directory) (name : String) : Bool :=
  d.items.contains name

/-- Writes a whole file, over the file of that name if there is one. -/
def writeFile (d : Directory) (name : String) (content : Bytes) : Option Directory :=
  if !isPlainName name then none
  else match d.items.get? name with
    | some .directory => none
    | _ => some ⟨d.items.set name (.file content)⟩

def makeDirectory (d : Directory) (name : String) : Option Directory :=
  if !isPlainName name || d.exists? name then none
  else some ⟨d.items.set name .directory⟩

def removeFile (d : Directory) (name : String) : Option Directory :=
  match d.items.get? name with
  | some (.file _) => some ⟨d.items.erase name⟩
  | _ => none

def content? (d : Directory) (name : String) : Option Bytes :=
  match d.items.get? name with
  | some (.file content) => some content
  | _ => none

def appendFile (d : Directory) (name : String) (b : Bytes) : Option Directory :=
  match d.items.get? name with
  | some (.file content) => some ⟨d.items.set name (.file (content ++ b))⟩
  | _ => none

/-- Gives a file a new name, over the file that has the name if there is one. -/
def rename (d : Directory) (old new : String) : Option Directory :=
  match d.items.get? old, d.items.get? new with
  | some (.file _), some .directory => none
  | some (.file content), _ => some ⟨(d.items.erase old).set new (.file content)⟩
  | _, _ => none

def names (d : Directory) : List String :=
  d.items.keys

end Directory

end BlockExchange
