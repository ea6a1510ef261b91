/-!
# TOML values

A document is a table of fields. How a table came about decides who may still add to it
(`TableKind`): a table that a header opened takes fields under that header only, one that dotted
keys made takes more dotted keys, one that is only on the way to another may be opened once, and an
inline table is finished. `insert` adds a field under a dotted key, `addSection` the fields under a
header.
-/

namespace BlockExchange.Toml

inductive TableKind
  | header
  /-- On the way to a table that a header opened. -/
  | implicit
  | dotted
  | inline
deriving DecidableEq, Repr

/-- Floating-point numbers and dates are told apart from the rest but not read. -/
inductive Value
  | string (s : String)
  | integer (n : Int)
  | float
  | boolean (b : Bool)
  | datetime
  | array (items : List Value)
  | table (kind : TableKind) (fields : List (String × Value))
  /-- The tables that headers in double brackets opened under one name. -/
  | tables (items : List (List (String × Value)))

abbrev Fields := List (String × Value)

/-- A line that gives a value to a dotted key, `path` and then `key`. -/
structure Assignment where
  path : List String
  key : String
  value : Value

/-- A line that says where the fields after it belong. -/
structure Header where
  isDouble : Bool
  path : List String
  key : String
deriving DecidableEq, Repr

namespace Fields

def get? (t : Fields) (key : String) : Option Value :=
  t.lookup key

/-- Sets a field; a field that is there keeps its place. -/
def set (t : Fields) (key : String) (v : Value) : Fields :=
  if (t.get? key).isSome then t.map fun p => if p.1 = key then (key, v) else p
  else t ++ [(key, v)]

/-- Changes the last of some tables. -/
def modifyLast (f : Fields → Option Fields) : List Fields → Option (List Fields)
  | [] => none
  | [t] => (f t).map ([·])
  | t :: ts => (modifyLast f ts).map (t :: ·)

/-- Adds a field under a dotted key, `path` and then `key`. The last table on the path has to be one
that dotted keys made. -/
def insert (t : Fields) (path : List String) (key : String) (v : Value) : Option Fields :=
  match path with
  | [] => if (t.get? key).isSome then none else some (t.set key v)
  | p :: path =>
    match t.get? p with
    | none => do return t.set p (.table .dotted (← insert [] path key v))
    | some (.table .dotted sub) => do return t.set p (.table .dotted (← insert sub path key v))
    | some (.table .implicit sub) =>
      if path.isEmpty then none
      else do return t.set p (.table .implicit (← insert sub path key v))
    | some (.tables items) =>
      if path.isEmpty then none
      else do return t.set p (.tables (← modifyLast (fun sub => insert sub path key v) items))
    | some _ => none

def assign (t : Fields) (as : List Assignment) : Option Fields :=
  as.foldlM (fun t a => t.insert a.path a.key a.value) t

/-- Changes the table that a header's path leads to, making the tables on the way. -/
def modifyAt (f : Fields → Option Fields) (t : Fields) : (path : List String) → Option Fields
  | [] => f t
  | p :: path =>
    match t.get? p with
    | none => do return t.set p (.table .implicit (← modifyAt f [] path))
    | some (.table .inline _) => none
    | some (.table kind sub) => do return t.set p (.table kind (← modifyAt f sub path))
    | some (.tables items) => do
      return t.set p (.tables (← modifyLast (fun sub => modifyAt f sub path) items))
    | some _ => none

/-- Opens the table `key`, which must be new or only on the way to others so far. -/
def openTable (key : String) (as : List Assignment) (t : Fields) : Option Fields :=
  match t.get? key with
  | none => do return t.set key (.table .header (← assign [] as))
  | some (.table .implicit sub) => do return t.set key (.table .header (← assign sub as))
  | some _ => none

def appendTable (key : String) (as : List Assignment) (t : Fields) : Option Fields :=
  match t.get? key with
  | none => do return t.set key (.tables [← assign [] as])
  | some (.tables items) => do return t.set key (.tables (items ++ [← assign [] as]))
  | some _ => none

def addSection (t : Fields) (part : Header × List Assignment) : Option Fields :=
  let (header, as) := part
  let add := if header.isDouble then appendTable header.key as else openTable header.key as
  t.modifyAt add header.path

end Fields
end BlockExchange.Toml
