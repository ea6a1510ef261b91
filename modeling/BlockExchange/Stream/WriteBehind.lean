import BlockExchange.Pipe

/-!
# Writing behind

Small pieces are collected before they go into a pipe, large ones go there at once. What was
collected keeps its place until all of it has been written: bytes that the pipe took already still
count against the limit.
-/

namespace BlockExchange

structure WriteBehind where
  /-- Bytes that were collected. -/
  held : Bytes := []
  /-- How many of them the pipe has taken. -/
  written : Nat := 0

inductive Flow
  | done
  | pending
  | broken
deriving DecidableEq, Repr

namespace WriteBehind

/-- How many bytes are collected at most; a piece of that size is not collected. -/
def limit : Nat := 8192

/-- Writes what was collected. Bytes that a broken pipe refuses are kept. -/
def flush (b : WriteBehind) (p : Pipe) : WriteBehind × Pipe × Flow :=
  let rest := b.held.drop b.written
  if rest.isEmpty then ({}, p, .done)
  else match p.write? rest with
    | none => ({ held := rest }, p, .broken)
    | some (p, left) =>
      if left.isEmpty then ({}, p, .done)
      else ({ b with written := b.held.length - left.length }, p, .pending)

/-- Takes a piece on, as far as it can, and tells what is left of the piece. -/
def write (b : WriteBehind) (p : Pipe) (piece : Bytes) : WriteBehind × Pipe × Flow × Bytes :=
  match if limit < b.held.length + piece.length then b.flush p else (b, p, .done) with
  | (b, p, .done) =>
    if piece.length < limit then ({ b with held := b.held ++ piece }, p, .done, [])
    else match p.write? piece with
      | none => (b, p, .broken, piece)
      | some (p, left) => (b, p, if left.length < piece.length then .done else .pending, left)
  | (b, p, flow) => (b, p, flow, piece)

end WriteBehind
end BlockExchange
