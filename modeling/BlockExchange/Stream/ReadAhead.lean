import BlockExchange.Pipe

/-!
# Reading ahead

A reader that asks a pipe for few bytes at a time gets them from a store that is filled with many at
once. A reader that asks for many gets them from the pipe itself when nothing is in store.
-/

namespace BlockExchange

structure ReadAhead where
  /-- Bytes that were taken from the pipe and not yet asked for. -/
  held : Bytes := []

namespace ReadAhead

/-- How many bytes it takes from the pipe at once. -/
def chunk : Nat := 8192

def take (a : ReadAhead) (n : Nat) : ReadAhead × Bytes :=
  (⟨a.held.drop n⟩, a.held.take n)

/-- At most `n` of the next bytes: none at the end of the pipe, and no answer if the pipe is empty
and more may come. -/
def read (a : ReadAhead) (p : Pipe) (n : Nat) : ReadAhead × Pipe × Option Bytes :=
  if !a.held.isEmpty then
    let (a, bytes) := a.take n
    (a, p, some bytes)
  else if p.content.isEmpty && !p.closed then (a, p, none)
  else if chunk ≤ n then
    (a, { p with content := p.content.drop n }, some (p.content.take n))
  else
    let (a, bytes) := take ⟨p.content.take chunk⟩ n
    (a, { p with content := p.content.drop chunk }, some bytes)

end ReadAhead
end BlockExchange
