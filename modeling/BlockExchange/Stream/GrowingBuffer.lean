import BlockExchange.Bytes

/-!
# Growing buffers

A buffer that is filled at the back and emptied at the front. How much it holds before it needs more
memory decides how many bytes are asked for at a time. A piece that is cut off the front lies in the
same memory, and as long as the piece is in use that memory is not used again. Most pieces are in use
until the next bytes are asked for; one may be kept for good.
-/

namespace BlockExchange

/-- The memory of a buffer that starts anew has at least this size. -/
def GrowingBuffer.initialCapacity : Nat := 8192

structure GrowingBuffer where
  content : Bytes := []
  /-- How much of the memory lies in front of the content. -/
  offset : Nat := 0
  /-- How long the content may get where it stands. -/
  capacity : Nat := GrowingBuffer.initialCapacity
  memory : Nat := GrowingBuffer.initialCapacity
  /-- Whether a piece was cut off that lies in the same memory. -/
  isShared : Bool := false
  /-- Whether such a piece is kept for good. -/
  isKept : Bool := false

namespace GrowingBuffer

def room (b : GrowingBuffer) : Nat :=
  b.capacity - b.content.length

def append (b : GrowingBuffer) (bytes : Bytes) : GrowingBuffer :=
  { b with content := b.content ++ bytes }

def drop (b : GrowingBuffer) (n : Nat) : GrowingBuffer :=
  { b with content := b.content.drop n, offset := b.offset + n, capacity := b.capacity - n }

def cut (b : GrowingBuffer) (n : Nat) : GrowingBuffer :=
  { b.drop n with isShared := true }

/-- Keeps the piece that was cut off last, if it lies in the same memory. -/
def keep (b : GrowingBuffer) : GrowingBuffer :=
  { b with isKept := b.isKept || b.isShared }

def moveToFront (b : GrowingBuffer) : GrowingBuffer :=
  { b with offset := 0, capacity := b.memory }

/-- Gets more memory; the content stays where it stands. -/
def grow (b : GrowingBuffer) (n : Nat) : GrowingBuffer :=
  let memory := max (2 * b.memory) (b.offset + b.content.length + n)
  { b with memory, capacity := memory - b.offset }

/-- Moves the content into memory of its own. -/
def leave (b : GrowingBuffer) (n : Nat) : GrowingBuffer :=
  let memory := max (b.content.length + n) initialCapacity
  { content := b.content, capacity := memory, memory }

/-- Makes room for `n` more bytes. Content that is longer than what lies in front of it is not moved
within its memory, and nothing is moved within memory of which a piece is in use. -/
def reserve (b : GrowingBuffer) (pieceInUse : Bool) (n : Nat) : GrowingBuffer :=
  let needed := b.content.length + n
  if n ≤ b.room then b
  else if b.isShared && (pieceInUse || b.isKept) then b.leave n
  else if b.isShared && b.offset + needed ≤ b.memory then { b with capacity := needed }
  else if needed ≤ b.memory && b.content.length ≤ b.offset then b.moveToFront
  else b.grow n

theorem content_reserve (b : GrowingBuffer) (pieceInUse : Bool) (n : Nat) :
    (b.reserve pieceInUse n).content = b.content := by
  simp only [reserve]
  split
  · rfl
  split
  · rfl
  split
  · rfl
  split <;> rfl

theorem le_room_reserve (b : GrowingBuffer) (pieceInUse : Bool) (n : Nat) :
    n ≤ (b.reserve pieceInUse n).room := by
  simp only [reserve]
  split
  · assumption
  split
  · simp only [room, leave]
    omega
  split
  · simp only [room]
    omega
  split
  · rename_i h
    have := (Bool.and_eq_true_iff.1 h).1
    simp only [decide_eq_true_eq] at this
    simp only [room, moveToFront]
    omega
  · simp only [room, grow]
    omega

end GrowingBuffer
end BlockExchange
