/-!
# Durations

A span of time in whole nanoseconds. A moment is the span since some fixed start.
-/

namespace BlockExchange

structure Duration where
  nanos : Nat
deriving DecidableEq, Repr

namespace Duration

def nanosPerMilli : Nat := 1000000

def nanosPerSecond : Nat := 1000000000

def ofMillis (n : Nat) : Duration := ⟨n * nanosPerMilli⟩

def ofSeconds (n : Nat) : Duration := ⟨n * nanosPerSecond⟩

def toMillis (d : Duration) : Nat :=
  d.nanos / nanosPerMilli

theorem toMillis_ofMillis (n : Nat) : (ofMillis n).toMillis = n :=
  Nat.mul_div_cancel n (by decide)

def isZero (d : Duration) : Bool :=
  d.nanos == 0

def add (a b : Duration) : Duration := ⟨a.nanos + b.nanos⟩

/-- The span from `a` to `b`, zero if `b` is the earlier. -/
def since (b a : Duration) : Duration := ⟨b.nanos - a.nanos⟩

def lt (a b : Duration) : Bool :=
  a.nanos < b.nanos

end Duration
end BlockExchange
