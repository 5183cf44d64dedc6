/-!
Durations and instants of a monotonic clock, counted in whole seconds and nanoseconds. Both have a
greatest value: a duration has fewer than `2 ^ 64` seconds, an instant fewer than `2 ^ 63`. A
`Clock` is what the clock shows in the course of a cycle, each time that it is read.
-/

namespace Sequencer

structure Duration where
  seconds : Nat
  nanos : Nat
  nanos_lt : nanos < 1000000000
deriving Repr, DecidableEq

namespace Duration

def zero : Duration := ⟨0, 0, by decide⟩

instance : Inhabited Duration := ⟨zero⟩

def maxSeconds : Nat := UInt64.size - 1

def ofParts (seconds nanos : Nat) : Duration :=
  ⟨seconds + nanos / 1000000000, nanos % 1000000000, Nat.mod_lt _ (by decide)⟩

def ofMicroseconds (n : Nat) : Duration :=
  ⟨n / 1000000, n % 1000000 * 1000, by omega⟩

def ofMilliseconds (n : Nat) : Duration :=
  ⟨n / 1000, n % 1000 * 1000000, by omega⟩

def ofSeconds (n : Nat) : Duration :=
  ⟨n, 0, by decide⟩

/-- Minutes past the longest duration are taken as that duration. -/
def ofMinutes (n : Nat) : Duration :=
  ⟨min (n * 60) maxSeconds, 0, by decide⟩

def isZero (d : Duration) : Bool :=
  d.seconds = 0 ∧ d.nanos = 0

end Duration

structure Instant where
  seconds : Int
  nanos : Nat
  nanos_lt : nanos < 1000000000
deriving Repr, DecidableEq

namespace Instant

def maxSeconds : Int := 0x7FFFFFFFFFFFFFFF

def ofParts (seconds : Int) (nanos : Nat) : Instant :=
  ⟨seconds + nanos / 1000000000, nanos % 1000000000, Nat.mod_lt _ (by decide)⟩

instance : Inhabited Instant := ⟨ofParts 0 0⟩

def add? (t : Instant) (d : Duration) : Option Instant :=
  let later := ofParts (t.seconds + d.seconds) (t.nanos + d.nanos)
  if later.seconds ≤ maxSeconds then some later else none

def before (t u : Instant) : Bool :=
  t.seconds < u.seconds || (t.seconds = u.seconds && t.nanos < u.nanos)

/-- The time from `earlier` to `t`, zero when `t` is not later. -/
def since (t earlier : Instant) : Duration :=
  if t.before earlier then .zero
  else if h : earlier.nanos ≤ t.nanos then
    ⟨(t.seconds - earlier.seconds).toNat, t.nanos - earlier.nanos, by have := t.nanos_lt; omega⟩
  else
    ⟨(t.seconds - earlier.seconds - 1).toNat, t.nanos + 1000000000 - earlier.nanos, by omega⟩

end Instant

/--
What the clock shows in the course of one transition: when an instruction is invoked, and when the
one after it becomes pending. Time may go by in between, since callbacks take theirs.
-/
structure Reading where
  invoked : Instant
  armed : Instant
deriving Repr, DecidableEq

/-- The readings of the transitions of a cycle, one after the other. -/
def Clock : Type := Nat → Reading

namespace Clock

def still (now : Instant) : Clock :=
  fun _ => ⟨now, now⟩

instance : Inhabited Clock := ⟨still default⟩

end Clock

end Sequencer
