import Sequencer.Clock

/-!
Timers that are polled once a cycle. A timer has a timeout and a deadline; it is up once the clock
is strictly past the deadline. A timeout that is not positive makes a timer that is always up, and
one that reaches past the range of the clock makes a timer that never is.
-/

namespace Sequencer

inductive Timer.Unit where
  | microseconds
  | milliseconds
  | seconds
  | minutes
deriving Repr, DecidableEq

inductive Timer.Deadline where
  | expired
  | due (instant : Instant)
  | never
deriving Repr, DecidableEq

structure Timer where
  /-- Nothing for a timer that is always up. -/
  timeout : Option Duration
  deadline : Timer.Deadline
deriving Repr, DecidableEq

namespace Timer

def Unit.duration : Unit → Nat → Duration
  | .microseconds, n => .ofMicroseconds n
  | .milliseconds, n => .ofMilliseconds n
  | .seconds, n => .ofSeconds n
  | .minutes, n => .ofMinutes n

def reset (now : Instant) (timer : Timer) : Timer :=
  match timer.timeout with
  | none => { timer with deadline := .expired }
  | some timeout =>
    match now.add? timeout with
    | some instant => { timer with deadline := .due instant }
    | none => { timer with deadline := .never }

def ofTimeout (now : Instant) (timeout : Option Duration) (autostart : Bool) : Timer :=
  let timer : Timer := { timeout, deadline := .expired }
  if autostart then timer.reset now else timer

def ofUnits (now : Instant) (magnitude : Int64) (unit : Unit) (autostart : Bool) : Timer :=
  let timeout := if 0 < magnitude.toInt then some (unit.duration magnitude.toInt.toNat) else none
  ofTimeout now timeout autostart

def ofMilliseconds (now : Instant) (magnitude : Int64) : Timer :=
  ofUnits now magnitude .milliseconds true

def ofDuration (now : Instant) (timeout : Duration) : Timer :=
  ofTimeout now (if timeout.isZero then none else some timeout) true

def alwaysUp : Timer :=
  { timeout := none, deadline := .expired }

instance : Inhabited Timer := ⟨alwaysUp⟩

def invalidate (timer : Timer) : Timer :=
  { timer with deadline := .expired }

def isUp (now : Instant) (timer : Timer) : Bool :=
  match timer.deadline with
  | .expired => true
  | .due instant => instant.before now
  | .never => false

def duration (timer : Timer) : Duration :=
  timer.timeout.getD .zero

/-- The time left until the deadline. A deadline past the clock is one whole timeout away. -/
def remaining (now : Instant) (timer : Timer) : Duration :=
  match timer.deadline with
  | .expired => .zero
  | .due instant => instant.since now
  | .never => timer.duration

end Timer

end Sequencer
