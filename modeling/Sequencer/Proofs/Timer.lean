import Sequencer.Timer

/-!
Timers in nanoseconds. A timer that was reset is up when its timeout is not positive, and else once
more than the timeout has gone by since.
-/

namespace Sequencer

namespace Duration

def nanoseconds (d : Duration) : Int :=
  d.seconds * 1000000000 + d.nanos

end Duration

namespace Instant

def nanoseconds (t : Instant) : Int :=
  t.seconds * 1000000000 + t.nanos

theorem before_iff (t u : Instant) : t.before u = true ↔ t.nanoseconds < u.nanoseconds := by
  have ht := t.nanos_lt
  have hu := u.nanos_lt
  simp only [before, nanoseconds, Bool.or_eq_true, Bool.and_eq_true, decide_eq_true_eq]
  omega

theorem nanoseconds_ofParts (seconds : Int) (nanos : Nat) :
    (ofParts seconds nanos).nanoseconds = seconds * 1000000000 + nanos := by
  simp only [ofParts, nanoseconds]
  omega

theorem nanoseconds_add? {t later : Instant} {d : Duration} (h : t.add? d = some later) :
    later.nanoseconds = t.nanoseconds + d.nanoseconds := by
  unfold add? at h
  dsimp only at h
  split at h
  . cases h
    rw [nanoseconds_ofParts, nanoseconds, Duration.nanoseconds]
    omega
  . simp at h

theorem nanoseconds_lt_of_add? {t now : Instant} {d : Duration} (h : t.add? d = none)
    (hnow : now.seconds ≤ maxSeconds) : now.nanoseconds < t.nanoseconds + d.nanoseconds := by
  have hnanos := now.nanos_lt
  unfold add? at h
  dsimp only at h
  split at h
  . simp at h
  . next hlate =>
    have hlater := nanoseconds_ofParts (t.seconds + d.seconds) (t.nanos + d.nanos)
    have hnanos' := (ofParts (t.seconds + d.seconds) (t.nanos + d.nanos)).nanos_lt
    simp only [nanoseconds, Duration.nanoseconds] at hlater ⊢
    omega

end Instant

namespace Timer

def Unit.nanoseconds : Unit → Int → Int
  | .microseconds, n => n * 1000
  | .milliseconds, n => n * 1000000
  | .seconds, n => n * 1000000000
  | .minutes, n => min (n * 60) Duration.maxSeconds * 1000000000

def HasTimeout (timer : Timer) (timeout : Int) : Prop :=
  match timer.timeout with
  | none => timeout ≤ 0
  | some duration => 0 < timeout ∧ duration.nanoseconds = timeout

theorem timeout_reset (now : Instant) (timer : Timer) :
    (timer.reset now).timeout = timer.timeout := by
  unfold reset
  split
  . rfl
  . split <;> rfl

theorem invalidate_reset (now : Instant) (timer : Timer) :
    (timer.reset now).invalidate = timer.invalidate := by
  unfold reset
  split
  . rfl
  . split <;> rfl

theorem timeout_ofTimeout (now : Instant) (timeout : Option Duration) (autostart : Bool) :
    (ofTimeout now timeout autostart).timeout = timeout := by
  unfold ofTimeout
  cases autostart with
  | true => exact timeout_reset now _
  | false => rfl

theorem nanoseconds_duration (unit : Unit) (n : Nat) :
    (unit.duration n).nanoseconds = unit.nanoseconds n := by
  cases unit <;>
    simp only [Unit.duration, Unit.nanoseconds, Duration.nanoseconds, Duration.ofMicroseconds,
      Duration.ofMilliseconds, Duration.ofSeconds, Duration.ofMinutes] <;>
    omega

theorem nanoseconds_pos_iff (unit : Unit) (n : Int) : 0 < unit.nanoseconds n ↔ 0 < n := by
  have hmax : (0 : Int) < Duration.maxSeconds := by
    decide
  cases unit <;> simp only [Unit.nanoseconds] <;> omega

theorem hasTimeout_ofUnits (now : Instant) (magnitude : Int64) (unit : Unit) (autostart : Bool) :
    (ofUnits now magnitude unit autostart).HasTimeout (unit.nanoseconds magnitude.toInt) := by
  have hpos := nanoseconds_pos_iff unit magnitude.toInt
  rw [HasTimeout, ofUnits, timeout_ofTimeout]
  split
  . next hnone =>
    split at hnone
    . simp at hnone
    . omega
  . next duration hsome =>
    split at hsome
    . next hmagnitude =>
      cases hsome
      rw [nanoseconds_duration, Int.toNat_of_nonneg (by omega)]
      exact ⟨hpos.mpr hmagnitude, rfl⟩
    . simp at hsome

theorem hasTimeout_ofDuration (now : Instant) (timeout : Duration) :
    (ofDuration now timeout).HasTimeout timeout.nanoseconds := by
  rw [HasTimeout, ofDuration, timeout_ofTimeout]
  cases hzero : timeout.isZero with
  | true =>
    simp only [Duration.isZero, decide_eq_true_eq] at hzero
    simp only [↓reduceIte, Duration.nanoseconds]
    omega
  | false =>
    simp only [Duration.isZero, decide_eq_false_iff_not] at hzero
    simp only [Bool.false_eq_true, ↓reduceIte, and_true, Duration.nanoseconds]
    omega

theorem isUp_reset {timer : Timer} {timeout : Int} (h : timer.HasTimeout timeout)
    (since : Instant) {now : Instant} (hnow : now.seconds ≤ Instant.maxSeconds) :
    (timer.reset since).isUp now = true ↔
      timeout ≤ 0 ∨ timeout < now.nanoseconds - since.nanoseconds := by
  unfold HasTimeout at h
  unfold reset
  cases htimeout : timer.timeout with
  | none =>
    rw [htimeout] at h
    simp [isUp, show timeout ≤ 0 from h]
  | some duration =>
    rw [htimeout] at h
    obtain ⟨hpos, hduration⟩ := h
    dsimp only
    split
    . next instant hadd =>
      have hinstant := Instant.nanoseconds_add? hadd
      rw [isUp, Instant.before_iff]
      omega
    . next hadd =>
      have hlate := Instant.nanoseconds_lt_of_add? hadd hnow
      simp only [isUp, Bool.false_eq_true, false_iff]
      omega

end Timer

end Sequencer
