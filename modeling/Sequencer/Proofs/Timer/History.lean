import Sequencer.Proofs.Timer

/-!
Timers over time. Whatever happened to a timer, it is up or not by when it was armed last and by
what the clock shows. Counted in nanoseconds without bounds, neither the longest duration nor the
end of the clock makes a difference to that.
-/

namespace Sequencer

def Duration.rangeEnd : Int := (maxSeconds + 1) * 1000000000

namespace Instant

def Representable (t : Instant) : Prop :=
  0 ≤ t.seconds ∧ t.seconds ≤ maxSeconds

instance (t : Instant) : Decidable t.Representable :=
  inferInstanceAs (Decidable (_ ∧ _))

def rangeEnd : Int := (maxSeconds + 1) * 1000000000

theorem Representable.nanoseconds {t : Instant} (h : t.Representable) :
    0 ≤ t.nanoseconds ∧ t.nanoseconds < rangeEnd := by
  have hnanos := t.nanos_lt
  obtain ⟨hlower, hupper⟩ := h
  simp only [Instant.nanoseconds, rangeEnd, maxSeconds] at hupper ⊢
  omega

theorem add?_eq_none_iff (t : Instant) (d : Duration) :
    t.add? d = none ↔ rangeEnd ≤ t.nanoseconds + d.nanoseconds := by
  have hlater := nanoseconds_ofParts (t.seconds + d.seconds) (t.nanos + d.nanos)
  have hnanos := (ofParts (t.seconds + d.seconds) (t.nanos + d.nanos)).nanos_lt
  simp only [add?, ite_eq_right_iff, reduceCtorEq, imp_false, Int.not_le]
  simp only [nanoseconds, Duration.nanoseconds, rangeEnd] at hlater ⊢
  omega

theorem nanoseconds_since (t earlier : Instant) :
    (t.since earlier).nanoseconds = max (t.nanoseconds - earlier.nanoseconds) 0 := by
  have ht := t.nanos_lt
  have hearlier := earlier.nanos_lt
  have hbefore := before_iff t earlier
  simp only [nanoseconds] at hbefore ⊢
  unfold since
  split
  . next hlate =>
    rw [hbefore] at hlate
    simp only [Duration.zero, Duration.nanoseconds]
    omega
  . next hlate =>
    rw [hbefore] at hlate
    split <;> simp only [Duration.nanoseconds] <;> omega

end Instant

namespace Timer

theorem reset_of_timeout {timer timer' : Timer} (h : timer.timeout = timer'.timeout)
    (now : Instant) : timer.reset now = timer'.reset now := by
  obtain ⟨timeout, _⟩ := timer
  obtain ⟨timeout', _⟩ := timer'
  cases h
  rfl

/-- A timer as it is since it was armed, or since it was invalidated or made without being armed. -/
def armedAt (timer : Timer) : Option Instant → Timer
  | none => timer.invalidate
  | some armed => timer.reset armed

theorem timeout_armedAt (timer : Timer) (armed : Option Instant) :
    (timer.armedAt armed).timeout = timer.timeout := by
  cases armed with
  | none => rfl
  | some armed => exact timeout_reset armed timer

theorem reset_armedAt (timer : Timer) (armed : Option Instant) (now : Instant) :
    (timer.armedAt armed).reset now = timer.armedAt (some now) :=
  reset_of_timeout (timeout_armedAt timer armed) now

theorem invalidate_armedAt (timer : Timer) (armed : Option Instant) :
    (timer.armedAt armed).invalidate = timer.armedAt none := by
  cases armed with
  | none => rfl
  | some armed => exact invalidate_reset armed timer

inductive Setting where
  | units (magnitude : Int64) (unit : Unit) (autostart : Bool)
  | duration (timeout : Duration)

def Unit.length : Unit → Int
  | .microseconds => 1000
  | .milliseconds => 1000000
  | .seconds => 1000000000
  | .minutes => 60 * 1000000000

namespace Setting

def timer (now : Instant) : Setting → Timer
  | .units magnitude unit autostart => ofUnits now magnitude unit autostart
  | .duration timeout => ofDuration now timeout

def timeout : Setting → Int
  | .units magnitude unit _ => magnitude.toInt * unit.length
  | .duration timeout => timeout.nanoseconds

def starts : Setting → Bool
  | .units _ _ autostart => autostart
  | .duration _ => true

end Setting

inductive Event where
  | reset
  | invalidate
  | clock (now : Instant)

def Event.Representable : Event → Prop
  | .clock now => now.Representable
  | .reset | .invalidate => True

instance : (event : Event) → Decidable event.Representable
  | .clock now => inferInstanceAs (Decidable now.Representable)
  | .reset | .invalidate => inferInstanceAs (Decidable True)

structure Watch where
  timer : Timer
  now : Instant

namespace Watch

def after (watch : Watch) : Event → Watch
  | .reset => { watch with timer := watch.timer.reset watch.now }
  | .invalidate => { watch with timer := watch.timer.invalidate }
  | .clock now => { watch with now }

def carryOut (watch : Watch) (events : List Event) : Watch :=
  events.foldl after watch

def isUp (watch : Watch) : Bool :=
  watch.timer.isUp watch.now

def remaining (watch : Watch) : Duration :=
  watch.timer.remaining watch.now

end Watch

def lastArming? (armed : Option Instant) (now : Instant) : List Event → Option Instant
  | [] => armed
  | .reset :: rest => lastArming? (some now) now rest
  | .invalidate :: rest => lastArming? none now rest
  | .clock now :: rest => lastArming? armed now rest

theorem timer_carryOut (timer : Timer) (armed : Option Instant) (now : Instant)
    (events : List Event) :
    (Watch.carryOut ⟨timer.armedAt armed, now⟩ events).timer =
      timer.armedAt (lastArming? armed now events) := by
  induction events generalizing armed now with
  | nil => rfl
  | cons event rest ih =>
    rw [Watch.carryOut, List.foldl_cons, ← Watch.carryOut]
    cases event with
    | reset =>
      rw [Watch.after, reset_armedAt]
      exact ih (some now) now
    | invalidate =>
      rw [Watch.after, invalidate_armedAt]
      exact ih none now
    | clock now => exact ih armed now

theorem representable_carryOut {watch : Watch} {armed : Option Instant} {events : List Event}
    (hnow : watch.now.Representable) (harmed : ∀ since ∈ armed, since.Representable)
    (hevents : ∀ event ∈ events, event.Representable) :
    (watch.carryOut events).now.Representable ∧
      ∀ since ∈ lastArming? armed watch.now events, since.Representable := by
  induction events generalizing watch armed with
  | nil => exact ⟨hnow, harmed⟩
  | cons event rest ih =>
    rw [List.forall_mem_cons] at hevents
    cases event with
    | reset => exact @ih (watch.after .reset) _ hnow (by simpa using hnow) hevents.2
    | invalidate => exact @ih (watch.after .invalidate) _ hnow (by simp) hevents.2
    | clock now => exact @ih (watch.after (.clock now)) _ hevents.1 harmed hevents.2

theorem timer_eq_armedAt (setting : Setting) (start : Instant) :
    setting.timer start =
      (setting.timer start).armedAt (if setting.starts then some start else none) := by
  have hofTimeout (timeout : Option Duration) (autostart : Bool) :
      ofTimeout start timeout autostart =
        (ofTimeout start timeout autostart).armedAt (if autostart then some start else none) := by
    cases autostart with
    | true => exact (reset_of_timeout (timeout_reset _ _) start).symm
    | false => rfl
  cases setting with
  | units magnitude unit autostart => exact hofTimeout _ autostart
  | duration timeout => exact hofTimeout _ true

theorem Setting.exists_hasTimeout (setting : Setting) (start : Instant) :
    ∃ timeout, (setting.timer start).HasTimeout timeout ∧
      (timeout = setting.timeout ∨
        Instant.rangeEnd ≤ timeout ∧ Duration.rangeEnd ≤ setting.timeout) := by
  cases setting with
  | duration timeout => exact ⟨_, hasTimeout_ofDuration start timeout, Or.inl rfl⟩
  | units magnitude unit autostart =>
    refine ⟨_, hasTimeout_ofUnits start magnitude unit autostart, ?_⟩
    cases unit with
    | minutes =>
      simp only [Unit.nanoseconds, Setting.timeout, Unit.length, Instant.rangeEnd,
        Duration.rangeEnd, Instant.maxSeconds, Duration.maxSeconds, UInt64.size]
      omega
    | _ => exact Or.inl rfl

theorem remaining_of_isUp {timer : Timer} {now : Instant} (h : timer.isUp now = true) :
    timer.remaining now = .zero := by
  unfold isUp at h
  unfold remaining
  cases hdeadline : timer.deadline with
  | expired => rfl
  | due instant =>
    rw [hdeadline] at h
    dsimp only at h ⊢
    rw [Instant.since, if_pos h]
  | never => simp [hdeadline] at h

theorem deadline_reset (timer : Timer) (since : Instant) :
    (timer.reset since).deadline =
      match timer.timeout with
      | none => .expired
      | some duration => ((since.add? duration).map Deadline.due).getD .never := by
  unfold reset
  cases timer.timeout with
  | none => rfl
  | some duration =>
    dsimp only
    cases since.add? duration <;> rfl

theorem remaining_reset {timer : Timer} {timeout : Int} (h : timer.HasTimeout timeout)
    {since now : Instant} (hnow : now.Representable)
    (hup : (timer.reset since).isUp now = false) :
    let deadline := since.nanoseconds + timeout
    let left := (timer.reset since).remaining now
    now.nanoseconds ≤ deadline ∧
      (deadline < Instant.rangeEnd → left.nanoseconds = deadline - now.nanoseconds) ∧
      (Instant.rangeEnd ≤ deadline → left = timer.duration) := by
  have hdeadline := deadline_reset timer since
  have hduration : (timer.reset since).duration = timer.duration := by
    rw [duration, timeout_reset, duration]
  unfold HasTimeout at h
  unfold isUp at hup
  simp only [remaining]
  cases htimeout : timer.timeout with
  | none => simp [hdeadline, htimeout] at hup
  | some timeout =>
    rw [htimeout] at h hdeadline
    obtain ⟨_, rfl⟩ := h
    have hnone := Instant.add?_eq_none_iff since timeout
    cases hadd : since.add? timeout with
    | none =>
      have hlate := Instant.nanoseconds_lt_of_add? hadd hnow.2
      simp only [hadd, Option.map_none, Option.getD_none] at hdeadline
      simp only [hadd, true_iff] at hnone
      simp only [hdeadline]
      exact ⟨by omega, by omega, fun _ => hduration⟩
    | some instant =>
      have hinstant := Instant.nanoseconds_add? hadd
      have hleft := Instant.nanoseconds_since instant now
      have hbefore := Instant.before_iff instant now
      simp only [hadd, Option.map_some, Option.getD_some] at hdeadline
      simp only [hdeadline] at hup
      simp only [hup, Bool.false_eq_true, false_iff] at hbefore
      simp only [hadd, reduceCtorEq, false_iff] at hnone
      simp only [hdeadline]
      exact ⟨by omega, by omega, fun hlate => absurd hlate hnone⟩

theorem nanoseconds_duration_of_hasTimeout {timer : Timer} {timeout : Int}
    (h : timer.HasTimeout timeout) : timer.duration.nanoseconds = max timeout 0 := by
  unfold HasTimeout at h
  unfold duration
  cases htimeout : timer.timeout with
  | none =>
    rw [htimeout] at h
    dsimp only at h
    simp only [Option.getD_none, Duration.zero, Duration.nanoseconds]
    omega
  | some duration =>
    rw [htimeout] at h
    rw [Option.getD_some]
    omega

/--
However a timer was made, and whatever was done to it since, it is up exactly when its timeout is
not positive, when it was never armed or was invalidated since, or when more than its timeout has
gone by since it was armed. Nothing remains then. Else the time to the deadline remains, or the
whole timeout if no clock can show the deadline.
-/
theorem exact_since_lastArming (setting : Setting) {start : Instant} (hstart : start.Representable)
    {events : List Event} (hevents : ∀ event ∈ events, event.Representable) :
    let armed := lastArming? (if setting.starts then some start else none) start events
    let watch := Watch.carryOut ⟨setting.timer start, start⟩ events
    (watch.isUp = true ↔ setting.timeout ≤ 0 ∨ armed = none ∨
      ∃ since, armed = some since ∧
        setting.timeout < watch.now.nanoseconds - since.nanoseconds) ∧
    (watch.isUp = true → watch.remaining = .zero) ∧
    (watch.isUp = false → ∃ since, armed = some since ∧
      let deadline := since.nanoseconds + setting.timeout
      watch.now.nanoseconds ≤ deadline ∧
      (deadline < Instant.rangeEnd →
        watch.remaining.nanoseconds = deadline - watch.now.nanoseconds) ∧
      (Instant.rangeEnd ≤ deadline → watch.remaining = watch.timer.duration)) ∧
    watch.timer.duration = (setting.timer start).duration ∧
    (setting.timeout < Duration.rangeEnd →
      watch.timer.duration.nanoseconds = max setting.timeout 0) := by
  intro armed watch
  have htimer : watch.timer = (setting.timer start).armedAt armed := by
    rw [← timer_carryOut, ← timer_eq_armedAt]
  obtain ⟨hnow, harmed⟩ : watch.now.Representable ∧ ∀ since ∈ armed, since.Representable :=
    representable_carryOut hstart (by cases setting.starts <;> simp [hstart]) hevents
  obtain ⟨timeout, htimeout, hcut⟩ := setting.exists_hasTimeout start
  have hduration : watch.timer.duration = (setting.timer start).duration := by
    rw [duration, htimer, timeout_armedAt, duration]
  have hnanos := nanoseconds_duration_of_hasTimeout htimeout
  -- no clock can tell the cut timeout from the one that was asked for
  have hrange : Instant.rangeEnd ≤ Duration.rangeEnd ∧ 0 ≤ Instant.rangeEnd := by
    decide
  refine ⟨?_, remaining_of_isUp, ?_, hduration, ?_⟩
  . rw [Watch.isUp, htimer]
    cases hsince : armed with
    | none => simp [armedAt, isUp, invalidate]
    | some since =>
      have hbounds := (harmed since (by simp [hsince])).nanoseconds
      have hbounds' := hnow.nanoseconds
      rw [armedAt, isUp_reset htimeout since hnow.2]
      simp only [reduceCtorEq, false_or, Option.some.injEq, exists_eq_left']
      omega
  . intro hup
    rw [Watch.isUp, htimer] at hup
    simp only [Watch.remaining, hduration]
    rw [htimer]
    cases hsince : armed with
    | none => simp [hsince, armedAt, isUp, invalidate] at hup
    | some since =>
      have hbounds := (harmed since (by simp [hsince])).nanoseconds
      have hbounds' := hnow.nanoseconds
      rw [hsince, armedAt] at hup
      obtain ⟨hle, hnear, hfar⟩ := remaining_reset htimeout hnow hup
      refine ⟨since, rfl, by omega, ?_, ?_⟩
      . intro hdeadline
        rw [armedAt, hnear (by omega)]
        omega
      . intro hdeadline
        rw [armedAt, hfar (by omega)]
  . rw [hduration]
    omega

def longest : Setting :=
  .units Int64.maxValue .minutes true

def untilTheEnd : List Event :=
  [.invalidate, .clock (.ofParts 2000 7), .reset, .clock (.ofParts Instant.maxSeconds 999999999)]

theorem exact_since_lastArming_longest :
    let start := Instant.ofParts 1000 0
    let watch := Watch.carryOut ⟨longest.timer start, start⟩ untilTheEnd
    start.Representable ∧ (∀ event ∈ untilTheEnd, event.Representable) ∧
      watch.isUp = false ∧ watch.remaining = .ofSeconds 0xFFFFFFFFFFFFFFFF := by
  intro start watch
  have hstart : start.Representable := by
    decide
  have hevents : ∀ event ∈ untilTheEnd, event.Representable := by
    decide
  have hup : watch.isUp = false := by
    decide +kernel
  obtain ⟨_, _, hleft, hduration, _⟩ := exact_since_lastArming longest hstart hevents
  obtain ⟨since, hsince, _, _, hfar⟩ := hleft hup
  have harmed : since = .ofParts 2000 7 := by
    rw [← Option.some.injEq, ← hsince]
    rfl
  refine ⟨hstart, hevents, hup, ?_⟩
  rw [hfar (by rw [harmed]; decide +kernel), hduration]
  decide +kernel

end Timer

end Sequencer
