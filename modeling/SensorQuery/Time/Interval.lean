import SensorQuery.Time.Duration

/-!
# Intervals

A stretch of time, given by two instants in order or by one instant and a length.
-/

namespace SensorQuery

/-- One side of an interval. -/
inductive Bound where
  | instant (t : Instant)
  | duration (d : Duration)

/-- A stretch of time. -/
inductive Interval where
  /-- From one instant to another. -/
  | between (start stop : Instant) (ordered : start ≤ stop)
  /-- From an instant on, for a length. -/
  | startingAt (start : Instant) (length : Duration)
  /-- For a length, up to an instant. -/
  | endingAt (length : Duration) (stop : Instant)
deriving DecidableEq

/-- Why a text or two sides make no interval. -/
inductive IntervalFault where
  | twoDurations
  | reversed
  | malformed
deriving DecidableEq

/-- The wording of the fault. -/
def IntervalFault.message : IntervalFault → String
  | .twoDurations => "at least one side must be an instant"
  | .reversed => "start lies after end"
  | .malformed => "malformed interval"

namespace Bound

/-- The side as an instant or a duration is written. -/
def text : Bound → List Char
  | .instant t => t.text
  | .duration d => d.text

end Bound

namespace Interval

/-- The interval with these sides: not two durations, nor two instants out of order. -/
def ofBounds : Bound → Bound → Except IntervalFault Interval
  | .duration _, .duration _ => .error .twoDurations
  | .instant start, .instant stop =>
    if h : start ≤ stop then .ok (.between start stop h) else .error .reversed
  | .instant start, .duration length => .ok (.startingAt start length)
  | .duration length, .instant stop => .ok (.endingAt length stop)

/-- The side at which the interval starts. -/
def start : Interval → Bound
  | .between start _ _ => .instant start
  | .startingAt start _ => .instant start
  | .endingAt length _ => .duration length

/-- The side at which the interval ends. -/
def stop : Interval → Bound
  | .between _ stop _ => .instant stop
  | .startingAt _ length => .duration length
  | .endingAt _ stop => .instant stop

/-- The first and the last instant, where the length leads to one. -/
def bounds? : Interval → Option (Instant × Instant)
  | .between start stop _ => some (start, stop)
  | .startingAt start length => (length.addTo? start).map fun stop ↦ (start, stop)
  | .endingAt length stop => (length.subtractFrom? stop).map fun start ↦ (start, stop)

/-- The intervals have the same kinds of sides, and the sides are the same. -/
def same : Interval → Interval → Bool
  | .between a b _, .between c d _ => a.same c && b.same d
  | .startingAt a b, .startingAt c d => a.same c && b.same d
  | .endingAt a b, .endingAt c d => a.same c && b.same d
  | _, _ => false

/-- Two sides with a slash between them. -/
def sidesText (start stop : Bound) : List Char := start.text ++ '/' :: stop.text

/-- The interval as its two sides with a slash between them. -/
def text (i : Interval) : List Char := sidesText i.start i.stop

/-- Reads an instant as a side. -/
def scanInstant {ε : Type} : Scanner ε Bound := do
  let t ← Instant.scan
  pure (.instant t)

/-- Reads a duration as a side. -/
def scanDuration {ε : Type} : Scanner ε Bound := do
  let d ← Duration.scan
  pure (.duration d)

/-- Reads two sides, at least one of them an instant. -/
def scanSides {ε : Type} : Scanner ε (Bound × Bound) :=
  Scanner.orElse
    (do
      let start ← scanInstant
      Scanner.char '/'
      let stop ← Scanner.orElse scanInstant scanDuration
      pure (start, stop))
    (do
      let start ← scanDuration
      Scanner.char '/'
      let stop ← scanInstant
      pure (start, stop))

/-- Reads an interval. Two instants out of order are refused, not missed. -/
def scan : Scanner IntervalFault Interval := do
  let (start, stop) ← scanSides
  Scanner.ofExcept (ofBounds start stop)

end Interval

end SensorQuery
