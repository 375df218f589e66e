import Mathlib

/-!
# The noncausal timestamp filter

`NoncausalTimestampFilter::SingleFilter` keeps, for one direction between two nodes, the samples of the
clock offset that bound it from below best: a line through the highest points whose slope stays within the
largest rate at which the clocks may drift apart. Samples come in any order, and a part of the line can be
frozen once it has been used.

Times and offsets are in nanoseconds. The velocity limit is one part in a thousand, so the comparisons of
the source against a multiple of it are written here multiplied by a thousand.
-/

namespace RobotCode.Network

structure Point where
  time : Int
  offset : Int
  deriving DecidableEq, Repr

/-- `doffset < -dt * kMaxVelocity()` -/
def SlopeTooNegative (dt doffset : Int) : Prop := 1000 * doffset < -dt

/-- `doffset > dt * kMaxVelocity()` -/
def SlopeTooPositive (dt doffset : Int) : Prop := dt < 1000 * doffset

instance (dt doffset : Int) : Decidable (SlopeTooNegative dt doffset) := inferInstanceAs (Decidable (_ < _))

instance (dt doffset : Int) : Decidable (SlopeTooPositive dt doffset) := inferInstanceAs (Decidable (_ < _))

/-- The `CHECK`s of the filter. -/
inductive FilterCheck where
  /-- Returned a horizontal line previously and then got a new sample. -/
  | fullyFrozen
  /-- Tried to insert before the frozen time. -/
  | beforeFrozenTime
  /-- The place to insert at is not the end. -/
  | insertionPoint
  /-- We shouldn't hit this one, but I really want to be sure. -/
  | insertFrozen
  /-- Can't pop an already frozen sample. -/
  | popFrozen
  /-- How did we get here? -/
  | unreachable
  | empty
  deriving DecidableEq, Repr

/-- The frozen time is `none` for `min_time`, before all times, as long as nothing is frozen. -/
structure SingleFilter where
  timestamps : List Point
  frozenTime : Option Int
  fullyFrozen : Bool
  hasPopped : Bool
  deriving DecidableEq

def SingleFilter.initial : SingleFilter := ⟨[], none, false, false⟩

def SingleFilter.Frozen (f : SingleFilter) (t : Int) : Prop := f.frozenTime.any (t ≤ ·)

instance (f : SingleFilter) (t : Int) : Decidable (f.Frozen t) := inferInstanceAs (Decidable (_ = true))

namespace SingleFilter

variable (f : SingleFilter) (x : Point)

/-- The back propagation when `x` is appended, from the last element on. The first element stays. -/
def backPropagate : List Point → Except FilterCheck (List Point)
  | back :: before :: rest =>
    if SlopeTooPositive (x.time - back.time) (x.offset - back.offset) then
      if f.Frozen back.time then .error .popFrozen else backPropagate (before :: rest)
    else .ok (back :: before :: rest)
  | rest => .ok rest

/-- The loop that removes what a new first element `x` makes invalid. -/
def removeSecond : List Point → List Point
  | [] => []
  | [second] => if SlopeTooNegative (second.time - x.time) (second.offset - x.offset) then [] else [second]
  | second :: third :: rest =>
    if SlopeTooNegative (second.time - x.time) (second.offset - x.offset) then removeSecond (third :: rest)
    else if SlopeTooPositive (third.time - second.time) (third.offset - second.offset) then
      removeSecond (third :: rest)
    else second :: third :: rest

/-- The loop around a new middle element `x`, on what is before it, last first, and what is after it. -/
def propagate : List Point → List Point → Except FilterCheck (List Point × List Point)
  | [], after => .ok ([], after)
  | prior :: before, next :: after =>
    if SlopeTooNegative (next.time - x.time) (next.offset - x.offset) then propagate (prior :: before) after
    else if before ≠ [] ∧ SlopeTooPositive (x.time - prior.time) (x.offset - prior.offset) then
      if f.Frozen prior.time then .error .popFrozen else propagate before (next :: after)
    else .ok (prior :: before, next :: after)
  | prior :: before, [] =>
    if before ≠ [] ∧ SlopeTooPositive (x.time - prior.time) (x.offset - prior.offset) then
      if f.Frozen prior.time then .error .popFrozen else propagate before []
    else .ok (prior :: before, [])
termination_by before after => before.length + after.length

/-- `Sample` when `x` does not belong to the end. The timestamps before the insertion point, last first, and
those from it on. -/
def insert : List Point → List Point → Except FilterCheck SingleFilter
  | _, [] => .error .insertionPoint
  | before, next :: after =>
    if f.Frozen next.time then .error .insertFrozen
    else
      match before with
      | [] =>
        if next.time - x.time = 0 ∧ 0 ≤ next.offset - x.offset then .ok f
        else .ok { f with timestamps := x :: removeSecond x (next :: after) }
      | prior :: before =>
        if SlopeTooNegative (x.time - prior.time) (x.offset - prior.offset) then .ok f
        else if SlopeTooPositive (next.time - x.time) (next.offset - x.offset) then .ok f
        else do
          let (before, after) ← f.propagate x (prior :: before) (next :: after)
          .ok { f with timestamps := before.reverse ++ x :: after }

def sample : Except FilterCheck SingleFilter :=
  match f.timestamps.getLast? with
  | none => if f.fullyFrozen then .error .fullyFrozen else .ok { f with timestamps := [x] }
  | some back =>
    let dt := x.time - back.time
    let doffset := x.offset - back.offset
    if f.Frozen x.time then .error .beforeFrozenTime
    else if dt = 0 ∧ doffset = 0 then .ok f
    else if 0 < dt then
      if SlopeTooNegative dt doffset then .ok f
      else if f.fullyFrozen then .error .fullyFrozen
      else do
        let kept ← f.backPropagate x f.timestamps.reverse
        .ok { f with timestamps := kept.reverse ++ [x] }
    else
      f.insert x (f.timestamps.takeWhile (·.time < x.time)).reverse (f.timestamps.dropWhile (·.time < x.time))

end SingleFilter

/-- The first point may violate the velocity constraint. It is then moved rather than removed. -/
def Point.clip (p₀ p₁ : Point) : Point :=
  if SlopeTooPositive (p₁.time - p₀.time) (p₁.offset - p₀.offset) then
    ⟨p₀.time, p₁.offset - (p₁.time - p₀.time).tdiv 1000⟩
  else p₀

namespace SingleFilter

variable (f : SingleFilter)

/-- The values of `timestamp(i)` for all `i`. -/
def points : List Point :=
  match f.timestamps with
  | p₀ :: p₁ :: rest => if f.hasPopped then p₀ :: p₁ :: rest else p₀.clip p₁ :: p₁ :: rest
  | timestamps => timestamps

def timestamp (i : Nat) : Except FilterCheck Point :=
  match f.points[i]? with
  | some p => .ok p
  | none => .error .empty

end SingleFilter

def extrapolateOffset (p₀ : Point) (ta : Int) : Int :=
  let dt := ta - p₀.time
  if dt ≤ 0 then p₀.offset + dt.tdiv 1000 else p₀.offset - dt.tdiv 1000

def interpolateOffset (p₀ p₁ : Point) (ta : Int) : Int :=
  let timeIn := ta - p₀.time
  let dt := p₁.time - p₀.time
  let numerator := timeIn * (p₁.offset - p₀.offset)
  let numerator := numerator + if 0 < numerator then dt.tdiv 2 else -dt.tdiv 2
  p₀.offset + numerator.tdiv dt

/-- `FindTimestamps`, after the first point. -/
def findTimestamps (ta : Int) : Point → List Point → Option (Point × Point)
  | _, [] => none
  | p₀, [p₁] => some (p₀, p₁)
  | p₀, p₁ :: rest => if ta < p₁.time then some (p₀, p₁) else findTimestamps ta p₁ rest

/-- `Offset`, on the values of `timestamp(i)`. -/
def lineOffset (ta : Int) : List Point → Except FilterCheck Int
  | [] => .error .empty
  | p₀ :: rest =>
    let last := rest.getLastD p₀
    -- `IsOutsideSamples`, and then `GetReferenceTimestamp`
    if rest = [] ∨ ta < p₀.time ∨ last.time ≤ ta then
      .ok (extrapolateOffset (if last.time ≤ ta then last else p₀) ta)
    else
      match findTimestamps ta p₀ rest with
      | some (p, q) => .ok (interpolateOffset p q ta)
      | none => .error .empty

namespace SingleFilter

variable (f : SingleFilter)

def offset (ta : Int) : Except FilterCheck Int := lineOffset ta f.points

/-- `FreezeUntil`. Only the times of the points matter. -/
def freezeUntil (nodeMonotonicNow : Int) : Except FilterCheck SingleFilter :=
  if f.frozenTime.any (nodeMonotonicNow < ·) then .ok f
  else
    match f.points.find? (nodeMonotonicNow ≤ ·.time), f.timestamps.getLast? with
    | some p, _ => .ok { f with frozenTime := some p.time }
    | none, none => .ok { f with fullyFrozen := true }
    | none, some back =>
      if back.time < nodeMonotonicNow then .ok { f with fullyFrozen := true } else .error .unreachable

def freezeUntilRemote (remoteMonotonicNow : Int) : Except FilterCheck SingleFilter :=
  match f.points.find? (fun p => remoteMonotonicNow ≤ p.time + p.offset), f.timestamps.getLast? with
  | some p, _ => .ok { f with frozenTime := some (f.frozenTime.elim p.time (max p.time)) }
  | none, none => .ok { f with fullyFrozen := true }
  | none, some back =>
    if back.time + back.offset < remoteMonotonicNow then .ok { f with fullyFrozen := true } else .error .unreachable

def popFront : Except FilterCheck SingleFilter := do
  let p ← f.timestamp 0
  .ok { f with
    frozenTime := some (f.frozenTime.elim p.time (max · p.time))
    timestamps := f.timestamps.tail
    hasPopped := true }

inductive Call where
  | sample (x : Point)
  | freezeUntil (nodeMonotonicNow : Int)
  | freezeUntilRemote (remoteMonotonicNow : Int)
  | popFront
  deriving DecidableEq

/-- `Pop` calls `PopFront` only while there are more than two timestamps. -/
def exec : Call → Except FilterCheck SingleFilter
  | .sample x => f.sample x
  | .freezeUntil now => f.freezeUntil now
  | .freezeUntilRemote now => f.freezeUntilRemote now
  | .popFront => if 2 < f.timestamps.length then f.popFront else .ok f

def run (calls : List Call) : Except FilterCheck SingleFilter := calls.foldlM exec f

end SingleFilter

end RobotCode.Network
