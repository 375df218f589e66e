import RobotCode.Lib.Rounding
import RobotCode.Logging.BootTimestamp

/-!
# The interpolated time converter

`InterpolatedTimeConverter` converts between the monotonic clock of each node and one distributed clock. It
interpolates between points that hold a time on each of these clocks. `NextTimestamp` provides the points, one
by one, and they are queued when a conversion needs them and forgotten when time has passed far enough.
`MultiNodeNoncausalOffsetEstimator::NextTimestamp` makes them from the solutions of the time estimation.
-/

namespace RobotCode.Network

open Logging Rounding

/-- A sample of the distributed clock and a corresponding point on every monotonic clock. -/
@[ext] structure TimePoint (n : Nat) where
  distributed : Int
  nodes : Fin n → BootTimestamp

instance {n : Nat} : DecidableEq (TimePoint n) := fun _ _ => decidable_of_iff _ TimePoint.ext_iff.symm

/-- The `CHECK`s of the converter and of the estimator. -/
inductive TimeCheck where
  /-- The first point is not of the first boot. -/
  | firstBoot
  /-- Found no times to do timestamp estimation. -/
  | noTimes
  /-- We have forgotten the relevant points already. -/
  | forgotten
  /-- The boot asked for is not the one found. -/
  | boot
  /-- Two points at the same time. -/
  | slope
  /-- Found a solution before the last returned solution. -/
  | solutionBefore
  /-- Times can't be compared. -/
  | notComparable
  /-- No node to take the elapsed time from. -/
  | noElapsedTime
  deriving DecidableEq, Repr

/-- The converter. The points that `NextTimestamp` is going to return are part of the state. -/
@[ext] structure Converter (n : Nat) where
  times : List (TimePoint n)
  upcoming : List (TimePoint n)
  havePopped : Bool
  atEnd : Bool
  timeEstimationBuffer : Int

instance {n : Nat} : DecidableEq (Converter n) := fun _ _ => decidable_of_iff _ Converter.ext_iff.symm

def kHistoryMinCount : Nat := 500

variable {n : Nat}

/-- The segment that a search from the back stops at. A segment is accepted if its first point is, and the very
first one in any case. -/
def lastSegment (accepts : TimePoint n → Bool) : List (TimePoint n) → Option (TimePoint n × TimePoint n)
  | p :: q :: rest => (lastSegment accepts (q :: rest)).orElse fun _ => if accepts p then some (p, q) else none
  | _ => none

def findSegment (accepts : TimePoint n → Bool) (p q : TimePoint n) (rest : List (TimePoint n)) :
    TimePoint n × TimePoint n :=
  (lastSegment accepts (q :: rest)).getD (p, q)

/-- The free function `ToDistributedClock`. -/
def interpolate (d₀ d₁ t₀ t₁ time : Int) : Except TimeCheck Int :=
  if t₁ - t₀ = 0 then .error .slope else .ok (d₀ + roundDiv ((time - t₀) * (d₁ - d₀)) (t₁ - t₀))

/-- `ToDistributedClock` on a segment. -/
def toDistributedBetween (node : Fin n) (time : BootTimestamp) (p q : TimePoint n) : Except TimeCheck Int :=
  let t₀ := p.nodes node
  let t₁ := q.nodes node
  if t₁ < time then .ok (time.time - t₁.time + q.distributed)
  else if t₀.boot ≠ t₁.boot then
    if t₀.boot = time.boot then .ok (time.time - t₀.time + p.distributed)
    else if t₁.boot = time.boot then .ok (time.time - t₁.time + q.distributed)
    else .error .boot
  else interpolate p.distributed q.distributed t₀.time t₁.time time.time

/-- `ToDistributedClock` at the first point. -/
def toDistributedAtFirst (node : Fin n) (time : BootTimestamp) (p : TimePoint n) : Except TimeCheck Int :=
  if time.boot = (p.nodes node).boot then .ok (time.time - (p.nodes node).time + p.distributed)
  else .error .boot

/-- `ToDistributedClock`, with enough points queued. -/
def toDistributedIn (node : Fin n) (time : BootTimestamp) (havePopped : Bool) :
    List (TimePoint n) → Except TimeCheck Int
  | [] => .error .noTimes
  | p :: rest =>
    if time < p.nodes node then
      if havePopped then .error .forgotten else toDistributedAtFirst node time p
    else
      match rest with
      | [] => toDistributedAtFirst node time p
      | q :: rest =>
        let (p, q) := findSegment (fun p => decide (p.nodes node ≤ time)) p q rest
        toDistributedBetween node time p q

/-- `FromDistributedClock` on a segment. -/
def fromDistributedBetween (node : Fin n) (time : Int) (bootCount : Nat) (p q : TimePoint n) :
    Except TimeCheck BootTimestamp :=
  let t₀ := p.nodes node
  let t₁ := q.nodes node
  if time = q.distributed then
    if bootCount = t₁.boot then .ok (t₁.add (time - q.distributed))
    else if bootCount = t₀.boot then .ok (t₀.add (time - p.distributed))
    else .error .boot
  else if q.distributed < time then .ok (t₁.add (time - q.distributed))
  else if t₀.boot ≠ t₁.boot then .ok (t₀.add (time - p.distributed))
  else if q.distributed - p.distributed = 0 then .error .slope
  else .ok ⟨t₀.boot, t₀.time + roundDiv ((time - p.distributed) * (t₁.time - t₀.time)) (q.distributed - p.distributed)⟩

/-- `FromDistributedClock`, with enough points queued. -/
def fromDistributedIn (node : Fin n) (time : Int) (bootCount : Nat) (havePopped : Bool) :
    List (TimePoint n) → Except TimeCheck BootTimestamp
  | [] => .error .noTimes
  | p :: rest =>
    let atFirst := ⟨(p.nodes node).boot, time - p.distributed + (p.nodes node).time⟩
    if time < p.distributed then
      if havePopped then .error .forgotten else .ok atFirst
    else
      match rest with
      | [] => .ok atFirst
      | q :: rest =>
        let (p, q) := findSegment (fun p => decide (p.distributed < time)) p q rest
        fromDistributedBetween node time bootCount p q

namespace Converter

variable (c : Converter n)

def start (timeEstimationBuffer : Int) (points : List (TimePoint n)) : Converter n :=
  ⟨[], points, false, false, timeEstimationBuffer⟩

def queueNextTimestamp : Except TimeCheck (Converter n) :=
  match c.upcoming with
  | [] => .ok { c with atEnd := true }
  | next :: upcoming =>
    if c.times = [] ∧ ¬ ∀ node, (next.nodes node).boot = 0 then .error .firstBoot
    else .ok { c with times := c.times ++ [next], upcoming := upcoming }

def remaining : Nat := 2 * c.upcoming.length + if c.atEnd then 0 else 1

theorem remaining_lt {c c' : Converter n} (h : c.queueNextTimestamp = .ok c') (hend : ¬ c.atEnd) :
    c'.remaining < c.remaining := by
  rw [queueNextTimestamp] at h
  split at h
  · next hupcoming =>
    cases h
    simp [remaining, hupcoming, hend]
  · next next upcoming hupcoming =>
    split at h
    · cases h
    · cases h
      simp [remaining, hupcoming, hend]

def queueUntil (notDone : TimePoint n → Bool) (c : Converter n) : Except TimeCheck (Converter n) :=
  if _hloop : ¬ c.atEnd ∧ c.times.getLast?.all notDone then
    match _hnext : c.queueNextTimestamp with
    | .error e => .error e
    | .ok c' => queueUntil notDone c'
  else if c.times = [] then .error .noTimes
  else .ok c
termination_by c.remaining
decreasing_by exact remaining_lt _hnext _hloop.1

/-- `QueueNextTimestamp` until there is none left. -/
def queueAll (c : Converter n) : Except TimeCheck (Converter n) :=
  if _hloop : ¬ c.atEnd then
    match _hnext : c.queueNextTimestamp with
    | .error e => .error e
    | .ok c' => queueAll c'
  else .ok c
termination_by c.remaining
decreasing_by exact remaining_lt _hnext _hloop

def toDistributedClock (node : Fin n) (time : BootTimestamp) : Except TimeCheck (Int × Converter n) :=
  -- with one node time estimation makes no sense
  if n = 1 then .ok (time.time, c)
  else do
    let c ← c.queueUntil fun p => decide (p.nodes node < time)
    let result ← toDistributedIn node time c.havePopped c.times
    .ok (result, c)

def fromDistributedClock (node : Fin n) (time : Int) (bootCount : Nat) :
    Except TimeCheck (BootTimestamp × Converter n) :=
  if n = 1 then .ok (BootTimestamp.epoch.add time, c)
  else do
    let c ← c.queueUntil fun p => decide (p.distributed < time)
    let result ← fromDistributedIn node time bootCount c.havePopped c.times
    .ok (result, c)

/-- The points that are left when `time` has passed. -/
def popPassed (time timeEstimationBuffer : Int) : List (TimePoint n) → List (TimePoint n)
  | p :: q :: rest =>
    if (p :: q :: rest).length < kHistoryMinCount ∨ time < q.distributed + timeEstimationBuffer then p :: q :: rest
    else popPassed time timeEstimationBuffer (q :: rest)
  | times => times

def observeTimePassed (time : Int) : Converter n :=
  let times := popPassed time c.timeEstimationBuffer c.times
  { c with times := times, havePopped := c.havePopped || times.length < c.times.length }

inductive Query (n : Nat) where
  | toDistributed (node : Fin n) (time : BootTimestamp)
  | fromDistributed (node : Fin n) (time : Int) (bootCount : Nat)

def ask : Query n → Except TimeCheck ((Int ⊕ BootTimestamp) × Converter n)
  | .toDistributed node time => do
      let (result, c) ← c.toDistributedClock node time
      .ok (.inl result, c)
  | .fromDistributed node time bootCount => do
      let (result, c) ← c.fromDistributedClock node time bootCount
      .ok (.inr result, c)

def answer (q : Query n) : Except TimeCheck (Int ⊕ BootTimestamp) := (c.ask q).map Prod.fst

inductive Call (n : Nat) where
  | ask (q : Query n)
  | observeTimePassed (time : Int)

def exec : Call n → Except TimeCheck (Converter n)
  | .ask q => (c.ask q).map Prod.snd
  | .observeTimePassed time => .ok (c.observeTimePassed time)

def run (calls : List (Call n)) : Except TimeCheck (Converter n) := calls.foldlM exec c

end Converter

inductive TimeComparison where
  | before
  | after
  | invalid
  | eq
  deriving DecidableEq, Repr

/-- The flags of `CompareTimes`. -/
structure Comparison where
  isLess : Bool
  isGreater : Bool
  isEq : Bool
  someEq : Bool

section Times

variable (ta tb : Fin n → BootTimestamp)

/-- A node counts where both times are known and of the same boot. -/
def Comparable (i : Fin n) : Prop :=
  ta i ≠ .minTime ∧ tb i ≠ .minTime ∧ (ta i).boot = (tb i).boot

instance (i : Fin n) : Decidable (Comparable ta tb i) := inferInstanceAs (Decidable (_ ∧ _))

def Comparison.step (s : Comparison) (i : Fin n) : Comparison :=
  if ¬ Comparable ta tb i then s
  else if (ta i).time < (tb i).time then { s with isLess := true, isEq := false }
  else if (tb i).time < (ta i).time then { s with isGreater := true, isEq := false }
  else { s with someEq := true }

def compareTimes : TimeComparison :=
  if n = 0 then .invalid
  else
    let s := (List.finRange n).foldl (Comparison.step ta tb) ⟨false, false, true, false⟩
    if s.isEq then .eq
    else if s.someEq then .invalid
    else if s.isLess && !s.isGreater then .before
    else if !s.isLess && s.isGreater then .after
    else .invalid

/-- `MaxElapsedTime`, `none` before the first comparable node. -/
def elapsedStep (dt : Option Int) (i : Fin n) : Option Int :=
  if ¬ Comparable ta tb i then dt
  else
    let dti := (tb i).time - (ta i).time
    match dt with
    | none => some dti
    | some dt => if dt < dti then some dti else some dt

def maxElapsedTime : Except TimeCheck Int :=
  match (List.finRange n).foldl (elapsedStep ta tb) none with
  | some dt => .ok dt
  | none => .error .noElapsedTime

def invalidDistance : Except TimeCheck Int :=
  let sum := (List.finRange n).foldl
    (fun sum i => if Comparable ta tb i then sum + ((ta i).time - (tb i).time) else sum) 0
  if sum < 0 then maxElapsedTime tb ta else maxElapsedTime ta tb

end Times

/-- `MultiNodeNoncausalOffsetEstimator`, as far as `NextTimestamp` keeps it between calls. -/
@[ext] structure Estimator (n : Nat) where
  lastDistributed : Int
  lastMonotonics : Fin n → BootTimestamp
  firstSolution : Bool
  maxInvalidDistance : Int

instance {n : Nat} : DecidableEq (Estimator n) := fun _ _ => decidable_of_iff _ Estimator.ext_iff.symm

namespace Estimator

def start (n : Nat) (maxInvalidDistance : Int) : Estimator n := ⟨0, fun _ => .epoch, true, maxInvalidDistance⟩

/-- The end of `NextTimestamp`: the distributed clock moves by the maximum elapsed time. -/
def advance (e : Estimator n) (resultTimes : Fin n → BootTimestamp) : Except TimeCheck (TimePoint n × Estimator n) := do
  let dt ← maxElapsedTime e.lastMonotonics resultTimes
  let distributed := e.lastDistributed + dt
  -- an unknown node moves along with the distributed clock
  let monotonics := fun i => if resultTimes i = .minTime then (e.lastMonotonics i).add dt else resultTimes i
  .ok (⟨distributed, monotonics⟩, { e with lastDistributed := distributed, lastMonotonics := monotonics, firstSolution := false })

/-- `NextTimestamp`, on what `NextSolution` is going to return. -/
def nextTimestamp (e : Estimator n) : List (Fin n → BootTimestamp) →
    Except TimeCheck (Option (TimePoint n × Estimator n × List (Fin n → BootTimestamp)))
  | [] =>
    -- if there is no solution at all, everything is on the distributed clock
    if e.firstSolution then .ok (some (⟨0, fun _ => .epoch⟩, { e with firstSolution := false }, [])) else .ok none
  | resultTimes :: solutions =>
    if e.firstSolution then do
      let (p, e) ← e.advance fun i => if resultTimes i = .minTime then .epoch else resultTimes i
      .ok (some (p, e, solutions))
    else
      match compareTimes e.lastMonotonics resultTimes with
      | .before => do
          let (p, e) ← e.advance resultTimes
          .ok (some (p, e, solutions))
      | .after => .error .solutionBefore
      | .eq => nextTimestamp e solutions
      | .invalid => do
          let distance ← invalidDistance e.lastMonotonics resultTimes
          if distance < e.maxInvalidDistance then nextTimestamp e solutions else .error .notComparable

inductive Emits : Estimator n → List (Fin n → BootTimestamp) → List (TimePoint n) → Prop
  | done {e solutions} : Emits e solutions []
  | next {e solutions points} (p : TimePoint n) (e' : Estimator n) (solutions' : List (Fin n → BootTimestamp))
      (hnext : e.nextTimestamp solutions = .ok (some (p, e', solutions'))) (hrest : Emits e' solutions' points) :
      Emits e solutions (p :: points)

end Estimator

end RobotCode.Network
