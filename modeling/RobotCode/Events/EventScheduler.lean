import RobotCode.Lib.Multimap
import RobotCode.Lib.RunUntil
import RobotCode.Logging.Message

/-!
# The event scheduler of the simulation

Each node of a simulation has an `EventScheduler`, a multimap from monotonic times of the node to events.
The `EventSchedulerScheduler` repeatedly takes the event that is first on the distributed clock, sets the
clock to its time and calls its handler, which may schedule and deschedule events of any node.

A handler is arbitrary code. What the scheduler sees of it is the calls it makes, each with the token it
gets back, and that it keeps state between calls, so `Program` is the tree of those calls.
-/

namespace RobotCode.Events

open Logging (BootTimestamp maxTime)
open Multimap (Entry)

variable {n : Nat} {α σ : Type}

/-- Conversions between the monotonic clocks of the nodes and the distributed clock. -/
structure TimeConverter (n : Nat) where
  toDistributedClock : Fin n → BootTimestamp → Int
  fromDistributedClock : Fin n → Int → Nat → BootTimestamp

/-- The calls a handler makes, and the state it leaves for later handlers. -/
inductive Program (n : Nat) (α σ : Type) where
  | done (locals : σ)
  | schedule (node : Fin n) (time : Int) (callback : α) (rest : Nat → Program n α σ)
  | deschedule (node : Fin n) (token : Nat) (rest : Program n α σ)

/-- The handler of each event, given its node, the distributed time and the state of all handlers. -/
abbrev Handlers (n : Nat) (α σ : Type) : Type := Fin n → α → Int → σ → Program n α σ

inductive SchedulerError where
  /-- `Trying to deschedule an event which is not scheduled` -/
  | notScheduled
  /-- `CHECK(!is_running_)` -/
  | alreadyRunning
  /-- `Simulated time went backwards by too much` -/
  | timeWentBackwards
  /-- `CHECK_GT(events_list_.size(), 0u)` -/
  | noEvents
  /-- `CHECK_EQ(t.boot, boot_count_)` -/
  | wrongBoot
  /-- `Time is wrong on node` -/
  | wrongTime
  /-- A call through the null `min_scheduler`. -/
  | noScheduler
  deriving DecidableEq, Repr

structure EventScheduler (n : Nat) (α σ : Type) where
  bootCount : Nat
  onRun : List (Int → σ → Program n α σ)
  eventsList : List (Entry Int α)

/-- `OldestEvent` of one node: `max_time` stands for no event. -/
def EventScheduler.oldestEvent (scheduler : EventScheduler n α σ) : Int :=
  match scheduler.eventsList with
  | [] => maxTime
  | x :: _ => x.key

structure Event (n : Nat) (α : Type) where
  node : Fin n
  entry : Entry Int α
  deriving DecidableEq

/-- The call of a handler, with everything that was scheduled at that moment. -/
structure Execution (n : Nat) (α : Type) where
  event : Event n α
  pending : List (Event n α)

/-- The scheduler of all nodes. The last three fields record all events scheduled, descheduled and executed. -/
structure EventSchedulerScheduler (n : Nat) (α σ : Type) where
  schedulers : Fin n → EventScheduler n α σ
  now : Int
  isRunning : Bool
  locals : σ
  nextToken : Nat
  scheduled : List (Event n α)
  descheduled : List (Event n α)
  executed : List (Execution n α)

namespace EventSchedulerScheduler

section

variable (s : EventSchedulerScheduler n α σ)

def pending : List (Event n α) :=
  (List.finRange n).flatMap fun node => (s.schedulers node).eventsList.map (Event.mk node)

def setEvents (node : Fin n) (eventsList : List (Entry Int α)) :
    EventSchedulerScheduler n α σ :=
  { s with schedulers := Function.update s.schedulers node { s.schedulers node with eventsList } }

/-- `Schedule`. The token it returns is `nextToken`. -/
def schedule (node : Fin n) (time : Int) (callback : α) :
    EventSchedulerScheduler n α σ :=
  let x : Entry Int α := ⟨time, s.nextToken, callback⟩
  { s.setEvents node (Multimap.insert x (s.schedulers node).eventsList) with
    nextToken := s.nextToken + 1
    scheduled := s.scheduled ++ [⟨node, x⟩] }

def deschedule (node : Fin n) (token : Nat) :
    Except SchedulerError (EventSchedulerScheduler n α σ) :=
  match Multimap.find token (s.schedulers node).eventsList with
  | none => .error .notScheduled
  | some x =>
    .ok { s.setEvents node (Multimap.erase token (s.schedulers node).eventsList) with
      descheduled := s.descheduled ++ [⟨node, x⟩] }

end

/-- Run a handler. -/
def exec : Program n α σ → EventSchedulerScheduler n α σ → Except SchedulerError (EventSchedulerScheduler n α σ)
  | .done locals, s => .ok { s with locals }
  | .schedule node time callback rest, s => exec (rest s.nextToken) (s.schedule node time callback)
  | .deschedule node token rest, s => do
      let s' ← s.deschedule node token
      exec rest s'

section Converter

variable (converter : TimeConverter n) (handle : Handlers n α σ) (s : EventSchedulerScheduler n α σ)

def toDistributedClock (s : EventSchedulerScheduler n α σ) (node : Fin n) (time : Int) : Int :=
  converter.toDistributedClock node ⟨(s.schedulers node).bootCount, time⟩

def fromDistributedClock (s : EventSchedulerScheduler n α σ) (node : Fin n) (time : Int) : BootTimestamp :=
  converter.fromDistributedClock node time (s.schedulers node).bootCount

def olderEvent (best : Int × Option (Fin n)) (node : Fin n) :
    Int × Option (Fin n) :=
  let monotonicEventTime := (s.schedulers node).oldestEvent
  if monotonicEventTime ≠ maxTime ∧ s.toDistributedClock converter node monotonicEventTime < best.1 then
    (s.toDistributedClock converter node monotonicEventTime, some node)
  else best

def oldestEvent : Int × Option (Fin n) :=
  (List.finRange n).foldl (s.olderEvent converter) (maxTime, none)

def pop (node : Fin n) (x : Entry Int α) (rest : List (Entry Int α)) :
    EventSchedulerScheduler n α σ :=
  { s.setEvents node rest with executed := s.executed ++ [⟨⟨node, x⟩, s.pending⟩] }

def callOldestEvent (node : Fin n) :
    Except SchedulerError (EventSchedulerScheduler n α σ) :=
  match (s.schedulers node).eventsList with
  | [] => .error .noEvents
  | x :: rest =>
    let t := s.fromDistributedClock converter node s.now
    if t.boot ≠ (s.schedulers node).bootCount then .error .wrongBoot
    else if t.time ≠ x.key then .error .wrongTime
    else exec (handle node x.value s.now s.locals) (s.pop node x rest)

/-- The body of the loop of `RunFor`, which ends when nothing is due by the end time. -/
def system : RunUntil.System (EventSchedulerScheduler n α σ) Int SchedulerError where
  next s := if (s.oldestEvent converter).1 = maxTime then none else some (s.oldestEvent converter).1
  step s :=
    if s.now ≤ (s.oldestEvent converter).1 + 1 then
      match (s.oldestEvent converter).2 with
      | none => .error .noScheduler
      | some node => callOldestEvent converter handle { s with now := (s.oldestEvent converter).1 } node
    else .error .timeWentBackwards

/-- One iteration of `EventScheduler::RunOnRun`. -/
def runCallback (callback : Int → σ → Program n α σ) :
    Except SchedulerError (EventSchedulerScheduler n α σ) :=
  exec (callback s.now s.locals) s

/-- `on_run_.clear()` -/
def clearOnRun (node : Fin n) : EventSchedulerScheduler n α σ :=
  { s with schedulers := Function.update s.schedulers node { s.schedulers node with onRun := [] } }

/-- `EventScheduler::RunOnRun` -/
def runOnRunNode (node : Fin n) : Except SchedulerError (EventSchedulerScheduler n α σ) := do
  let s' ← (s.schedulers node).onRun.foldlM runCallback s
  .ok (s'.clearOnRun node)

def runOnRun : Except SchedulerError (EventSchedulerScheduler n α σ) :=
  if s.isRunning then .error .alreadyRunning
  else (List.finRange n).foldlM runOnRunNode { s with isRunning := true }

/-- The state after the loop of `RunFor`. -/
def stop (endTime : Int) : EventSchedulerScheduler n α σ :=
  { s with isRunning := false, now := endTime }

/-- `RunFor`, `none` for lack of fuel. -/
def runFor (fuel : Nat) (duration : Int) (s : EventSchedulerScheduler n α σ) :
    Option (Except SchedulerError (EventSchedulerScheduler n α σ)) :=
  match s.runOnRun with
  | .error e => some (.error e)
  | .ok s₁ => (RunUntil.run (system converter handle) (s.now + duration) fuel s₁).map
      (·.map (·.stop (s.now + duration)))

/-- `RunFor` returns with the result `r`. -/
def RunsFor (duration : Int) (s : EventSchedulerScheduler n α σ)
    (r : Except SchedulerError (EventSchedulerScheduler n α σ)) : Prop :=
  ∃ fuel, runFor converter handle fuel duration s = some r

end Converter

def create (bootCount : Fin n → Nat) (onRun : Fin n → List (Int → σ → Program n α σ)) (now : Int) (locals : σ) :
    EventSchedulerScheduler n α σ where
  schedulers node := ⟨bootCount node, onRun node, []⟩
  now := now
  isRunning := false
  locals := locals
  nextToken := 0
  scheduled := []
  descheduled := []
  executed := []

def scheduleAll (events : List (Fin n × Int × α)) (s : EventSchedulerScheduler n α σ) :
    EventSchedulerScheduler n α σ :=
  events.foldl (fun s event => s.schedule event.1 event.2.1 event.2.2) s

section Frame

variable {s s' : EventSchedulerScheduler n α σ} {node : Fin n} {eventsList rest : List (Entry Int α)}
  {x : Entry Int α}

theorem setEvents_eventsList (k : Fin n) : ((s.setEvents node eventsList).schedulers k).eventsList =
    if k = node then eventsList else (s.schedulers k).eventsList := by
  simp only [setEvents, Function.update_apply]
  split <;> rfl

@[simp] theorem setEvents_bootCount (k : Fin n) :
    ((s.setEvents node eventsList).schedulers k).bootCount = (s.schedulers k).bootCount := by
  simp only [setEvents, Function.update_apply]
  split
  · rename_i hk
    rw [hk]
  · rfl

@[simp] theorem setEvents_onRun (k : Fin n) :
    ((s.setEvents node eventsList).schedulers k).onRun = (s.schedulers k).onRun := by
  simp only [setEvents, Function.update_apply]
  split
  · rename_i hk
    rw [hk]
  · rfl

@[simp] theorem clearOnRun_eventsList (k : Fin n) :
    ((s.clearOnRun node).schedulers k).eventsList = (s.schedulers k).eventsList := by
  simp only [clearOnRun, Function.update_apply]
  split
  · rename_i hk
    rw [hk]
  · rfl

@[simp] theorem clearOnRun_bootCount (k : Fin n) :
    ((s.clearOnRun node).schedulers k).bootCount = (s.schedulers k).bootCount := by
  simp only [clearOnRun, Function.update_apply]
  split
  · rename_i hk
    rw [hk]
  · rfl

theorem clearOnRun_onRun (k : Fin n) :
    ((s.clearOnRun node).schedulers k).onRun = if k = node then [] else (s.schedulers k).onRun := by
  simp only [clearOnRun, Function.update_apply]
  split <;> rfl

theorem clearOnRun_of_nil (h : (s.schedulers node).onRun = []) : s.clearOnRun node = s := by
  have hsame : ({ s.schedulers node with onRun := [] } : EventScheduler n α σ) = s.schedulers node := by rw [← h]
  rw [clearOnRun, hsame, Function.update_eq_self]

/-- What a handler cannot change. -/
structure Frame (s s' : EventSchedulerScheduler n α σ) : Prop where
  now : s'.now = s.now
  isRunning : s'.isRunning = s.isRunning
  executed : s'.executed = s.executed
  bootCount : ∀ k, (s'.schedulers k).bootCount = (s.schedulers k).bootCount
  onRun : ∀ k, (s'.schedulers k).onRun = (s.schedulers k).onRun

theorem Frame.refl (s : EventSchedulerScheduler n α σ) : Frame s s := by constructor <;> simp

theorem Frame.trans {s'' : EventSchedulerScheduler n α σ} (h : Frame s s') (h' : Frame s' s'') : Frame s s'' where
  now := h'.now.trans h.now
  isRunning := h'.isRunning.trans h.isRunning
  executed := h'.executed.trans h.executed
  bootCount k := (h'.bootCount k).trans (h.bootCount k)
  onRun k := (h'.onRun k).trans (h.onRun k)

theorem frame_schedule (s : EventSchedulerScheduler n α σ) (node : Fin n) (time : Int) (callback : α) :
    Frame s (s.schedule node time callback) := by
  constructor <;> simp [schedule] <;> rfl

theorem deschedule_eq_ok {token : Nat} (h : s.deschedule node token = .ok s') :
    ∃ x, Multimap.find token (s.schedulers node).eventsList = some x ∧
      s' = { s.setEvents node (Multimap.erase token (s.schedulers node).eventsList) with
        descheduled := s.descheduled ++ [⟨node, x⟩] } := by
  unfold deschedule at h
  split at h
  · cases h
  · rename_i x hx
    cases h
    exact ⟨x, hx, rfl⟩

theorem frame_deschedule {token : Nat} (h : s.deschedule node token = .ok s') : Frame s s' := by
  obtain ⟨x, _, rfl⟩ := deschedule_eq_ok h
  constructor <;> simp <;> rfl

theorem frame_exec (program : Program n α σ) (h : exec program s = .ok s') : Frame s s' := by
  induction program generalizing s with
  | done locals =>
    cases h
    constructor <;> simp
  | schedule node time callback rest ih => exact (frame_schedule _ node time callback).trans (ih _ h)
  | deschedule node token rest ih =>
    obtain ⟨t, ht, hrest⟩ := Fallible.bind_eq_ok.mp h
    exact (frame_deschedule ht).trans (ih hrest)

end Frame

end EventSchedulerScheduler

end RobotCode.Events
