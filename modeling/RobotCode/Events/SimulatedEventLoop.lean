import RobotCode.Events.EventLoop
import RobotCode.IpcLib.Index
import RobotCode.Logging.Message

/-!
# Simulated event loops on one node

The event loops of a node share its scheduler and its channels. Sending on a channel hands the message to every
watcher of the channel whose event loop has run. A watcher keeps its messages in a queue of its own; for the
first of them it has an event in the heap of its event loop and a wakeup with the scheduler. A wakeup of any
handler makes its event loop handle everything in its heap that is not in the future.

User code is arbitrary. It is the tree of the calls it makes, each of which may depend on anything the
simulation shows, which includes all messages sent so far, so fetchers need no state of their own.

The scheduler runs `Handle` of the handler it wakes and `Handle` runs the loop of `HandleEvent`. Both loops are
one transition system here, with `active` for the event loop that is inside `HandleEvent`, and `tick` for one
iteration of either.
-/

namespace RobotCode.Events

open Function

open Logging (minTime maxTime)
open IpcLib (QueueIndex)

variable {δ σ : Type}

inductive Handler where
  | watcher (index : Nat)
  | timer (index : Nat)
  | phasedLoop (index : Nat)
  deriving DecidableEq, Repr

structure NodeConfig where
  sendDelay : Nat
  loop : Handler → Nat
  channel : Nat → Nat
  watchers : Nat → List Nat
  nodup : ∀ c, (watchers c).Nodup
  mem_watchers : ∀ c w, w ∈ watchers c ↔ channel w = c

/-- `SimulatedMessage`, with the fields of its context that the event loops set or read. -/
structure SimulatedMessage (δ : Type) where
  monotonicEventTime : Int
  monotonicRemoteTime : Int
  queueIndex : Nat
  remoteQueueIndex : Nat
  data : δ
  deriving DecidableEq, Repr

/-- The context a watcher is called with: the fields a sender left open are filled in. -/
def SimulatedMessage.context (m : SimulatedMessage δ) : SimulatedMessage δ :=
  { m with
    remoteQueueIndex := if m.remoteQueueIndex = 0xffffffff then m.queueIndex else m.remoteQueueIndex
    monotonicRemoteTime := if m.monotonicRemoteTime = minTime then m.monotonicEventTime else m.monotonicRemoteTime }

structure SimulatedTimer where
  base : Int := 0
  repeatOffset : Nat := 0

structure PhasedLoopHandler where
  phasedLoop : PhasedLoop := {}
  cyclesElapsed : Int := 0

/-- A callback registered with `OnRun`. -/
inductive OnRun where
  | user (index : Nat)
  | phasedLoop (index : Nat)
  deriving DecidableEq, Repr

/-- What happened, for the record. -/
inductive Occurrence (δ : Type) where
  | started (loop : Nat)
  | sent (channel : Nat) (message : SimulatedMessage δ)
  | called (watcher : Nat) (message context : SimulatedMessage δ) (now : Int)
  /-- The event that was handled, out of all those in the heap. -/
  | handled (loop : Nat) (event : QueuedEvent Handler) (events : List (QueuedEvent Handler))

structure Simulation (δ σ : Type) where
  now : Int := 0
  endTime : Int := 0
  isRunning : Bool := false
  active : Option Nat := none
  wakeups : Wakeups Handler := {}
  queues : Nat → EventQueue Handler := fun _ => {}
  eventLoops : List Nat := []
  hasRun : Nat → Bool := fun _ => false
  msgs : Nat → List (SimulatedMessage δ) := fun _ => []
  timers : Nat → SimulatedTimer := fun _ => {}
  phasedLoops : Nat → PhasedLoopHandler := fun _ => {}
  createdPhasedLoops : List Nat := []
  onRun : List OnRun := []
  nextQueueIndex : Nat → QueueIndex
  locals : σ
  trace : List (Occurrence δ) := []

inductive Action (δ : Type) where
  | send (channel : Nat) (data : δ) (monotonicRemoteTime : Int) (remoteQueueIndex : Nat)
  | setupTimer (timer : Nat) (base : Int) (repeatOffset : Nat)
  | disableTimer (timer : Nat)
  | setIntervalAndOffset (phasedLoop : Nat) (interval offset : Int)

/-- User code: the calls it makes, and the state it leaves for later. -/
inductive UserCode (δ σ : Type) where
  | done (locals : σ)
  | act (action : Action δ) (rest : Simulation δ σ → UserCode δ σ)

structure Callbacks (δ σ : Type) where
  watcher : Nat → SimulatedMessage δ → Simulation δ σ → UserCode δ σ
  timer : Nat → Simulation δ σ → UserCode δ σ
  phasedLoop : Nat → Int → Simulation δ σ → UserCode δ σ
  onRun : Nat → Simulation δ σ → UserCode δ σ

namespace Simulation

section Model

variable (cfg : NodeConfig) (callbacks : Callbacks δ σ) (s : Simulation δ σ)

def record (occurrence : Occurrence δ) : Simulation δ σ :=
  { s with trace := s.trace ++ [occurrence] }

def setWakeups (wakeups : Wakeups Handler) : Simulation δ σ := { s with wakeups }

def setQueues (queues : Nat → EventQueue Handler) : Simulation δ σ := { s with queues }

def schedule (s : Simulation δ σ) (time : Int) (handler : Handler) : Simulation δ σ :=
  s.setWakeups (s.wakeups.schedule time handler)

def deschedule (s : Simulation δ σ) (handler : Handler) : Except SimError (Simulation δ σ) := do
  let wakeups ← s.wakeups.deschedule handler
  .ok (s.setWakeups wakeups)

def addEvent (s : Simulation δ σ) (handler : Handler) (eventTime : Int) : Except SimError (Simulation δ σ) := do
  let queue ← (s.queues (cfg.loop handler)).addEvent handler eventTime
  .ok (s.setQueues (update s.queues (cfg.loop handler) queue))

def removeEvent (s : Simulation δ σ) (loop : Nat) (handler : Handler) : Simulation δ σ :=
  s.setQueues (update s.queues loop ((s.queues loop).removeEvent handler))

def doSchedule (watcher : Nat) (eventTime : Int) : Except SimError (Simulation δ σ) :=
  if s.wakeups.token (.watcher watcher) = none then
    .ok (s.schedule (eventTime + cfg.sendDelay) (.watcher watcher))
  else .error .multipleSchedules

def arm (watcher : Nat) (eventTime wakeupTime : Int) : Except SimError (Simulation δ σ) := do
  let s ← s.addEvent cfg (.watcher watcher) eventTime
  s.doSchedule cfg watcher wakeupTime

def setMsgs (watcher : Nat) (msgs : List (SimulatedMessage δ)) : Simulation δ σ :=
  { s with msgs := update s.msgs watcher msgs }

/-- `SimulatedWatcher::Schedule` -/
def scheduleWatcher (watcher : Nat) (message : SimulatedMessage δ) :
    Except SimError (Simulation δ σ) :=
  match s.msgs watcher with
  | [] => do
      let s ← s.arm cfg watcher message.monotonicEventTime s.now
      .ok (s.setMsgs watcher [message])
  | msgs => .ok (s.setMsgs watcher (msgs ++ [message]))

/-- One iteration of the loop of `SimulatedChannel::Send`. -/
def sendTo (message : SimulatedMessage δ) (s : Simulation δ σ) (watcher : Nat) : Except SimError (Simulation δ σ) :=
  if s.hasRun (cfg.loop (.watcher watcher)) then s.scheduleWatcher cfg watcher message else .ok s

/-- `SimulatedSender::DoSend` and `SimulatedChannel::Send` -/
def send (channel : Nat) (data : δ) (monotonicRemoteTime : Int) (remoteQueueIndex : Nat) :
    Except SimError (Simulation δ σ) := do
  let message : SimulatedMessage δ := {
    monotonicEventTime := s.now
    monotonicRemoteTime
    queueIndex := (s.nextQueueIndex channel).index
    remoteQueueIndex
    data }
  let s ← (cfg.watchers channel).foldlM (sendTo cfg message)
    { s with nextQueueIndex := update s.nextQueueIndex channel (s.nextQueueIndex channel).increment }
  .ok (s.record (.sent channel message))

def setTimer (timer : Nat) (base : Int) (repeatOffset : Nat) : Simulation δ σ :=
  { s with timers := update s.timers timer ⟨base, repeatOffset⟩ }

/-- `SimulatedTimerHandler::Disable` -/
def disableTimer (timer : Nat) : Except SimError (Simulation δ σ) :=
  (s.removeEvent (cfg.loop (.timer timer)) (.timer timer)).deschedule (.timer timer)

def armTimer (timer : Nat) (base wakeupTime : Int) (repeatOffset : Nat) :
    Except SimError (Simulation δ σ) :=
  ((s.setTimer timer base repeatOffset).schedule wakeupTime (.timer timer)).addEvent cfg (.timer timer) base

/-- `SimulatedTimerHandler::Setup` -/
def setupTimer (timer : Nat) (base : Int) (repeatOffset : Nat) : Except SimError (Simulation δ σ) := do
  let s ← s.disableTimer cfg timer
  s.armTimer cfg timer base (max base s.now) repeatOffset

/-- `while (base_ <= monotonic_now) base_ += repeat_offset_` -/
def advance (now : Int) (repeatOffset : Nat) (base : Int) : Int :=
  if 0 < repeatOffset ∧ base ≤ now then advance now repeatOffset (base + repeatOffset) else base
termination_by (now + 1 - base).toNat
decreasing_by omega

def setPhasedLoop (index : Nat) (handler : PhasedLoopHandler) : Simulation δ σ :=
  { s with phasedLoops := update s.phasedLoops index handler }

def setIntervalAndOffset (s : Simulation δ σ) (index : Nat) (interval offset : Int) :
    Except SimError (Simulation δ σ) := do
  let phasedLoop ← (s.phasedLoops index).phasedLoop.setIntervalAndOffset interval offset
  .ok (s.setPhasedLoop index { s.phasedLoops index with phasedLoop })

/-- `phased_loop_.sleep_time()` -/
def sleepTime (index : Nat) : Int := (s.phasedLoops index).phasedLoop.lastTime

/-- `cycles_elapsed_ += phased_loop_.Iterate(monotonic_now)` -/
def iterate (s : Simulation δ σ) (index : Nat) : Except SimError (Simulation δ σ) := do
  let (cycles, phasedLoop) ← (s.phasedLoops index).phasedLoop.iterate s.now
  .ok (s.setPhasedLoop index ⟨phasedLoop, (s.phasedLoops index).cyclesElapsed + cycles⟩)

/-- `cycles_elapsed_ = 0` -/
def clearCycles (index : Nat) : Simulation δ σ :=
  s.setPhasedLoop index { s.phasedLoops index with cyclesElapsed := 0 }

/-- `SimulatedPhasedLoopHandler::Schedule`, for the sleep time. -/
def schedulePhasedLoop (index : Nat) : Except SimError (Simulation δ σ) := do
  let s ← s.deschedule (.phasedLoop index)
  (s.schedule (s.sleepTime index) (.phasedLoop index)).addEvent cfg (.phasedLoop index) (s.sleepTime index)

def reschedule (index : Nat) : Except SimError (Simulation δ σ) := do
  let s ← s.iterate index
  s.schedulePhasedLoop cfg index

def act : Action δ → Except SimError (Simulation δ σ)
  | .send channel data monotonicRemoteTime remoteQueueIndex =>
    s.send cfg channel data monotonicRemoteTime remoteQueueIndex
  | .setupTimer timer base repeatOffset => s.setupTimer cfg timer base repeatOffset
  | .disableTimer timer => s.disableTimer cfg timer
  | .setIntervalAndOffset index interval offset => s.setIntervalAndOffset index interval offset

def exec : UserCode δ σ → Simulation δ σ → Except SimError (Simulation δ σ)
  | .done locals, s => .ok { s with locals }
  | .act action rest, s => do
      let s' ← s.act cfg action
      exec (rest s') s'

def rearm (watcher : Nat) : Except SimError (Simulation δ σ) :=
  match s.msgs watcher with
  | [] => .ok s
  | message :: _ => s.arm cfg watcher message.monotonicEventTime message.monotonicEventTime

/-- `SimulatedWatcher::HandleEvent` -/
def handleWatcher (watcher : Nat) : Except SimError (Simulation δ σ) :=
  match s.msgs watcher with
  | [] => .error .noMessages
  | message :: _ => do
      let s := s.record (.called watcher message message.context s.now)
      let s ← s.exec cfg (callbacks.watcher watcher message.context s)
      let s ← (s.setMsgs watcher (s.msgs watcher).tail).deschedule (.watcher watcher)
      s.rearm cfg watcher

def rearmTimer (timer : Nat) : Except SimError (Simulation δ σ) :=
  if (s.timers timer).repeatOffset = 0 then .ok s
  else
    let base := advance s.now (s.timers timer).repeatOffset (s.timers timer).base
    s.armTimer cfg timer base base (s.timers timer).repeatOffset

/-- `SimulatedTimerHandler::HandleEvent` -/
def handleTimer (timer : Nat) : Except SimError (Simulation δ σ) := do
  let s ← s.deschedule (.timer timer)
  let s ← s.rearmTimer cfg timer
  s.exec cfg (callbacks.timer timer s)

/-- `PhasedLoopHandler::Call` up to the end of the callback. -/
def callPhasedLoop (index : Nat) : Except SimError (Simulation δ σ) := do
  let s ← s.iterate index
  s.exec cfg (callbacks.phasedLoop index (s.phasedLoops index).cyclesElapsed s)

/-- The rest of `PhasedLoopHandler::Call`. -/
def finishPhasedLoop (index : Nat) : Except SimError (Simulation δ σ) := do
  let s ← (s.clearCycles index).schedulePhasedLoop cfg index
  if s.now > s.sleepTime index then s.reschedule cfg index else .ok s

/-- `HandleEvent` of a handler. -/
def handle : Handler → Except SimError (Simulation δ σ)
  | .watcher index => s.handleWatcher cfg callbacks index
  | .timer index => s.handleTimer cfg callbacks index
  | .phasedLoop index => do
      let s ← s.callPhasedLoop cfg callbacks index
      s.finishPhasedLoop cfg index

def popEvent (loop : Nat) (event : QueuedEvent Handler) : Simulation δ σ :=
  (s.removeEvent loop event.handler).record (.handled loop event (s.queues loop).events)

/-- One iteration of the loop of `SimulatedEventLoop::HandleEvent`. -/
def handleEvent (loop : Nat) : Except SimError (Simulation δ σ) :=
  match (s.queues loop).peekEvent with
  | none => .ok { s with active := none }
  | some event =>
    if event.eventTime > s.now then .ok { s with active := none }
    else (s.popEvent loop event).handle cfg callbacks event.handler

/-- `Handle` of a handler whose wakeup is taken off the list, up to the loop of `HandleEvent`. -/
def wake (handler : Handler) (rest : List (Multimap.Entry Int Handler)) :
    Except SimError (Simulation δ σ) :=
  if s.wakeups.token handler = none then .error .noToken
  else .ok { s with wakeups := s.wakeups.fire handler rest, active := some (cfg.loop handler) }

/-- The end of `RunFor`. -/
def stop : Simulation δ σ := { s with isRunning := false, now := s.endTime }

/-- One iteration of the loop of `RunFor`. -/
def runNext : Except SimError (Simulation δ σ) :=
  match s.wakeups.eventsList with
  | [] => .ok s.stop
  | x :: rest =>
    if x.key = maxTime ∨ x.key > s.endTime then .ok s.stop
    else if s.now ≤ x.key + 1 then ({ s with now := x.key }).wake cfg x.value rest
    else .error .timeWentBackwards

def tick : Except SimError (Simulation δ σ) :=
  match s.isRunning, s.active with
  | false, _ => .ok s
  | true, some loop => s.handleEvent cfg callbacks loop
  | true, none => s.runNext cfg

/-- `SetIsRunning(true)` of an event loop. -/
def setIsRunning (loop : Nat) : Simulation δ σ :=
  ({ s with hasRun := update s.hasRun loop true }).record (.started loop)

/-- A callback registered with `OnRun`. -/
def runCallback : OnRun → Except SimError (Simulation δ σ)
  | .user index => s.exec cfg (callbacks.onRun index s)
  | .phasedLoop index => do
      let phasedLoop ← (s.phasedLoops index).phasedLoop.reset s.now
      let s ← (s.setPhasedLoop index { s.phasedLoops index with phasedLoop }).reschedule cfg index
      .ok (s.clearCycles index)

/-- The start of `RunFor`. -/
def startRun (duration : Nat) : Except SimError (Simulation δ σ) := do
  let s := s.eventLoops.foldl setIsRunning s
  let s ← s.onRun.foldlM (runCallback cfg callbacks) { s with isRunning := true, endTime := s.now + duration }
  .ok { s with onRun := [] }

def addPhasedLoop (index : Nat) (interval offset : Int) : Except SimError (Simulation δ σ) := do
  let phasedLoop ← PhasedLoop.create interval s.now offset
  .ok { s with
    phasedLoops := update s.phasedLoops index ⟨phasedLoop, 0⟩
    createdPhasedLoops := s.createdPhasedLoops ++ [index]
    onRun := s.onRun ++ [.phasedLoop index] }

/-- What is done between runs, and one iteration of a run. -/
inductive Label (δ σ : Type) where
  | call (code : UserCode δ σ)
  | makeEventLoop (loop : Nat)
  | addPhasedLoop (index : Nat) (interval offset : Int)
  | onRun (index : Nat)
  | runFor (duration : Nat)
  | tick

def step : Label δ σ → Except SimError (Simulation δ σ)
  | .tick => s.tick cfg callbacks
  | .call code => if s.isRunning then .error .alreadyRunning else s.exec cfg code
  | .makeEventLoop loop =>
    if s.isRunning then .error .alreadyRunning else .ok { s with eventLoops := s.eventLoops ++ [loop] }
  | .addPhasedLoop index interval offset =>
    if s.isRunning ∨ index ∈ s.createdPhasedLoops then .error .alreadyRunning
    else s.addPhasedLoop index interval offset
  | .onRun index => if s.isRunning then .error .alreadyRunning else .ok { s with onRun := s.onRun ++ [.user index] }
  | .runFor duration => if s.isRunning then .error .alreadyRunning else s.startRun cfg callbacks duration

end Model

end Simulation

end RobotCode.Events
