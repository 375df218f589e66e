import RobotCode.Lib.Fallible

/-!
# An application of the starter

`Application` starts a process, watches it and starts it again when it ends. It is driven by the commands it is
given, by its three timers and by `SIGCHLD`, after which the starter calls `MaybeHandleSignal` of every application.

The host is the part of the operating system this depends on, which all applications share: the children that were
forked and not waited for, and what `fork` returned so far. A process id is not given out twice. What the child
writes to its pipe before it gives up is what `Read` finds there, so it is an input of `MaybeHandleSignal`.
-/

namespace RobotCode.Starter

inductive State where
  | waiting
  | starting
  | running
  | stopping
  | stopped
  deriving DecidableEq, Repr

inductive LastStopReason where
  | stopRequested
  | restartRequested
  | terminate
  | forkErr
  | setPrctlErr
  | setUsrErr
  | execvErr
  | setGrpErr
  deriving DecidableEq, Repr

inductive Command where
  | start
  | stop
  | restart
  deriving DecidableEq, Repr

abbrev Pid := Nat

inductive Signal where
  | sigint
  | sigkill
  deriving DecidableEq, Repr

inductive WaitStatus where
  | exited (code : Nat)
  | signaled (signal : Nat)
  deriving DecidableEq, Repr

structure Child where
  owner : String
  pid : Pid
  ended : Option WaitStatus
  deriving DecidableEq, Repr

/-- A timer is the time it expires at, if it is set. -/
structure Application where
  name : String
  pid : Option Pid := none
  exitCode : Nat := 0
  startTime : Int := 0
  exitTime : Int := 0
  queueRestart : Bool := false
  terminating : Bool := false
  status : State := .stopped
  stopReason : LastStopReason := .stopRequested
  startTimer : Option Int := none
  restartTimer : Option Int := none
  stopTimer : Option Int := none
  deriving DecidableEq, Repr

structure Host where
  children : List Child := []
  forks : List (String × Option Pid) := []
  kills : List (Option Pid × Signal) := []
  deriving DecidableEq, Repr

def Host.childrenOf (h : Host) (name : String) : List Child := h.children.filter (·.owner = name)

def Host.forksOf (h : Host) (name : String) : List (Option Pid) := (h.forks.filter (·.1 = name)).map Prod.snd

structure Managed where
  app : Application
  host : Host
  deriving DecidableEq, Repr

inductive Stop where
  /-- `Received signal on process that was already stopped` -/
  | alreadyStopped
  /-- Something that does not happen at this time. -/
  | notNow
  deriving DecidableEq, Repr

def seconds (n : Int) : Int := n * 1000000000

namespace Managed

variable (m : Managed)

def kill (signal : Signal) : Managed :=
  { m with host := { m.host with kills := m.host.kills ++ [(m.app.pid, signal)] } }

/-- `waitpid(pid, …, WNOHANG)`, where a child that ended is gone afterwards. -/
def waitpid (pid : Pid) : Option (WaitStatus × Managed) := do
  let child ← m.host.children.find? (·.pid = pid)
  let status ← child.ended
  some (status, { m with host := { m.host with children := m.host.children.filter (·.pid ≠ pid) } })

def disableRestart : Managed := { m with app := { m.app with restartTimer := none } }

/-- `DoStart` up to `fork`. -/
def disableForStart : Managed :=
  { m with app := { m.app with startTimer := none, restartTimer := none } }

/-- `DoStart` after `fork` returned -1. -/
def forkFailed : Managed :=
  { m with
    app := { m.app with stopReason := .forkErr, status := .stopped }
    host := { m.host with forks := m.host.forks ++ [(m.app.name, none)] } }

/-- `DoStart` after `fork` returned a child. -/
def forked (now : Int) (pid : Pid) : Managed :=
  { m with
    app := { m.app with
      pid := some pid, startTime := now, status := .starting, startTimer := some (now + seconds 1) }
    host := { m.host with
      children := ⟨m.app.name, pid, none⟩ :: m.host.children
      forks := m.host.forks ++ [(m.app.name, some pid)] } }

def doStart (now : Int) (fork : Option Pid) : Except Stop Managed :=
  if m.app.status ≠ .waiting then .ok m
  else
    match fork with
    | none => .ok m.disableForStart.forkFailed
    | some pid =>
      if some pid ∈ m.host.forks.map Prod.snd then .error .notNow else .ok (m.disableForStart.forked now pid)

/-- `DoStop` where it stops a process. -/
def stopProcess (now : Int) (restart : Bool) : Managed :=
  let m := { m with app := { m.app with status := .stopping } }.kill .sigint
  { m with app := { m.app with stopTimer := some (now + seconds 1), queueRestart := restart } }

def setStatus (status : State) : Managed := { m with app := { m.app with status } }

def setQueueRestart (queueRestart : Bool) : Managed := { m with app := { m.app with queueRestart } }

def setStopReason (stopReason : LastStopReason) : Managed := { m with app := { m.app with stopReason } }

def doStop (restart : Bool) (now : Int) (fork : Option Pid) : Except Stop Managed :=
  let m := m.disableForStart
  match m.app.status with
  | .starting | .running => .ok (m.stopProcess now restart)
  | .waiting => if restart then m.doStart now fork else .ok (m.setStatus .stopped)
  | .stopping => .ok (m.setQueueRestart restart)
  | .stopped => if restart then (m.setStatus .waiting).doStart now fork else .ok m

def queueStart (now : Int) : Managed :=
  { m with app := { m.app with
    status := .waiting, restartTimer := some (now + seconds 3), startTimer := none, stopTimer := none } }

def terminate (now : Int) : Except Stop Managed :=
  ((m.setStopReason .terminate).doStop false now none).map fun m =>
    { m with app := { m.app with terminating := true } }

def handleCommand (cmd : Command) (now : Int) (fork : Option Pid) : Except Stop Managed :=
  match cmd with
  | .start =>
    match m.app.status with
    | .waiting => m.disableRestart.doStart now fork
    | .starting => .ok m
    | .running => .ok m
    | .stopping => .ok (m.setQueueRestart true)
    | .stopped => (m.setStatus .waiting).doStart now fork
  | .stop => (m.setStopReason .stopRequested).doStop false now fork
  | .restart => (m.setStopReason .restartRequested).doStop true now fork

/-- The exit that `MaybeHandleSignal` notes down. -/
def noteExit (now : Int) (status : WaitStatus) (readResult : Option LastStopReason) : Managed :=
  { m with app := { m.app with
    exitTime := now
    exitCode := match status with
      | .exited code => code
      | .signaled signal => signal
    stopReason := readResult.getD m.app.stopReason } }

/-- `MaybeHandleSignal` for a process that was being stopped. -/
def processStopped (now : Int) (fork : Option Pid) : Except Stop (Bool × Managed) :=
  let m := { m with app := { m.app with status := .stopped, stopTimer := none } }
  if m.app.terminating then .ok (true, m)
  else if m.app.queueRestart then
    (((m.setQueueRestart false).setStatus .waiting).doStart now fork).map (false, ·)
  else .ok (false, m)

def maybeHandleSignal (now : Int) (readResult : Option LastStopReason) (fork : Option Pid) :
    Except Stop (Bool × Managed) :=
  match m.app.pid.bind m.waitpid with
  | none => .ok (false, m)
  | some (status, m) =>
    let m := m.noteExit now status readResult
    match m.app.status with
    | .starting | .running => .ok (false, m.queueStart now)
    | .stopping => m.processStopped now fork
    | .waiting | .stopped => .error .alreadyStopped

/-- What is called for an application, with the time and with what `fork` returns if that is called. -/
inductive Call where
  | handleCommand (cmd : Command) (now : Int) (fork : Option Pid)
  | terminate (now : Int)
  | startTimer (now : Int)
  | restartTimer (now : Int) (fork : Option Pid)
  | stopTimer (now : Int)
  | maybeHandleSignal (now : Int) (readResult : Option LastStopReason) (fork : Option Pid)
  deriving DecidableEq, Repr

def Expired (timer : Option Int) (now : Int) : Prop := timer.any (· ≤ now)

instance (timer : Option Int) (now : Int) : Decidable (Expired timer now) := inferInstanceAs (Decidable (_ = true))

/-- The callback of `start_timer_`. A timer that expired is no longer set when its callback runs. -/
def onStartTimer : Managed := { m with app := { m.app with startTimer := none, status := .running } }

/-- The callback of `restart_timer_`. -/
def onRestartTimer (now : Int) (fork : Option Pid) : Except Stop Managed :=
  m.disableRestart.doStart now fork

/-- The callback of `stop_timer_`. -/
def onStopTimer : Managed := { m with app := { m.app with stopTimer := none } }.kill .sigkill

/-- The application and its host after a call, and whether the application should be removed. -/
def call : Call → Except Stop (Bool × Managed)
  | .handleCommand cmd now fork => (m.handleCommand cmd now fork).map (false, ·)
  | .terminate now => (m.terminate now).map (false, ·)
  | .startTimer now => if Expired m.app.startTimer now then .ok (false, m.onStartTimer) else .error .notNow
  | .restartTimer now fork =>
    if Expired m.app.restartTimer now then (m.onRestartTimer now fork).map (false, ·) else .error .notNow
  | .stopTimer now => if Expired m.app.stopTimer now then .ok (false, m.onStopTimer) else .error .notNow
  | .maybeHandleSignal now readResult fork => m.maybeHandleSignal now readResult fork

end Managed

structure Applications where
  apps : String → Application
  host : Host
  /-- The applications for which `MaybeHandleSignal` said that they should be removed, in order. -/
  removed : List String

inductive Event where
  | call (name : String) (call : Managed.Call)
  /-- A child ends. -/
  | exits (pid : Pid) (status : WaitStatus)
  deriving DecidableEq, Repr

namespace Applications

def initial : Applications := ⟨fun name => { name }, {}, []⟩

variable (s : Applications)

def exits (pid : Pid) (status : WaitStatus) : Applications :=
  { s with host := { s.host with
    children := s.host.children.map fun c => if c.pid = pid then { c with ended := some status } else c } }

def view (name : String) : Managed := ⟨s.apps name, s.host⟩

def put (name : String) (remove : Bool) (m : Managed) : Applications :=
  ⟨Function.update s.apps name m.app, m.host, if remove then s.removed ++ [name] else s.removed⟩

def step : Event → Except Stop Applications
  | .call name call => ((s.view name).call call).map fun (remove, m) => s.put name remove m
  | .exits pid status =>
    if ∃ c ∈ s.host.children, c.pid = pid ∧ c.ended = none then .ok (s.exits pid status) else .error .notNow

def run (events : List Event) : Except Stop Applications := events.foldlM step s

end Applications

end RobotCode.Starter
