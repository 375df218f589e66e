import RobotCode.Lib.Fallible
import RobotCode.Lib.Transition
import RobotCode.IpcLib.Index

/-!
# Forwarding a channel to another node

`RawMessageDelayer` forwards one channel to one node. Its fetcher has the messages of the source node, its timer on
the destination node sends the one that was fetched last, and `sent_` says whether that has happened. A watcher of
the channel on the source node calls `Schedule` for every message, which fetches the next message unless the timer
is set already.

The nodes' clocks are related through the distributed clock, which is the time of the whole simulation. The
watcher of the bridge is called for each message at some time within `sendDelay` of its event time.
-/

namespace RobotCode.Events

open List Transition.Run

open IpcLib (QueueIndex)
open Fallible (Ends)

/-- The clock of a node. The scheduler checks `from_to` for every event it calls. -/
structure NodeClock where
  toDistributed : Int → Int
  fromDistributed : Int → Int
  to_mono : Monotone toDistributed
  from_mono : Monotone fromDistributed
  from_to : ∀ t, fromDistributed (toDistributed t) = t

structure Connection where
  fetchNode : NodeClock
  sendNode : NodeClock
  networkDelay : Int
  sendDelay : Int
  timeToLive : Nat
  queueSize : Nat
  networkDelay_pos : 0 < networkDelay
  sendDelay_pos : 0 < sendDelay

variable {δ : Type}

structure SourceMessage (δ : Type) where
  monotonicEventTime : Int
  queueIndex : Nat
  data : δ
  deriving DecidableEq, Repr

structure ForwardedMessage (δ : Type) where
  monotonicEventTime : Int
  monotonicRemoteTime : Int
  remoteQueueIndex : Nat
  data : δ
  deriving DecidableEq, Repr

def ForwardedMessage.remote (m : ForwardedMessage δ) : SourceMessage δ :=
  ⟨m.monotonicRemoteTime, m.remoteQueueIndex, m.data⟩

inductive BridgeError where
  /-- `Got behind` -/
  | gotBehind
  /-- `Trying to deliver message in the past` -/
  | deliverInPast
  /-- `CHECK(!timer_scheduled_)` -/
  | timerScheduled
  /-- Something that does not happen at this time. -/
  | notNow
  deriving DecidableEq, Repr

/-- The channel on the source node, its fetcher and the rest of the delayer, and the simulation around them. -/
structure RawMessageDelayer (δ : Type) where
  now : Int
  isRunning : Bool := false
  connected : Bool := true
  nextQueueIndex : QueueIndex
  latestMessage : Option (SourceMessage δ) := none
  unwatched : List (SourceMessage δ) := []
  msgs : List (SourceMessage δ) := []
  fellBehind : Bool := false
  context : Option (SourceMessage δ) := none
  sent : Bool := false
  timerScheduled : Bool := false
  timer : Option Int := none
  sentPackets : Nat := 0
  droppedPackets : Nat := 0
  receivedPackets : Nat := 0
  history : List (SourceMessage δ) := []
  forwarded : List (ForwardedMessage δ) := []

namespace RawMessageDelayer

section Model

variable (cfg : Connection) (s : RawMessageDelayer δ)

/-- `fetch_node_factory_->monotonic_now()` -/
def fetchNow : Int := cfg.fetchNode.fromDistributed s.now

/-- `send_node_factory_->monotonic_now()` -/
def sendNow : Int := cfg.sendNode.fromDistributed s.now

def deliveredTime (time : Int) : Int :=
  cfg.sendNode.fromDistributed (cfg.fetchNode.toDistributed time + cfg.networkDelay + cfg.sendDelay)

def enqueue (message : SourceMessage δ) : RawMessageDelayer δ :=
  if s.fellBehind ∨ (s.msgs ++ [message]).length > cfg.queueSize then
    { s with msgs := [message], fellBehind := true }
  else { s with msgs := s.msgs ++ [message] }

/-- `DoFetch` -/
def fetch : Bool × RawMessageDelayer δ :=
  match s.msgs.getLast? with
  | some message => (true, { s with context := some message, msgs := [], fellBehind := false })
  | none =>
    match s.context, s.latestMessage with
    | none, some message => (true, { s with context := some message })
    | _, _ => (false, s)

def inFuture (message : SourceMessage δ) : Bool :=
  message.monotonicEventTime + cfg.networkDelay + cfg.sendDelay > s.fetchNow cfg ∨ cfg.timeToLive = 0

/-- `fetcher_->FetchNext()` found nothing. -/
def exhaust : RawMessageDelayer δ := { s with msgs := [], sent := true }

/-- `fetcher_->FetchNext()` found a message. -/
def load (message : SourceMessage δ) (rest : List (SourceMessage δ)) : RawMessageDelayer δ :=
  { s with msgs := rest, context := some message, sent := false }

def drop : RawMessageDelayer δ :=
  { s with sent := true, droppedPackets := s.droppedPackets + 1 }

/-- The loop of `FetchNext`, from where the next message is fetched. -/
def fetchLoop (s : RawMessageDelayer δ) : List (SourceMessage δ) → Except BridgeError (RawMessageDelayer δ)
  | [] => .ok s.exhaust
  | message :: rest =>
    if s.fellBehind then .error .gotBehind
    else if s.connected ∧ s.inFuture cfg message then .ok (s.load message rest)
    else fetchLoop (s.load message rest).drop rest

def fetchNext : Except BridgeError (RawMessageDelayer δ) :=
  match s.context with
  | none => s.fetchLoop cfg s.msgs
  | some message =>
    if s.sent then s.fetchLoop cfg s.msgs
    else if s.connected ∧ s.inFuture cfg message then .ok s
    else s.drop.fetchLoop cfg s.msgs

/-- `timer_->Setup(time)` -/
def arm (time : Int) : RawMessageDelayer δ :=
  { s with sentPackets := s.sentPackets + 1, timer := some time, timerScheduled := true }

/-- Setting the timer, unless there is nothing to send. -/
def setup (delivered : SourceMessage δ → Int) : Except BridgeError (RawMessageDelayer δ) :=
  match s.context with
  | none => .ok s
  | some message =>
    if s.sent then .ok s
    else if delivered message ≥ s.sendNow cfg then .ok (s.arm (delivered message))
    else .error .deliverInPast

def schedule : Except BridgeError (RawMessageDelayer δ) :=
  if s.timerScheduled then .ok s
  else do
    let s ← s.fetchNext cfg
    s.setup cfg fun message => deliveredTime cfg message.monotonicEventTime

def setSent : RawMessageDelayer δ := { s with sent := true }

/-- `if (data == nullptr || sent_) sent_ = !fetcher_->Fetch()` -/
def fetchLatest : RawMessageDelayer δ :=
  if s.context = none ∨ s.sent then
    let (found, s') := s.fetch
    if found then { s' with sent := false } else s'.setSent
  else s

def scheduleReliable : Except BridgeError (RawMessageDelayer δ) := do
  let s ← s.fetchLatest.fetchNext cfg
  if s.context = none ∨ s.sent then .ok s
  else if s.timerScheduled then .error .timerScheduled
  else s.setup cfg fun _ => s.sendNow cfg + cfg.networkDelay

def disarm : RawMessageDelayer δ :=
  { s with timer := none, timerScheduled := false }

/-- `sender_->Send` -/
def forward (message : SourceMessage δ) : RawMessageDelayer δ :=
  { s with
    receivedPackets := s.receivedPackets + 1
    forwarded := s.forwarded ++ [⟨s.sendNow cfg, message.monotonicEventTime, message.queueIndex, message.data⟩] }

def send : Except BridgeError (RawMessageDelayer δ) :=
  if s.connected then
    match s.context with
    | none => .error .notNow
    | some message => (s.disarm.forward cfg message).setSent.schedule cfg
  else s.disarm.setSent.schedule cfg

def nextMessage (data : δ) : SourceMessage δ :=
  ⟨s.fetchNow cfg, s.nextQueueIndex.index, data⟩

/-- `SimulatedChannel::Send` up to the fetchers. -/
def publish (message : SourceMessage δ) : RawMessageDelayer δ :=
  { s with
    nextQueueIndex := s.nextQueueIndex.increment
    latestMessage := some message
    unwatched := s.unwatched ++ [message]
    history := s.history ++ [message] }

/-- `SimulatedChannel::Send` on the source node. -/
def sendOnSource (data : δ) : RawMessageDelayer δ :=
  (s.publish (s.nextMessage cfg data)).enqueue cfg (s.nextMessage cfg data)

def setUnwatched (unwatched : List (SourceMessage δ)) : RawMessageDelayer δ :=
  { s with unwatched }

def setIsRunning : RawMessageDelayer δ := { s with isRunning := true }

def callWatcher : Except BridgeError (RawMessageDelayer δ) :=
  match s.isRunning, s.unwatched with
  | true, message :: rest =>
    if message.monotonicEventTime ≤ s.fetchNow cfg ∧ s.fetchNow cfg ≤ message.monotonicEventTime + cfg.sendDelay
    then (s.setUnwatched rest).schedule cfg
    else .error .notNow
  | _, _ => .error .notNow

def passTime (now : Int) : Except BridgeError (RawMessageDelayer δ) :=
  if s.isRunning ∧ s.now ≤ now ∧
      (∀ message ∈ s.unwatched, cfg.fetchNode.fromDistributed now ≤ message.monotonicEventTime + cfg.sendDelay) ∧
      (∀ time ∈ s.timer, cfg.sendNode.fromDistributed now ≤ time) then .ok { s with now }
  else .error .notNow

inductive Label (δ : Type) where
  /-- A sender on the source node sends. -/
  | send (data : δ)
  | watch
  /-- The timer on the destination node goes off. -/
  | fire
  /-- `OnRun` of the destination node, before anything else runs. -/
  | onRun
  | connection (connected : Bool)
  | advance (now : Int)

def step : Label δ → Except BridgeError (RawMessageDelayer δ)
  | .send data => .ok (s.sendOnSource cfg data)
  | .connection connected => .ok { s with connected }
  | .watch => s.callWatcher cfg
  | .fire => if s.isRunning ∧ s.timer = some (s.sendNow cfg) then s.send cfg else .error .notNow
  | .onRun =>
    if s.isRunning then .error .notNow
    else if cfg.timeToLive = 0 then s.setIsRunning.scheduleReliable cfg
    else .ok s.setIsRunning
  | .advance now => s.passTime cfg now

end Model

section Conditions

variable (cfg : Connection) (s : RawMessageDelayer δ)

/-- A message sent at `time` can still be scheduled when the watcher is called for it. -/
def InTime (time : Int) : Prop :=
  ∀ d, cfg.fetchNode.fromDistributed d ≤ time + cfg.sendDelay → cfg.sendNode.fromDistributed d ≤ deliveredTime cfg time

/-- When a message sent at `time` is delivered, one sent at `time'` is not too old. -/
def Fresh (time time' : Int) : Prop :=
  ∀ d, cfg.sendNode.fromDistributed d = deliveredTime cfg time →
    cfg.fetchNode.fromDistributed d < time' + cfg.networkDelay + cfg.sendDelay

/-- The link stays up; a message is sent in time, fits the fetcher's queue and is not due before a scheduled one; an
unreliable channel's messages are fresh; and at most one message waits for the start. -/
def Allowed : Label δ → Prop
  | .send _ =>
    s.msgs.length < cfg.queueSize ∧ InTime cfg (s.fetchNow cfg) ∧
      (∀ t ∈ s.timer, t ≤ deliveredTime cfg (s.fetchNow cfg)) ∧
      (cfg.timeToLive = 0 ∨ ∀ m ∈ s.history.getLast?, Fresh cfg m.monotonicEventTime (s.fetchNow cfg))
  | .onRun => cfg.timeToLive = 0 → s.history.length ≤ 1
  | .connection connected => connected = true
  | _ => True

end Conditions

variable {cfg : Connection} {s s' : RawMessageDelayer δ}

theorem fetchNext_of_idle (hidle : s.context = none ∨ s.sent = true) : s.fetchNext cfg = s.fetchLoop cfg s.msgs := by
  unfold fetchNext
  split
  · rfl
  · rename_i m hcontext
    exact if_pos (hidle.resolve_left (by rw [hcontext]; exact nofun))

theorem setup_of_sent (hsent : s.sent = true) (delivered : SourceMessage δ → Int) : s.setup cfg delivered = .ok s := by
  unfold setup
  split
  · rfl
  · exact if_pos hsent

theorem schedule_nil (htimer : s.timerScheduled = false) (hidle : s.context = none ∨ s.sent = true)
    (hmsgs : s.msgs = []) : s.schedule cfg = .ok s.exhaust := by
  rw [schedule, htimer, fetchNext_of_idle hidle, hmsgs]
  exact setup_of_sent rfl _

variable {m : SourceMessage δ}

def current (s : RawMessageDelayer δ) : List (SourceMessage δ) := if s.sent then [] else s.context.toList

/-- The timer is set for the fetched message, and all behind it is due later. Without one, the watcher will be called
for whatever is in the fetcher. -/
structure TimerOk (cfg : Connection) (s : RawMessageDelayer δ) : Prop where
  unset : s.timer = none → s.timerScheduled = false ∧ (s.context = none ∨ s.sent = true) ∧ ∀ m ∈ s.msgs, m ∈ s.unwatched
  set : ∀ t, s.timer = some t → s.timerScheduled = true ∧ s.sent = false ∧ s.sendNow cfg ≤ t ∧
    (∃ m, s.context = some m ∧ (cfg.timeToLive ≠ 0 → t = deliveredTime cfg m.monotonicEventTime)) ∧
    ∀ m ∈ s.msgs, t ≤ deliveredTime cfg m.monotonicEventTime

/-- What holds of the messages of the source node. -/
structure Sends (cfg : Connection) (s : RawMessageDelayer δ) : Prop where
  window : ∀ m ∈ s.unwatched,
    m.monotonicEventTime ≤ s.fetchNow cfg ∧ s.fetchNow cfg ≤ m.monotonicEventTime + cfg.sendDelay
  past : ∀ m ∈ s.history, m.monotonicEventTime ≤ s.fetchNow cfg
  sorted : s.history.Pairwise fun m m' => m.monotonicEventTime ≤ m'.monotonicEventTime
  fresh : s.history.IsChain fun m m' => cfg.timeToLive = 0 ∨ Fresh cfg m.monotonicEventTime m'.monotonicEventTime
  inTime : ∀ m ∈ s.history, InTime cfg m.monotonicEventTime

/-- The link is up and nothing was lost. -/
structure Healthy (s : RawMessageDelayer δ) : Prop where
  connected : s.connected = true
  fellBehind : s.fellBehind = false
  dropped : s.droppedPackets = 0

open ForwardedMessage

structure Sound (cfg : Connection) (s : RawMessageDelayer δ) : Prop where
  healthy : Healthy s
  sends : Sends cfg s
  accounted : s.forwarded.map remote ++ s.current ++ s.msgs = s.history
  timer : TimerOk cfg s
  /-- Before the start nothing was fetched. -/
  before : s.isRunning = false →
    s.context = none ∧ s.timer = none ∧ s.forwarded = [] ∧ s.latestMessage = s.history.getLast?

theorem current_of_idle (h : s.context = none ∨ s.sent = true) : s.current = [] := by
  unfold current
  rcases h with h | h
  · rw [h]
    exact ite_self _
  · rw [if_pos h]

open ForwardedMessage

theorem Sound.schedule (hhealthy : Healthy s) (hsends : Sends cfg s) (hrunning : s.isRunning = true)
    (haccounted : s.forwarded.map remote ++ s.msgs = s.history)
    (htimer : s.timer = none ∧ s.timerScheduled = false) (hidle : s.context = none ∨ s.sent = true)
    (hfirst : ∀ m rest, s.msgs = m :: rest →
      s.inFuture cfg m = true ∧ s.sendNow cfg ≤ deliveredTime cfg m.monotonicEventTime) :
    ∃ s', s.schedule cfg = .ok s' ∧ Sound cfg s' := by
  have hnot : ¬ s.isRunning = false := by rw [hrunning]; exact Bool.noConfusion
  cases hmsgs : s.msgs with
  | nil =>
    refine ⟨s.exhaust, schedule_nil htimer.2 hidle hmsgs, { hhealthy with }, { hsends with }, ?_, ?_, ?_⟩
    · rw [hmsgs] at haccounted
      rw [append_assoc]
      exact haccounted
    · constructor
      · exact fun _ => ⟨htimer.2, .inr rfl, nofun⟩
      · intro t ht
        cases htimer.1.symm.trans ht
    · exact fun hstopped => absurd hstopped hnot
  | cons m rest =>
    obtain ⟨hfuture, hnow⟩ := hfirst m rest hmsgs
    have hschedule : s.schedule cfg = .ok ((s.load m rest).arm (deliveredTime cfg m.monotonicEventTime)) := by
      rw [RawMessageDelayer.schedule, htimer.2, fetchNext_of_idle hidle, hmsgs, fetchLoop, hhealthy.fellBehind,
        hhealthy.connected, hfuture]
      exact if_pos hnow
    refine ⟨_, hschedule, { hhealthy with }, { hsends with }, ?_, ?_, ?_⟩
    · rw [hmsgs] at haccounted
      rw [append_assoc]
      exact haccounted
    · refine ⟨nofun, ?_⟩
      rintro t ⟨⟩
      refine ⟨rfl, rfl, hnow, ⟨m, rfl, fun _ => rfl⟩, ?_⟩
      intro m' hm'
      have hsorted := hsends.sorted
      rw [← haccounted, hmsgs, pairwise_append] at hsorted
      have hle := cfg.fetchNode.to_mono ((pairwise_cons.mp hsorted.2.1).1 m' hm')
      exact cfg.sendNode.from_mono (by omega)
    · exact fun hstopped => absurd hstopped hnot

/-! ### Steps -/

theorem inFuture_of_lt
    (h : cfg.timeToLive = 0 ∨ s.fetchNow cfg < m.monotonicEventTime + cfg.networkDelay + cfg.sendDelay) :
    s.inFuture cfg m = true := by
  unfold inFuture
  rw [decide_eq_true_iff]
  exact h.symm

section

variable (h : Sound cfg s)

include h

theorem Sound.watch (hrunning : s.isRunning = true)
    {rest : List (SourceMessage δ)} (hunwatched : s.unwatched = m :: rest) :
    ∃ s', (s.setUnwatched rest).schedule cfg = .ok s' ∧ Sound cfg s' := by
  have hwindow : ∀ m' ∈ rest, m' ∈ s.unwatched := by
    intro m' hm'
    rw [hunwatched]
    exact mem_cons_of_mem _ hm'
  have hsends : Sends cfg (s.setUnwatched rest) :=
    { h.sends with window := fun m' hm' => h.sends.window m' (hwindow m' hm') }
  cases hnone : s.timer with
  | some t =>
    refine ⟨s.setUnwatched rest, if_pos (h.timer.set t hnone).1, { h.healthy with }, hsends, h.accounted, ⟨?_, ?_⟩,
      h.before⟩
    · intro hc
      cases hnone.symm.trans hc
    · exact h.timer.set
  | none =>
    obtain ⟨hscheduled, hidle, hmsgs⟩ := h.timer.unset hnone
    have haccounted := h.accounted
    rw [current_of_idle hidle, append_nil] at haccounted
    refine Sound.schedule { h.healthy with } hsends hrunning haccounted ⟨hnone, hscheduled⟩ hidle ?_
    intro m' rest' hcons
    have hmem : m' ∈ s.msgs := by rw [show s.msgs = m' :: rest' from hcons]; exact mem_cons_self
    have hlate := (h.sends.window m' (hmsgs m' hmem)).2
    have hpos := cfg.networkDelay_pos
    refine ⟨inFuture_of_lt (.inr ?_), h.sends.inTime m' ?_ s.now hlate⟩
    · change s.fetchNow cfg < _
      omega
    · rw [← haccounted]
      exact mem_append_right _ hmem

theorem Sound.fire (hrunning : s.isRunning = true) (hdue : s.timer = some (s.sendNow cfg)) :
    ∃ s', s.send cfg = .ok s' ∧ Sound cfg s' := by
  obtain ⟨-, hsent, -, ⟨m, hcontext, hdelivered⟩, hlater⟩ := h.timer.set _ hdue
  have haccounted : s.forwarded.map remote ++ m :: s.msgs = s.history := by
    rw [← h.accounted, current, hsent, hcontext, append_assoc]
    rfl
  have hsend : s.send cfg = (s.disarm.forward cfg m).setSent.schedule cfg := by
    rw [send, if_pos h.healthy.connected, hcontext]
  rw [hsend]
  refine Sound.schedule { h.healthy with } { h.sends with } hrunning ?_ ⟨rfl, rfl⟩ (.inr rfl) ?_
  · change (s.forwarded ++ [_]).map remote ++ s.msgs = s.history
    rw [map_append, append_assoc]
    exact haccounted
  · intro m' rest hcons
    have hmsgs : s.msgs = m' :: rest := hcons
    refine ⟨inFuture_of_lt ?_, hlater m' (by rw [hmsgs]; exact mem_cons_self)⟩
    have hfresh := h.sends.fresh
    rw [← haccounted, hmsgs, isChain_append_cons_cons] at hfresh
    by_cases hreliable : cfg.timeToLive = 0
    · exact .inl hreliable
    · exact .inr (hfresh.2.1.resolve_left hreliable s.now (hdelivered hreliable))

theorem Sound.sendOnSource {data : δ} (hallowed : Allowed cfg s (.send data)) :
    Sound cfg (s.sendOnSource cfg data) := by
  obtain ⟨hroom, hinTime, hlater, hfresh⟩ := hallowed
  have henqueue : s.sendOnSource cfg data = { s.publish (s.nextMessage cfg data) with
      msgs := s.msgs ++ [s.nextMessage cfg data] } := by
    refine if_neg ?_
    rw [show (s.publish (s.nextMessage cfg data)).fellBehind = false from h.healthy.fellBehind]
    change ¬ (false = true ∨ (s.msgs ++ [s.nextMessage cfg data]).length > cfg.queueSize)
    rw [length_append, length_singleton]
    rintro (hfalse | hlong)
    · cases hfalse
    · omega
  have hpos := cfg.sendDelay_pos
  rw [henqueue]
  refine ⟨{ h.healthy with }, ⟨?_, ?_, ?_, ?_, ?_⟩, ?_, ?_, ?_⟩
  · apply forall_mem_append.mpr ⟨h.sends.window, forall_mem_singleton.mpr ?_⟩
    exact ⟨le_rfl, show s.fetchNow cfg ≤ s.fetchNow cfg + cfg.sendDelay by omega⟩
  · exact forall_mem_append.mpr ⟨h.sends.past, forall_mem_singleton.mpr le_rfl⟩
  · apply pairwise_append.mpr ⟨h.sends.sorted, pairwise_singleton _ _, ?_⟩
    exact fun m hm => forall_mem_singleton.mpr (h.sends.past m hm)
  · apply h.sends.fresh.append (isChain_singleton _)
    intro m hm m' hm'
    cases hm'
    exact hfresh.imp_right fun hlast => hlast m hm
  · exact forall_mem_append.mpr ⟨h.sends.inTime, forall_mem_singleton.mpr hinTime⟩
  · change s.forwarded.map remote ++ s.current ++ (s.msgs ++ [_]) = s.history ++ [_]
    rw [← append_assoc, h.accounted]
  · constructor
    · intro hnone
      obtain ⟨hscheduled, hidle, hmsgs⟩ := h.timer.unset hnone
      exact ⟨hscheduled, hidle, fun m hm => mem_append.mpr ((mem_append.mp hm).imp_left (hmsgs m))⟩
    · intro t ht
      obtain ⟨hscheduled, hsent, hnow, hcontext, hmsgs⟩ := h.timer.set t ht
      exact ⟨hscheduled, hsent, hnow, hcontext, forall_mem_append.mpr ⟨hmsgs, forall_mem_singleton.mpr (hlater t ht)⟩⟩
  · intro hstopped
    obtain ⟨hcontext, hnone, hforwarded, -⟩ := h.before hstopped
    exact ⟨hcontext, hnone, hforwarded, getLast?_concat.symm⟩

theorem Sound.advance {now : Int} (hnow : s.now ≤ now)
    (hunwatched : ∀ m ∈ s.unwatched, cfg.fetchNode.fromDistributed now ≤ m.monotonicEventTime + cfg.sendDelay)
    (hdue : ∀ time ∈ s.timer, cfg.sendNode.fromDistributed now ≤ time) : Sound cfg { s with now } := by
  have hlater : s.fetchNow cfg ≤ cfg.fetchNode.fromDistributed now := cfg.fetchNode.from_mono hnow
  refine ⟨{ h.healthy with }, ⟨?_, ?_, h.sends.sorted, h.sends.fresh, h.sends.inTime⟩, h.accounted, ?_, h.before⟩
  · intro m hm
    exact ⟨(h.sends.window m hm).1.trans hlater, hunwatched m hm⟩
  · intro m hm
    exact (h.sends.past m hm).trans hlater
  · refine ⟨h.timer.unset, ?_⟩
    intro t ht
    obtain ⟨hscheduled, hsent, -, hrest⟩ := h.timer.set t ht
    exact ⟨hscheduled, hsent, hdue t ht, hrest⟩

omit h in
theorem fetchLatest_concat (hcontext : s.context = none) (msgs : List (SourceMessage δ))
    (hmsgs : s.msgs = msgs ++ [m]) :
    s.fetchLatest = { s with context := some m, msgs := [], fellBehind := false, sent := false } := by
  rw [fetchLatest, if_pos (.inl hcontext), fetch, hmsgs, getLast?_concat]
  rfl

omit h in
theorem fetchLatest_nil (hcontext : s.context = none) (hmsgs : s.msgs = []) (hlatest : s.latestMessage = none) :
    s.fetchLatest = s.setSent := by
  have hfetch : s.fetch = (false, s) := by
    rw [fetch, hmsgs, hcontext, hlatest]
    rfl
  rw [fetchLatest, if_pos (.inl hcontext), hfetch]
  rfl

theorem Sound.onRun (hstopped : s.isRunning = false) (hreliable : cfg.timeToLive = 0)
    (hfew : s.history.length ≤ 1) : ∃ s', s.setIsRunning.scheduleReliable cfg = .ok s' ∧ Sound cfg s' := by
  obtain ⟨hcontext, hnone, hforwarded, hlatest⟩ := h.before hstopped
  obtain ⟨hscheduled, hidle, -⟩ := h.timer.unset hnone
  have haccounted := h.accounted
  rw [hforwarded, current_of_idle hidle] at haccounted
  change s.msgs = s.history at haccounted
  unfold scheduleReliable
  cases hmsgs : s.msgs with
  | nil =>
    rw [← haccounted, hmsgs] at hlatest
    rw [fetchLatest_nil (s := s.setIsRunning) hcontext hmsgs hlatest, fetchNext_of_idle (.inr rfl)]
    change ∃ s', (s.setIsRunning.setSent.fetchLoop cfg s.msgs >>= _) = _ ∧ _
    rw [hmsgs]
    refine ⟨s.setIsRunning.setSent.exhaust, if_pos (.inr rfl), { h.healthy with }, { h.sends with }, ?_, ⟨?_, ?_⟩, nofun⟩
    · change s.forwarded.map remote ++ [] ++ [] = s.history
      rw [hforwarded, ← haccounted, hmsgs]
      rfl
    · exact fun _ => ⟨hscheduled, .inr rfl, nofun⟩
    · intro t ht
      cases hnone.symm.trans ht
  | cons m rest =>
    have hrest : rest = [] := by
      rw [← haccounted, hmsgs] at hfew
      exact eq_nil_of_length_eq_zero (by simpa using hfew)
    rw [hrest] at hmsgs
    let s1 : RawMessageDelayer δ :=
      { s.setIsRunning with context := some m, msgs := [], fellBehind := false, sent := false }
    have hfuture : s1.inFuture cfg m = true := inFuture_of_lt (.inl hreliable)
    have hfetch : s1.fetchNext cfg = .ok s1 := if_pos ⟨h.healthy.connected, hfuture⟩
    have hpos := cfg.networkDelay_pos
    rw [fetchLatest_concat (s := s.setIsRunning) hcontext [] hmsgs]
    rw [hfetch]
    refine ⟨s1.arm (s.sendNow cfg + cfg.networkDelay), ?_, ⟨h.healthy.connected, rfl, h.healthy.dropped⟩,
      { h.sends with }, ?_, ⟨nofun, ?_⟩, nofun⟩
    · change (if s.timerScheduled = true then _ else _) = _
      rw [hscheduled]
      exact if_pos (show s.sendNow cfg + cfg.networkDelay ≥ s.sendNow cfg by omega)
    · change s.forwarded.map remote ++ [m] ++ [] = s.history
      rw [hforwarded, ← haccounted, hmsgs]
      rfl
    · rintro t ⟨⟩
      refine ⟨rfl, rfl, show s.sendNow cfg ≤ s.sendNow cfg + cfg.networkDelay by omega, ⟨m, rfl, ?_⟩, nofun⟩
      exact fun hunreliable => absurd hreliable hunreliable

theorem Sound.step {label : Label δ} (hallowed : Allowed cfg s label) :
    Ends (· = .notNow) (Sound cfg) (s.step cfg label) := by
  cases label with
  | send data => exact h.sendOnSource hallowed
  | connection connected =>
    obtain rfl : connected = true := hallowed
    exact ⟨⟨rfl, h.healthy.fellBehind, h.healthy.dropped⟩, { h.sends with }, h.accounted, { h.timer with }, h.before⟩
  | watch =>
    change Ends _ _ (s.callWatcher cfg)
    unfold callWatcher
    split
    · rename_i m rest hrunning hunwatched
      split
      · obtain ⟨s', heq, hsound⟩ := h.watch hrunning hunwatched
        rw [heq]
        exact hsound
      · exact rfl
    · exact rfl
  | fire =>
    change Ends _ _ (if s.isRunning = true ∧ s.timer = some (s.sendNow cfg) then _ else _)
    split
    · rename_i hdue
      obtain ⟨s', heq, hsound⟩ := h.fire hdue.1 hdue.2
      rw [heq]
      exact hsound
    · exact rfl
  | onRun =>
    change Ends _ _ (if s.isRunning = true then _ else _)
    split
    · exact rfl
    · rename_i hstopped
      split
      · rename_i hreliable
        obtain ⟨s', heq, hsound⟩ := h.onRun (by simpa using hstopped) hreliable (hallowed hreliable)
        rw [heq]
        exact hsound
      · exact ⟨{ h.healthy with }, { h.sends with }, h.accounted, { h.timer with }, nofun⟩
  | advance now =>
    change Ends _ _ (s.passTime cfg now)
    unfold passTime
    split
    · rename_i hnow
      exact h.advance hnow.2.1 hnow.2.2.1 hnow.2.2.2
    · exact rfl

omit h in
theorem Sound.init (cfg : Connection) (now : Int) (nextQueueIndex : QueueIndex) :
    Sound cfg ({ now, nextQueueIndex } : RawMessageDelayer δ) := by
  refine ⟨⟨rfl, rfl, rfl⟩, ⟨nofun, nofun, List.Pairwise.nil, isChain_nil, nofun⟩, rfl, ⟨?_, nofun⟩, ?_⟩
  · exact fun _ => ⟨rfl, .inl rfl, nofun⟩
  · exact fun _ => ⟨rfl, rfl, rfl, rfl⟩

theorem Sound.exists_watch (hrunning : s.isRunning = true) (hunwatched : s.unwatched ≠ []) :
    ∃ s', s.step cfg .watch = .ok s' := by
  obtain ⟨m, rest, hcons⟩ := exists_cons_of_ne_nil hunwatched
  obtain ⟨s', heq, -⟩ := h.watch hrunning hcons
  refine ⟨s', ?_⟩
  change s.callWatcher cfg = _
  rw [callWatcher, hrunning, hcons]
  exact (if_pos (h.sends.window m (by rw [hcons]; exact mem_cons_self))).trans heq

theorem Sound.exists_fire (hrunning : s.isRunning = true) (hunwatched : s.unwatched = []) {t : Int}
    (htimer : s.timer = some t) : ∃ now s1 s2, s.step cfg (.advance now) = .ok s1 ∧ s1.step cfg .fire = .ok s2 := by
  obtain ⟨-, -, hnow, -⟩ := h.timer.set t htimer
  have hreached : cfg.sendNode.fromDistributed (max s.now (cfg.sendNode.toDistributed t)) = t := by
    rw [cfg.sendNode.from_mono.map_max, cfg.sendNode.from_to]
    exact max_eq_right hnow
  have hadvance : s.step cfg (.advance (max s.now (cfg.sendNode.toDistributed t))) =
      .ok { s with now := max s.now (cfg.sendNode.toDistributed t) } := by
    refine if_pos ⟨hrunning, le_max_left _ _, ?_, ?_⟩
    · rw [hunwatched]
      exact nofun
    · intro t' ht'
      rw [hreached, Option.some.inj (htimer.symm.trans ht')]
  have hsound : Sound cfg { s with now := max s.now (cfg.sendNode.toDistributed t) } :=
    (h.step (show Allowed cfg s (.advance _) from trivial)).ok hadvance
  have hdue : s.timer = some (cfg.sendNode.fromDistributed (max s.now (cfg.sendNode.toDistributed t))) := by
    rw [hreached]
    exact htimer
  obtain ⟨s2, heq, -⟩ := hsound.fire hrunning hdue
  exact ⟨_, _, s2, hadvance, (if_pos ⟨hrunning, hdue⟩).trans heq⟩

end

theorem sound_of_run {now : Int} {nextQueueIndex : QueueIndex}
    (h : Transition.Run (fun s label => (s.step cfg label).toOption) (Allowed cfg) { now, nextQueueIndex } s) :
    Sound cfg s := by
  refine h.invariant ?_ (Sound.init cfg now nextQueueIndex)
  intro u label v hu hallowed hstep
  exact (hu.step hallowed).ok (Fallible.toOption_eq_some.mp hstep)

def offsetClock (offset : Int) : NodeClock where
  toDistributed t := t - offset
  fromDistributed d := d + offset
  to_mono _ _ h := by simpa using h
  from_mono _ _ h := by simpa using h
  from_to t := by omega

def slowClock (rate : Nat) (hrate : 0 < rate) : NodeClock where
  toDistributed t := t * rate
  fromDistributed d := d / rate
  to_mono _ _ h := by
    simp only
    gcongr
  from_mono _ _ h := Int.ediv_le_ediv (by exact_mod_cast hrate) h
  from_to t := Int.mul_ediv_cancel t (by exact_mod_cast hrate.ne')

def driftingLink : Connection where
  fetchNode := offsetClock 100
  sendNode := slowClock 3 (by decide)
  networkDelay := 10
  sendDelay := 5
  timeToLive := 1
  queueSize := 2
  networkDelay_pos := by decide
  sendDelay_pos := by decide

/-- Messages at least 3 ns apart. -/
def spaced (s : RawMessageDelayer δ) : Label δ → Bool
  | .send _ =>
    s.msgs.length < 2 ∧ (∀ t ∈ s.timer, t ≤ deliveredTime driftingLink (s.fetchNow driftingLink)) ∧
      ∀ m ∈ s.history.getLast?, m.monotonicEventTime + 3 ≤ s.fetchNow driftingLink
  | .connection connected => connected
  | _ => true

theorem allowed_of_spaced {label : Label δ} (h : s.spaced label = true) : Allowed driftingLink s label := by
  cases label with
  | send data =>
    obtain ⟨hroom, hlater, hgap⟩ :=
      of_decide_eq_true (p := s.msgs.length < 2 ∧
        (∀ t ∈ s.timer, t ≤ deliveredTime driftingLink (s.fetchNow driftingLink)) ∧
          ∀ m ∈ s.history.getLast?, m.monotonicEventTime + 3 ≤ s.fetchNow driftingLink) h
    refine ⟨hroom, ?_, hlater, .inr ?_⟩
    · intro d hd
      simp only [deliveredTime, driftingLink, offsetClock, slowClock] at hd ⊢
      omega
    · intro m hm d hd
      have hgap := hgap m hm
      simp only [deliveredTime, driftingLink, offsetClock, slowClock] at hd hgap ⊢
      omega
  | onRun => exact fun hreliable => absurd hreliable (by decide)
  | connection connected => exact h
  | watch | fire | advance => trivial

def plainLink (rate : Nat) (hrate : 0 < rate) (timeToLive queueSize : Nat) : Connection where
  fetchNode := slowClock rate hrate
  sendNode := offsetClock 0
  networkDelay := 10
  sendDelay := 5
  timeToLive := timeToLive
  queueSize := queueSize
  networkDelay_pos := by decide
  sendDelay_pos := by decide

def staysUp (_ : RawMessageDelayer Nat) : Label Nat → Bool
  | .connection connected => connected
  | _ => true

def Loses (cfg : Connection) : Prop :=
  ∃ s : RawMessageDelayer Nat, Transition.Run (fun s label => (s.step cfg label).toOption)
    (fun s label => s.staysUp label = true) { now := 0, nextQueueIndex := ⟨0, 10⟩ } s ∧
    s.isRunning = true ∧ s.timer = none ∧ s.unwatched = [] ∧ s.forwarded.length < s.history.length

/-- The link is up and a check fails. -/
def Aborts (cfg : Connection) (error : BridgeError) : Prop :=
  ∃ s : RawMessageDelayer Nat, Transition.Run (fun s label => (s.step cfg label).toOption)
    (fun s label => s.staysUp label = true) { now := 0, nextQueueIndex := ⟨0, 10⟩ } s ∧
    (Fallible.errorOf (s.step cfg .watch) = some error ∨ Fallible.errorOf (s.step cfg .fire) = some error)

end RawMessageDelayer

end RobotCode.Events
