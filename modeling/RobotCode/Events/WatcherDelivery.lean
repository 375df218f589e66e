import RobotCode.Lib.Transition
import RobotCode.Events.SimulatedEventLoop

/-!
# Watchers get every message once, in order and in time

A watcher with messages has one event in the heap of its event loop, at the time of its first message, and one
wakeup, `sendDelay` after that, unless its event loop is handling events already. Whatever wakes the event loop
first makes it handle the message, and the wakeup makes sure that something does.

User code runs in the middle of this: inside a watcher's callback its message is still in its queue but its event
is out of the heap. The invariant `Core` says what holds then, for the handler that is `busy`.
-/

namespace RobotCode.Events

open List Function Occurrence SimulatedMessage List.Pairwise

open Logging (minTime maxTime)
open Fallible (Ends)

variable {δ σ : Type}

namespace Occurrence

def isStarted (loop : Nat) : Occurrence δ → Bool
  | .started l => l = loop
  | _ => false

def sentOn (channel : Nat) : Occurrence δ → Option (SimulatedMessage δ)
  | .sent c message => if c = channel then some message else none
  | _ => none

def calledBy (watcher : Nat) : Occurrence δ → Option (SimulatedMessage δ)
  | .called w message _ _ => if w = watcher then some message else none
  | _ => none

end Occurrence

def calls (watcher : Nat) (trace : List (Occurrence δ)) : List (SimulatedMessage δ) :=
  trace.filterMap (calledBy watcher)

def sentSince (cfg : NodeConfig) (watcher : Nat) (trace : List (Occurrence δ)) : List (SimulatedMessage δ) :=
  (trace.dropWhile fun o => !o.isStarted (cfg.loop (.watcher watcher))).filterMap
    (sentOn (cfg.channel watcher))

/-- The event loop started running at some point. -/
def Started (loop : Nat) (trace : List (Occurrence δ)) : Prop := ∃ o ∈ trace, o.isStarted loop = true

section Record

variable {cfg : NodeConfig} {trace : List (Occurrence δ)} {w : Nat}

theorem calls_append (o : Occurrence δ) : calls w (trace ++ [o]) = calls w trace ++ (o.calledBy w).toList := by
  cases h : o.calledBy w <;> simp [calls, h]

theorem sentSince_append (o : Occurrence δ) {started : Bool}
    (h : started = true ↔ Started (cfg.loop (.watcher w)) trace) : sentSince cfg w (trace ++ [o]) =
      sentSince cfg w trace ++ if started then (o.sentOn (cfg.channel w)).toList else [] := by
  have hnil : (trace.dropWhile fun o => !o.isStarted (cfg.loop (.watcher w))) = [] ↔ started = false := by
    rw [dropWhile_eq_nil_iff, ← Bool.not_eq_true, h]
    simp [Started]
  unfold sentSince
  rw [dropWhile_append]
  cases started with
  | true =>
    rw [if_neg (by simp [hnil]), filterMap_append]
    cases hsent : o.sentOn (cfg.channel w) <;> simp [hsent]
  | false =>
    rw [hnil.mpr rfl, isEmpty_nil, if_pos rfl]
    cases o with
    | started l =>
      simp only [dropWhile_cons, dropWhile_nil]
      split <;> rfl
    | sent | called | handled => rfl

theorem started_append {loop : Nat} (o : Occurrence δ) :
    Started loop (trace ++ [o]) ↔ Started loop trace ∨ o.isStarted loop = true := by
  simp only [Started, mem_append, mem_singleton]
  constructor
  · rintro ⟨x, hx | rfl, hstarted⟩
    · exact .inl ⟨x, hx, hstarted⟩
    · exact .inr hstarted
  · rintro (⟨x, hx, hstarted⟩ | hstarted)
    · exact ⟨x, .inl hx, hstarted⟩
    · exact ⟨o, .inr rfl, hstarted⟩

end Record

namespace Simulation

variable {cfg : NodeConfig} {callbacks : Callbacks δ σ} {s s' : Simulation δ σ}

def Queued (cfg : NodeConfig) (s : Simulation δ σ) (handler : Handler) (time : Int) : Prop :=
  (s.queues (cfg.loop handler)).Has handler time

theorem deschedule_spec (h : s.wakeups.Valid s.now) (handler : Handler) :
    ∃ wakeups, s.deschedule handler = .ok (s.setWakeups wakeups) ∧ wakeups.Valid s.now ∧
      ∀ other t, wakeups.Armed other t ↔ other ≠ handler ∧ s.wakeups.Armed other t := by
  obtain ⟨wakeups, heq, hvalid, harmed⟩ := h.deschedule handler
  refine ⟨wakeups, ?_, hvalid, harmed⟩
  rw [deschedule, heq]
  rfl

def QueuesOk (cfg : NodeConfig) (queues : Nat → EventQueue Handler) : Prop :=
  ∀ l, (queues l).Valid ∧ ∀ handler t, (queues l).Has handler t → cfg.loop handler = l

theorem addEvent_spec (h : QueuesOk cfg s.queues) {handler : Handler} (hfree : ∀ t, ¬ s.Queued cfg handler t)
    (time : Int) : ∃ queues, s.addEvent cfg handler time = .ok (s.setQueues queues) ∧ QueuesOk cfg queues ∧
      ∀ other t, (queues (cfg.loop other)).Has other t ↔ other = handler ∧ t = time ∨ s.Queued cfg other t := by
  obtain ⟨queue, heq, hvalid, hhas⟩ := EventQueue.addEvent_spec (h (cfg.loop handler)).1 hfree time
  refine ⟨update s.queues (cfg.loop handler) queue, ?_, ?_, ?_⟩
  · rw [addEvent, heq]
    rfl
  · intro l
    rw [update_apply]
    split
    · rename_i hl
      refine ⟨hvalid, ?_⟩
      intro other t ht
      rcases (hhas other t).mp ht with ⟨rfl, -⟩ | ht
      · exact hl.symm
      · exact ((h _).2 other t ht).trans hl.symm
    · exact h l
  · intro other t
    rw [update_apply]
    split
    · rename_i hloop
      rw [hhas, Queued, hloop]
    · rename_i hloop
      have hne : other ≠ handler := by
        rintro rfl
        exact hloop rfl
      simp only [hne, false_and, false_or]
      rfl

variable {s₀ : Simulation δ σ} {m : SimulatedMessage δ} {w loop p : Nat} {e : QueuedEvent Handler}
  {busy' : Option Handler}

theorem removeEvent_spec (h : QueuesOk cfg s.queues) (handler : Handler) (hloop : cfg.loop handler = loop) :
    QueuesOk cfg (s.removeEvent loop handler).queues ∧
      ∀ other t, (s.removeEvent loop handler).Queued cfg other t ↔ other ≠ handler ∧ s.Queued cfg other t := by
  constructor
  · intro l
    simp only [removeEvent, setQueues, update_apply]
    split
    · rename_i hl
      refine ⟨(h _).1.removeEvent handler, ?_⟩
      intro other t ht
      exact ((h _).2 other t (EventQueue.has_removeEvent other t |>.mp ht).2).trans hl.symm
    · exact h l
  · intro other t
    simp only [Queued, removeEvent, setQueues, update_apply]
    split
    · rename_i heq
      rw [EventQueue.has_removeEvent, heq]
    · rename_i hne
      have hne : other ≠ handler := by
        rintro rfl
        exact hne hloop
      simp [ne_eq, hne, not_false_eq_true, true_and]

/-! ### The invariant -/

structure WatcherOk (cfg : NodeConfig) (busy : Prop) (s : Simulation δ σ) (w : Nat) : Prop where
  idle : s.msgs w = [] → ¬ busy ∧ (∀ t, ¬ s.wakeups.Armed (.watcher w) t) ∧ ∀ t, ¬ s.Queued cfg (.watcher w) t
  unqueued : busy → ∀ t, ¬ s.Queued cfg (.watcher w) t
  armed : ∀ m rest, s.msgs w = m :: rest →
    ∀ t, s.wakeups.Armed (.watcher w) t → t = m.monotonicEventTime + cfg.sendDelay
  waiting : ¬ busy → ∀ m rest, s.msgs w = m :: rest →
    s.Queued cfg (.watcher w) m.monotonicEventTime ∧
      ((∃ t, s.wakeups.Armed (.watcher w) t) ∨ s.active = some (cfg.loop (.watcher w)))
  times : ∀ m ∈ s.msgs w, m.monotonicEventTime ≤ s.now ∧ s.now ≤ m.monotonicEventTime + cfg.sendDelay
  sorted : (s.msgs w).Pairwise fun m m' => m.monotonicEventTime ≤ m'.monotonicEventTime

/-- What holds of all handlers, while the callback of `busy` is running, and with the phased loops `held` out of
the heap. -/
structure Core (cfg : NodeConfig) (busy : Option Handler) (held : Nat → Prop) (s : Simulation δ σ) : Prop where
  wakeups : s.wakeups.Valid s.now
  queues : QueuesOk cfg s.queues
  watchers : ∀ w, WatcherOk cfg (busy = some (.watcher w)) s w
  phased : ∀ p, (s.phasedLoops p).phasedLoop.Valid
  free : ∀ p, held p ∨ busy = some (.phasedLoop p) → ∀ t, ¬ s.Queued cfg (.phasedLoop p) t

/-- The messages a watcher still has to be called for, while the callback of `busy` is running. -/
def pending (busy : Option Handler) (s : Simulation δ σ) (w : Nat) : List (SimulatedMessage δ) :=
  if busy = some (.watcher w) then (s.msgs w).tail else s.msgs w

/-- What holds of the record, while the callback of `busy` is running. -/
structure Recorded (cfg : NodeConfig) (busy : Option Handler) (s : Simulation δ σ) : Prop where
  started : ∀ l, s.hasRun l = true ↔ Started l s.trace
  accounted : ∀ w, calls w s.trace ++ s.pending busy w = sentSince cfg w s.trace
  onTime : ∀ w m c (t : Int), .called w m c t ∈ s.trace →
    m.monotonicEventTime ≤ t ∧ t ≤ m.monotonicEventTime + cfg.sendDelay ∧ c = m.context
  inOrder : ∀ l e events, .handled l e events ∈ s.trace →
    e ∈ events ∧ (∀ x ∈ events, e.NoLater x) ∧ (events.map QueuedEvent.generation).Pairwise (· < ·)

/-- What user code and the handlers cannot change. -/
structure Keeps (s s' : Simulation δ σ) : Prop where
  now : s'.now = s.now
  endTime : s'.endTime = s.endTime
  isRunning : s'.isRunning = s.isRunning
  active : s'.active = s.active
  eventLoops : s'.eventLoops = s.eventLoops
  hasRun : s'.hasRun = s.hasRun
  createdPhasedLoops : s'.createdPhasedLoops = s.createdPhasedLoops
  onRun : s'.onRun = s.onRun

theorem Keeps.refl (s : Simulation δ σ) : Keeps s s := by constructor <;> rfl

theorem Keeps.trans {s'' : Simulation δ σ} (h : Keeps s s') (h' : Keeps s' s'') : Keeps s s'' where
  now := h'.now.trans h.now
  endTime := h'.endTime.trans h.endTime
  isRunning := h'.isRunning.trans h.isRunning
  active := h'.active.trans h.active
  eventLoops := h'.eventLoops.trans h.eventLoops
  hasRun := h'.hasRun.trans h.hasRun
  createdPhasedLoops := h'.createdPhasedLoops.trans h.createdPhasedLoops
  onRun := h'.onRun.trans h.onRun

/-- A state reached from `s₀` by user code. -/
structure Good (cfg : NodeConfig) (busy : Option Handler) (held : Nat → Prop) (s₀ s : Simulation δ σ) : Prop where
  core : Core cfg busy held s
  recorded : Recorded cfg busy s
  keeps : Keeps s₀ s

variable {busy : Option Handler} {held : Nat → Prop}

theorem WatcherOk.of_eq {b b' : Prop} (h : WatcherOk cfg b s w) (hbusy : b' ↔ b) (hnow : s'.now = s.now)
    (hactive : s'.active = s.active) (hmsgs : s'.msgs w = s.msgs w)
    (harmed : ∀ t, s'.wakeups.Armed (.watcher w) t ↔ s.wakeups.Armed (.watcher w) t)
    (hqueued : ∀ t, s'.Queued cfg (.watcher w) t ↔ s.Queued cfg (.watcher w) t) : WatcherOk cfg b' s' w where
  idle := by
    simp only [hmsgs, hbusy, harmed, hqueued]
    exact h.idle
  unqueued := by
    simp only [hbusy, hqueued]
    exact h.unqueued
  armed := by
    simp only [hmsgs, harmed]
    exact h.armed
  waiting := by
    simp only [hmsgs, hbusy, harmed, hqueued, hactive]
    exact h.waiting
  times := by
    rw [hmsgs, hnow]
    exact h.times
  sorted := by
    rw [hmsgs]
    exact h.sorted

theorem Recorded.of_same (h : Recorded cfg busy s) (htrace : s'.trace = s.trace) (hmsgs : s'.msgs = s.msgs)
    (hhasRun : s'.hasRun = s.hasRun) : Recorded cfg busy s' where
  started := by
    rw [htrace, hhasRun]
    exact h.started
  accounted w := by
    rw [htrace, pending, hmsgs]
    exact h.accounted w
  onTime := by
    rw [htrace]
    exact h.onTime
  inOrder := by
    rw [htrace]
    exact h.inOrder

theorem Recorded.of_busy (h : Recorded cfg busy s)
    (hbusy : ∀ w, busy' = some (.watcher w) ↔ busy = some (.watcher w)) : Recorded cfg busy' s where
  __ := h
  accounted w := by
    simp only [pending, hbusy]
    exact h.accounted w

theorem Recorded.append (h : Recorded cfg busy s) {o : Occurrence δ} (htrace : s'.trace = s.trace ++ [o])
    (hhasRun : ∀ l, s'.hasRun l = true ↔ s.hasRun l = true ∨ o.isStarted l = true)
    (hpending : ∀ w, (o.calledBy w).toList ++ s'.pending busy' w =
      s.pending busy w ++ if s.hasRun (cfg.loop (.watcher w)) then (o.sentOn (cfg.channel w)).toList else [])
    (honTime : ∀ w m c t, o = .called w m c t →
      m.monotonicEventTime ≤ t ∧ t ≤ m.monotonicEventTime + cfg.sendDelay ∧ c = m.context)
    (hinOrder : ∀ l e events, o = .handled l e events →
      e ∈ events ∧ (∀ x ∈ events, e.NoLater x) ∧ (events.map QueuedEvent.generation).Pairwise (· < ·)) :
    Recorded cfg busy' s' := by
  constructor
  · intro l
    rw [htrace, started_append, hhasRun, h.started]
  · intro w
    rw [htrace, calls_append, append_assoc, hpending, ← append_assoc, h.accounted, sentSince_append o (h.started _)]
  · intro w m c t hmem
    rw [htrace] at hmem
    rcases mem_append.mp hmem with hmem | hmem
    · exact h.onTime w m c t hmem
    · exact honTime w m c t (mem_singleton.mp hmem).symm
  · intro l e events hmem
    rw [htrace] at hmem
    rcases mem_append.mp hmem with hmem | hmem
    · exact h.inOrder l e events hmem
    · exact hinOrder l e events (mem_singleton.mp hmem).symm

theorem Core.disableTimer (h : Core cfg busy held s) (timer : Nat) :
    ∃ s', s.disableTimer cfg timer = .ok s' ∧ Core cfg busy held s' ∧ Keeps s s' ∧ s'.trace = s.trace ∧
      s'.msgs = s.msgs ∧ (∀ t, ¬ s'.wakeups.Armed (.timer timer) t) ∧ ∀ t, ¬ s'.Queued cfg (.timer timer) t := by
  obtain ⟨hqueues, hqueued⟩ := removeEvent_spec h.queues (.timer timer) rfl
  obtain ⟨wakeups, heq, hvalid, harmed⟩ :=
    deschedule_spec (s := s.removeEvent (cfg.loop (.timer timer)) (.timer timer)) h.wakeups (.timer timer)
  refine ⟨_, heq, ?_, by constructor <;> rfl, rfl, rfl, ?_, ?_⟩
  · refine ⟨hvalid, hqueues, ?_, h.phased, ?_⟩
    · intro w
      refine (h.watchers w).of_eq Iff.rfl rfl rfl rfl ?_ ?_
      · intro t
        exact (harmed (.watcher w) t).trans (and_iff_right (by simp))
      · intro t
        exact (hqueued (.watcher w) t).trans (and_iff_right (by simp))
    · intro p hp t ht
      exact h.free p hp t ((hqueued _ t).mp ht).2
  · intro t ht
    exact ((harmed _ t).mp ht).1 rfl
  · intro t ht
    exact ((hqueued _ t).mp ht).1 rfl

theorem Core.armTimer (h : Core cfg busy held s) {timer : Nat} (harmed : ∀ t, ¬ s.wakeups.Armed (.timer timer) t)
    (hqueued : ∀ t, ¬ s.Queued cfg (.timer timer) t) (base : Int) {wakeupTime : Int} (hnow : s.now ≤ wakeupTime)
    (repeatOffset : Nat) :
    ∃ s', s.armTimer cfg timer base wakeupTime repeatOffset = .ok s' ∧ Core cfg busy held s' ∧ Keeps s s' ∧
      s'.trace = s.trace ∧ s'.msgs = s.msgs := by
  obtain ⟨queues, heq, hqueues, hqueued'⟩ := addEvent_spec
    (s := (s.setTimer timer base repeatOffset).schedule wakeupTime (.timer timer)) h.queues hqueued base
  refine ⟨_, heq, ?_, by constructor <;> rfl, rfl, rfl⟩
  refine ⟨h.wakeups.schedule harmed hnow, hqueues, ?_, h.phased, ?_⟩
  · intro w
    refine (h.watchers w).of_eq Iff.rfl rfl rfl rfl ?_ ?_
    · intro t
      exact (Wakeups.armed_schedule (Handler.watcher w) t).trans (or_iff_right (by simp))
    · intro t
      exact (hqueued' (.watcher w) t).trans (or_iff_right (by simp))
  · intro p hp t ht
    rcases (hqueued' _ t).mp ht with ⟨hhandler, -⟩ | ht
    · cases hhandler
    · exact h.free p hp t ht

theorem Good.setupTimer (h : Good cfg busy held s₀ s) (timer : Nat) (base : Int)
    (repeatOffset : Nat) : ∃ s', s.setupTimer cfg timer base repeatOffset = .ok s' ∧ Good cfg busy held s₀ s' := by
  obtain ⟨s1, heq1, hcore1, hkeeps1, htrace1, hmsgs1, harmed, hqueued⟩ := h.core.disableTimer timer
  obtain ⟨s2, heq2, hcore2, hkeeps2, htrace2, hmsgs2⟩ :=
    hcore1.armTimer harmed hqueued base (le_max_right base s1.now) repeatOffset
  refine ⟨s2, ?_, hcore2, ?_, h.keeps.trans (hkeeps1.trans hkeeps2)⟩
  · rw [Simulation.setupTimer, heq1]
    exact heq2
  · exact h.recorded.of_same (htrace2.trans htrace1) (hmsgs2.trans hmsgs1) (hkeeps1.trans hkeeps2).hasRun

theorem Good.disableTimer (h : Good cfg busy held s₀ s) (timer : Nat) :
    ∃ s', s.disableTimer cfg timer = .ok s' ∧ Good cfg busy held s₀ s' := by
  obtain ⟨s1, heq, hcore, hkeeps, htrace, hmsgs, -, -⟩ := h.core.disableTimer timer
  exact ⟨s1, heq, hcore, h.recorded.of_same htrace hmsgs hkeeps.hasRun, h.keeps.trans hkeeps⟩

/-! ### Sending -/

theorem WatcherOk.of_armed {b : Prop} {rest : List (SimulatedMessage δ)} (hb : ¬ b) (hmsgs : s.msgs w = m :: rest)
    (hqueued : s.Queued cfg (.watcher w) m.monotonicEventTime)
    (harmed : ∀ t, s.wakeups.Armed (.watcher w) t ↔ t = m.monotonicEventTime + cfg.sendDelay)
    (htimes : ∀ m' ∈ m :: rest, m'.monotonicEventTime ≤ s.now ∧ s.now ≤ m'.monotonicEventTime + cfg.sendDelay)
    (hsorted : (m :: rest).Pairwise fun m m' => m.monotonicEventTime ≤ m'.monotonicEventTime) :
    WatcherOk cfg b s w := by
  constructor <;> try rw [hmsgs]
  · exact nofun
  · exact fun hc => absurd hc hb
  · rintro m' rest' ⟨⟩ t ht
    exact (harmed t).mp ht
  · rintro - m' rest' ⟨⟩
    exact ⟨hqueued, .inl ⟨_, (harmed _).mpr rfl⟩⟩
  · exact htimes
  · exact hsorted

theorem arm_spec (hwakeups : s.wakeups.Valid s.now) (hqueues : QueuesOk cfg s.queues)
    (hqueued : ∀ t, ¬ s.Queued cfg (.watcher w) t) (harmed : ∀ t, ¬ s.wakeups.Armed (.watcher w) t)
    (eventTime wakeupTime : Int) (hnow : s.now ≤ wakeupTime + cfg.sendDelay) :
    ∃ queues wakeups, s.arm cfg w eventTime wakeupTime = .ok ((s.setQueues queues).setWakeups wakeups) ∧
      wakeups.Valid s.now ∧ QueuesOk cfg queues ∧ (∀ other t, wakeups.Armed other t ↔
        other = .watcher w ∧ t = wakeupTime + cfg.sendDelay ∨ s.wakeups.Armed other t) ∧
      ∀ other t, (queues (cfg.loop other)).Has other t ↔
        other = .watcher w ∧ t = eventTime ∨ s.Queued cfg other t := by
  obtain ⟨queues, heq, hvalid, hhas⟩ := addEvent_spec hqueues hqueued eventTime
  refine ⟨queues, s.wakeups.schedule (wakeupTime + cfg.sendDelay) (.watcher w), ?_, hwakeups.schedule harmed hnow,
    hvalid, fun other t => Wakeups.armed_schedule other t, hhas⟩
  rw [arm, heq]
  exact if_pos (hwakeups.token_eq_none.mpr harmed)

theorem Core.scheduleWatcher (h : Core cfg busy held s) (w : Nat) (hm : m.monotonicEventTime = s.now) :
    ∃ s', s.scheduleWatcher cfg w m = .ok s' ∧ Core cfg busy held s' ∧ Keeps s s' ∧ s'.trace = s.trace ∧
      s'.msgs = update s.msgs w (s.msgs w ++ [m]) := by
  have hw := h.watchers w
  unfold Simulation.scheduleWatcher
  cases hmsgs : s.msgs w with
  | nil =>
    obtain ⟨hbusy, harmed, hqueued⟩ := hw.idle hmsgs
    obtain ⟨queues, wakeups, heq, hwakeups, hqueues, harmed', hqueued'⟩ :=
      arm_spec h.wakeups h.queues hqueued harmed m.monotonicEventTime s.now (by omega)
    simp only [heq]
    refine ⟨((s.setQueues queues).setWakeups wakeups).setMsgs w [m], rfl, ?_, by constructor <;> rfl, rfl, rfl⟩
    refine ⟨hwakeups, hqueues, ?_, h.phased, ?_⟩
    · intro v
      by_cases hv : v = w
      · subst hv
        refine .of_armed hbusy (update_self _ _ _) ((hqueued' _ _).mpr (.inl ⟨rfl, rfl⟩)) ?_ ?_
          (pairwise_singleton _ _)
        · intro t
          exact (harmed' _ t).trans (by simp [harmed, hm])
        · intro m' hm'
          rw [mem_singleton.mp hm', hm]
          exact ⟨le_rfl, show s.now ≤ _ by omega⟩
      · refine (h.watchers v).of_eq Iff.rfl rfl rfl (update_of_ne hv _ _) ?_ ?_
        · intro t
          exact (harmed' (.watcher v) t).trans (or_iff_right (by simp [hv]))
        · intro t
          exact (hqueued' (.watcher v) t).trans (or_iff_right (by simp [hv]))
    · intro p hp t ht
      rcases (hqueued' _ t).mp ht with ⟨hhandler, -⟩ | ht
      · cases hhandler
      · exact h.free p hp t ht
  | cons m0 rest =>
    have hself : (s.setMsgs w (m0 :: rest ++ [m])).msgs w = m0 :: (rest ++ [m]) := update_self _ _ _
    refine ⟨s.setMsgs w (m0 :: rest ++ [m]), rfl, ?_, by constructor <;> rfl, rfl, rfl⟩
    refine ⟨h.wakeups, h.queues, ?_, h.phased, h.free⟩
    intro v
    by_cases hv : v = w
    · subst hv
      have hmem : ∀ m' ∈ s.msgs v, m'.monotonicEventTime ≤ m.monotonicEventTime := by
        intro m' hm'
        rw [hm]
        exact (hw.times m' hm').1
      constructor
      · rw [hself]
        intro hnil
        cases hnil
      · exact hw.unqueued
      · rw [hself]
        intro m' rest' hcons
        cases hcons
        exact hw.armed m0 rest hmsgs
      · rw [hself]
        intro hb m' rest' hcons
        cases hcons
        exact hw.waiting hb m0 rest hmsgs
      · rw [hself, ← cons_append, ← hmsgs]
        refine forall_mem_append.mpr ⟨hw.times, forall_mem_singleton.mpr ?_⟩
        rw [hm]
        exact ⟨le_rfl, show s.now ≤ _ by omega⟩
      · rw [hself, ← cons_append, ← hmsgs, pairwise_append]
        exact ⟨hw.sorted, pairwise_singleton _ _, fun m' hm' => forall_mem_singleton.mpr (hmem m' hm')⟩
    · exact (h.watchers v).of_eq Iff.rfl rfl rfl (update_of_ne hv _ _) (fun _ => Iff.rfl) fun _ => Iff.rfl

theorem Core.sendTo_all (h : Core cfg busy held s) (channel : Nat) (hm : m.monotonicEventTime = s.now) :
    ∃ s', (cfg.watchers channel).foldlM (sendTo cfg m) s = .ok s' ∧ Core cfg busy held s' ∧ Keeps s s' ∧
      s'.trace = s.trace ∧
      ∀ w, s'.msgs w = if cfg.channel w = channel ∧ s.hasRun (cfg.loop (.watcher w)) then s.msgs w ++ [m]
        else s.msgs w := by
  obtain ⟨s', heq, hcore, hkeeps, htrace, hmsgs⟩ := Fallible.foldlM_ok (cfg.watchers channel) (sendTo cfg m)
    (fun sofar t => Core cfg busy held t ∧ Keeps s t ∧ t.trace = s.trace ∧
      ∀ w, t.msgs w = if w ∈ sofar ∧ s.hasRun (cfg.loop (.watcher w)) then s.msgs w ++ [m] else s.msgs w)
    ⟨h, Keeps.refl s, rfl, by simp⟩ (by
      rintro sofar w todo hlist t ⟨hcore, hkeeps, htrace, hmsgs⟩
      have hnodup := cfg.nodup channel
      rw [hlist] at hnodup
      have hw : w ∉ sofar := fun hmem => (disjoint_of_nodup_append hnodup) hmem mem_cons_self
      unfold sendTo
      rw [hkeeps.hasRun]
      split
      · rename_i hrun
        obtain ⟨t', heq, hcore', hkeeps', htrace', hmsgs'⟩ := hcore.scheduleWatcher w (hm.trans hkeeps.now.symm)
        refine ⟨t', heq, hcore', hkeeps.trans hkeeps', htrace'.trans htrace, ?_⟩
        intro v
        rw [hmsgs']
        by_cases hv : v = w
        · subst hv
          rw [update_self, hmsgs v, if_neg (fun hc => hw hc.1), if_pos ⟨by simp, hrun⟩]
        · rw [update_of_ne hv, hmsgs v]
          simp [mem_append, hv, or_false]
      · rename_i hrun
        refine ⟨t, rfl, hcore, hkeeps, htrace, ?_⟩
        intro v
        rw [hmsgs v]
        by_cases hv : v = w
        · subst hv
          rw [if_neg (fun hc => hrun hc.2), if_neg (fun hc => hrun hc.2)]
        · simp only [mem_append, mem_singleton, hv, or_false])
  refine ⟨s', heq, hcore, hkeeps, htrace, ?_⟩
  intro w
  rw [hmsgs w]
  simp [cfg.mem_watchers]

theorem Recorded.sent (h : Recorded cfg busy s) {channel : Nat}
    (hbusy : ∀ w, busy = some (.watcher w) → s.msgs w ≠ []) (htrace : s'.trace = s.trace ++ [.sent channel m])
    (hhasRun : s'.hasRun = s.hasRun)
    (hmsgs : ∀ w, s'.msgs w = if cfg.channel w = channel ∧ s.hasRun (cfg.loop (.watcher w)) then s.msgs w ++ [m]
      else s.msgs w) : Recorded cfg busy s' := by
  refine h.append htrace ?_ ?_ nofun nofun
  · intro l
    rw [hhasRun]
    simp [Occurrence.isStarted]
  · intro w
    change s'.pending busy w = _
    by_cases hgets : cfg.channel w = channel ∧ s.hasRun (cfg.loop (.watcher w)) = true
    · rw [pending, pending, (hmsgs w).trans (if_pos hgets), if_pos hgets.2, Occurrence.sentOn, if_pos hgets.1.symm]
      split
      · rename_i hb
        exact tail_append_of_ne_nil (hbusy w hb)
      · rfl
    · have hnone : (if s.hasRun (cfg.loop (.watcher w)) then
          ((Occurrence.sent channel m).sentOn (cfg.channel w)).toList else []) = [] := by
        split
        · rename_i hrun
          rw [Occurrence.sentOn, if_neg (fun hc => hgets ⟨hc.symm, hrun⟩)]
          rfl
        · rfl
      rw [hnone, append_nil, pending, pending, (hmsgs w).trans (if_neg hgets)]

theorem Core.of_same (h : Core cfg busy held s) (hnow : s'.now = s.now) (hactive : s'.active = s.active)
    (hwakeups : s'.wakeups = s.wakeups) (hqueues : s'.queues = s.queues) (hmsgs : s'.msgs = s.msgs)
    (hphased : s'.phasedLoops = s.phasedLoops) : Core cfg busy held s' := by
  have hqueued : ∀ handler t, s'.Queued cfg handler t ↔ s.Queued cfg handler t := by
    intro handler t
    rw [Queued, hqueues]
    rfl
  refine ⟨by rw [hwakeups, hnow]; exact h.wakeups, by rw [hqueues]; exact h.queues, ?_, by rw [hphased]; exact h.phased,
    ?_⟩
  · intro w
    exact (h.watchers w).of_eq Iff.rfl hnow hactive (by rw [hmsgs]) (fun t => by rw [hwakeups]) fun t => hqueued _ t
  · intro p hp t ht
    exact h.free p hp t ((hqueued _ t).mp ht)

theorem Good.send (h : Good cfg busy held s₀ s) (channel : Nat) (data : δ)
    (monotonicRemoteTime : Int) (remoteQueueIndex : Nat) :
    ∃ s', s.send cfg channel data monotonicRemoteTime remoteQueueIndex = .ok s' ∧ Good cfg busy held s₀ s' := by
  let m : SimulatedMessage δ :=
    ⟨s.now, monotonicRemoteTime, (s.nextQueueIndex channel).index, remoteQueueIndex, data⟩
  let s1 : Simulation δ σ :=
    { s with nextQueueIndex := update s.nextQueueIndex channel (s.nextQueueIndex channel).increment }
  have hcore1 : Core cfg busy held s1 := h.core.of_same rfl rfl rfl rfl rfl rfl
  obtain ⟨s2, heq, hcore, hkeeps, htrace, hmsgs⟩ := hcore1.sendTo_all channel (m := m) rfl
  have hkeeps' : Keeps s s2 := { hkeeps with }
  refine ⟨s2.record (.sent channel m), ?_, hcore.of_same rfl rfl rfl rfl rfl rfl, ?_, h.keeps.trans { hkeeps' with }⟩
  · exact congrArg (· >>= fun t => Except.ok (t.record (.sent channel m))) heq
  · refine h.recorded.sent ?_ (congrArg (· ++ [sent channel m]) htrace) hkeeps'.hasRun hmsgs
    intro w hbusy hnil
    exact ((h.core.watchers w).idle hnil).1 hbusy

theorem Core.setPhasedLoop (h : Core cfg busy held s) (p : Nat) {handler : PhasedLoopHandler}
    (hvalid : handler.phasedLoop.Valid) : Core cfg busy held (s.setPhasedLoop p handler) := by
  refine ⟨h.wakeups, h.queues,
    fun w => (h.watchers w).of_eq Iff.rfl rfl rfl rfl (fun _ => Iff.rfl) fun _ => Iff.rfl, ?_, h.free⟩
  intro p'
  change (update s.phasedLoops p handler p').phasedLoop.Valid
  rw [update_apply]
  split
  · exact hvalid
  · exact h.phased p'

theorem setIntervalAndOffset_spec {loop : PhasedLoop} (interval offset : Int) :
    Ends (· = .badPhase) (fun loop' => loop'.Valid) (loop.setIntervalAndOffset interval offset) := by
  unfold PhasedLoop.setIntervalAndOffset
  simp only []
  split
  · rename_i hvalid
    exact hvalid
  · exact rfl

theorem Good.act (h : Good cfg busy held s₀ s) (action : Action δ) :
    Ends (· = .badPhase) (Good cfg busy held s₀) (s.act cfg action) := by
  cases action with
  | send channel data monotonicRemoteTime remoteQueueIndex =>
    obtain ⟨s', heq, hgood⟩ := h.send channel data monotonicRemoteTime remoteQueueIndex
    rw [Simulation.act, heq]
    exact hgood
  | setupTimer timer base repeatOffset =>
    obtain ⟨s', heq, hgood⟩ := h.setupTimer timer base repeatOffset
    rw [Simulation.act, heq]
    exact hgood
  | disableTimer timer =>
    obtain ⟨s', heq, hgood⟩ := h.disableTimer timer
    rw [Simulation.act, heq]
    exact hgood
  | setIntervalAndOffset p interval offset =>
    refine (setIntervalAndOffset_spec interval offset).bind ?_
    intro loop hloop
    exact ⟨h.core.setPhasedLoop p hloop, h.recorded.of_same rfl rfl rfl, h.keeps.trans (by constructor <;> rfl)⟩

theorem Good.exec (code : UserCode δ σ) (h : Good cfg busy held s₀ s) :
    Ends (· = .badPhase) (Good cfg busy held s₀) (s.exec cfg code) := by
  induction code generalizing s with
  | done locals =>
    exact ⟨h.core.of_same rfl rfl rfl rfl rfl rfl, h.recorded.of_same rfl rfl rfl,
      h.keeps.trans (by constructor <;> rfl)⟩
  | act action rest ih => exact (h.act action).bind fun s' hs' => ih s' hs'

/-! ### Handling an event -/

theorem Core.of_busy {held' : Nat → Prop} (h : Core cfg busy held s)
    (hbusy : ∀ w, busy' = some (.watcher w) ↔ busy = some (.watcher w))
    (hheld : ∀ p, held' p ∨ busy' = some (.phasedLoop p) → held p ∨ busy = some (.phasedLoop p)) :
    Core cfg busy' held' s where
  __ := h
  watchers w := (h.watchers w).of_eq (hbusy w) rfl rfl rfl (fun _ => Iff.rfl) fun _ => Iff.rfl
  free p hp := h.free p (hheld p hp)

theorem Core.popEvent (h : Core cfg none held s) (hpeek : (s.queues loop).peekEvent = some e) :
    Core cfg (some e.handler) held (s.popEvent loop e) ∧ ∀ t, ¬ (s.popEvent loop e).Queued cfg e.handler t := by
  have hmem := (EventQueue.front_spec hpeek).1
  have hloop : cfg.loop e.handler = loop := (h.queues loop).2 e.handler e.eventTime ⟨e, hmem, rfl, rfl⟩
  have hhas : s.Queued cfg e.handler e.eventTime := by
    rw [Queued, hloop]
    exact ⟨e, hmem, rfl, rfl⟩
  obtain ⟨hqueues, hqueued⟩ := removeEvent_spec h.queues e.handler hloop
  have hnot : ∀ t, ¬ (s.popEvent loop e).Queued cfg e.handler t := fun t ht => ((hqueued _ t).mp ht).1 rfl
  refine ⟨⟨h.wakeups, hqueues, ?_, h.phased, ?_⟩, hnot⟩
  · intro w
    by_cases hw : e.handler = .watcher w
    · have hok := h.watchers w
      rw [hw] at hhas hnot
      refine ⟨?_, ?_, hok.armed, ?_, hok.times, hok.sorted⟩
      · intro hnil
        exact absurd hhas ((hok.idle hnil).2.2 _)
      · intro _
        exact hnot
      · intro hb
        exact absurd (congrArg some hw) hb
    · refine (h.watchers w).of_eq ?_ rfl rfl rfl (fun _ => Iff.rfl) ?_
      · simp [hw]
      · intro t
        exact (hqueued (.watcher w) t).trans (and_iff_right (Ne.symm hw))
  · rintro p (hp | hp) t ht
    · exact h.free p (.inl hp) t ((hqueued _ t).mp ht).2
    · exact ((hqueued _ t).mp ht).1 (Option.some.inj hp).symm

theorem Recorded.popEvent (h : Recorded cfg none s) (hqueues : QueuesOk cfg s.queues)
    (hpeek : (s.queues loop).peekEvent = some e) :
    Recorded cfg none (s.popEvent loop e) := by
  refine h.append (o := .handled loop e (s.queues loop).events) rfl ?_ ?_ nofun ?_
  · intro l
    simp only [isStarted, Bool.false_eq_true, or_false]
    rfl
  · intro w
    simp only [sentOn, Option.toList_none, ite_self, append_nil]
    rfl
  · rintro l e' events ⟨⟩
    exact ⟨(EventQueue.front_spec hpeek).1, (EventQueue.front_spec hpeek).2, (hqueues loop).1.generations⟩

theorem Recorded.called (h : Recorded cfg none s) {rest : List (SimulatedMessage δ)} (hmsgs : s.msgs w = m :: rest)
    (htimes : m.monotonicEventTime ≤ s.now ∧ s.now ≤ m.monotonicEventTime + cfg.sendDelay) :
    Recorded cfg (some (.watcher w)) (s.record (.called w m m.context s.now)) := by
  refine h.append (o := .called w m m.context s.now) rfl ?_ ?_ ?_ nofun
  · intro l
    simp only [isStarted, Bool.false_eq_true, or_false]
    rfl
  · intro v
    simp only [sentOn, Option.toList_none, ite_self, append_nil, calledBy, pending]
    by_cases hv : w = v
    · subst hv
      rw [if_pos rfl, if_pos rfl, if_neg (by simp)]
      change [m] ++ (s.msgs w).tail = s.msgs w
      rw [hmsgs]
      rfl
    · rw [if_neg hv, if_neg (by simpa using hv), if_neg (by simp)]
      rfl
  · rintro v m' c t ⟨⟩
    exact ⟨htimes.1, htimes.2, rfl⟩

theorem Recorded.finishWatcher (h : Recorded cfg (some (.watcher w)) s) (htrace : s'.trace = s.trace)
    (hhasRun : s'.hasRun = s.hasRun) (hmsgs : s'.msgs = update s.msgs w (s.msgs w).tail) :
    Recorded cfg none s' where
  started := by
    rw [htrace, hhasRun]
    exact h.started
  accounted v := by
    rw [htrace, ← h.accounted v, pending, pending, hmsgs, if_neg (by simp)]
    by_cases hv : v = w
    · rw [hv, update_self, if_pos rfl]
    · rw [update_of_ne hv, if_neg (by simpa using fun hc => hv hc.symm)]
  onTime := by
    rw [htrace]
    exact h.onTime
  inOrder := by
    rw [htrace]
    exact h.inOrder

theorem Core.finishWatcher (h : Core cfg (some (.watcher w)) held s) :
    ∃ s', ((s.setMsgs w (s.msgs w).tail).deschedule (.watcher w) >>= fun t => t.rearm cfg w) = .ok s' ∧
      Core cfg none held s' ∧ Keeps s s' ∧ s'.trace = s.trace ∧
      s'.msgs = update s.msgs w (s.msgs w).tail := by
  have hw := h.watchers w
  have hunqueued := hw.unqueued rfl
  obtain ⟨wakeups, heq, hwakeups, harmed⟩ :=
    deschedule_spec (s := s.setMsgs w (s.msgs w).tail) h.wakeups (.watcher w)
  rw [heq]
  have hunarmed : ∀ t, ¬ wakeups.Armed (.watcher w) t := fun t ht => ((harmed _ t).mp ht).1 rfl
  have hothers : ∀ v ≠ w, ∀ t, wakeups.Armed (.watcher v) t ↔ s.wakeups.Armed (.watcher v) t := by
    intro v hv t
    exact (harmed _ t).trans (and_iff_right (by simpa using hv))
  have htimes : ∀ m ∈ (s.msgs w).tail, m.monotonicEventTime ≤ s.now ∧
      s.now ≤ m.monotonicEventTime + cfg.sendDelay := fun m hm => hw.times m (mem_of_mem_tail hm)
  have hsorted := hw.sorted.sublist (tail_sublist (s.msgs w))
  cases htail : (s.msgs w).tail with
  | nil =>
    have hself : ((s.setMsgs w []).setWakeups wakeups).msgs w = [] := update_self _ _ _
    refine ⟨(s.setMsgs w []).setWakeups wakeups, ?_, ?_, by constructor <;> rfl, rfl, rfl⟩
    · change ((s.setMsgs w []).setWakeups wakeups).rearm cfg w = _
      rw [rearm, hself]
    · refine ⟨hwakeups, h.queues, ?_, h.phased, fun p hp => h.free p (hp.imp id nofun)⟩
      intro v
      by_cases hv : v = w
      · subst hv
        constructor <;> try rw [hself]
        · intro _
          exact ⟨by simp, hunarmed, hunqueued⟩
        · exact nofun
        · exact nofun
        · exact nofun
        · exact nofun
        · exact nil
      · refine (h.watchers v).of_eq ?_ rfl rfl (update_of_ne hv _ _) (hothers v hv) fun _ => Iff.rfl
        simpa using fun hc => hv hc.symm
  | cons m rest =>
    rw [htail] at htimes hsorted
    have hself : ((s.setMsgs w (m :: rest)).setWakeups wakeups).msgs w = m :: rest := update_self _ _ _
    obtain ⟨queues, wakeups', heq', hwakeups', hqueues', harmed', hqueued'⟩ :=
      arm_spec (s := (s.setMsgs w (m :: rest)).setWakeups wakeups) hwakeups h.queues hunqueued hunarmed
        m.monotonicEventTime m.monotonicEventTime (htimes m mem_cons_self).2
    refine ⟨(((s.setMsgs w (m :: rest)).setWakeups wakeups).setQueues queues).setWakeups wakeups', ?_, ?_,
      by constructor <;> rfl, rfl, rfl⟩
    · change ((s.setMsgs w (m :: rest)).setWakeups wakeups).rearm cfg w = _
      rw [rearm, hself]
      exact heq'
    · refine ⟨hwakeups', hqueues', ?_, h.phased, ?_⟩
      · intro v
        by_cases hv : v = w
        · subst hv
          refine .of_armed nofun hself ((hqueued' _ _).mpr (.inl ⟨rfl, rfl⟩)) ?_ htimes hsorted
          intro t
          exact (harmed' _ t).trans ((or_iff_left (hunarmed t)).trans (and_iff_right rfl))
        · refine (h.watchers v).of_eq (by simpa using fun hc => hv hc.symm) rfl rfl
            (update_of_ne hv _ _) ?_ ?_
          · intro t
            exact ((harmed' _ t).trans (or_iff_right (by simp [hv]))).trans (hothers v hv t)
          · intro t
            exact (hqueued' (.watcher v) t).trans (or_iff_right (by simp [hv]))
      · intro p hp t ht
        rcases (hqueued' _ t).mp ht with ⟨hhandler, -⟩ | ht
        · cases hhandler
        · exact h.free p (hp.imp id nofun) t ht

theorem handleWatcher_spec (hcore : Core cfg (some (.watcher w)) held s) (hrecorded : Recorded cfg none s) :
    Ends (· = .badPhase) (Good cfg none held s) (s.handleWatcher cfg callbacks w) := by
  have hw := hcore.watchers w
  unfold handleWatcher
  cases hmsgs : s.msgs w with
  | nil => exact absurd rfl (hw.idle hmsgs).1
  | cons m rest =>
    have htimes := hw.times m (by rw [hmsgs]; exact mem_cons_self)
    have hgood : Good cfg (some (.watcher w)) held s (s.record (.called w m m.context s.now)) :=
      ⟨hcore.of_same rfl rfl rfl rfl rfl rfl, hrecorded.called hmsgs htimes, by constructor <;> rfl⟩
    refine (hgood.exec (callbacks.watcher w m.context _)).bind ?_
    intro t ht
    obtain ⟨t', heq, hcore', hkeeps', htrace', hmsgs'⟩ := ht.core.finishWatcher
    rw [heq]
    exact ⟨hcore', ht.recorded.finishWatcher htrace' hkeeps'.hasRun hmsgs', ht.keeps.trans hkeeps'⟩

theorem lt_advance {now : Int} {repeatOffset : Nat} (hpos : 0 < repeatOffset) (base : Int) :
    now < advance now repeatOffset base := by
  fun_induction advance now repeatOffset base with
  | case1 base _ ih => exact ih
  | case2 base hnot => omega

theorem rearmTimer_spec (h : Core cfg busy held s) (timer : Nat) (harmed : ∀ t, ¬ s.wakeups.Armed (.timer timer) t)
    (hqueued : ∀ t, ¬ s.Queued cfg (.timer timer) t) :
    ∃ s', s.rearmTimer cfg timer = .ok s' ∧ Core cfg busy held s' ∧ Keeps s s' ∧ s'.trace = s.trace ∧
      s'.msgs = s.msgs := by
  unfold rearmTimer
  split
  · exact ⟨s, rfl, h, Keeps.refl s, rfl, rfl⟩
  · rename_i hrepeat
    exact h.armTimer harmed hqueued _ (lt_advance (Nat.pos_of_ne_zero hrepeat) _).le _

theorem handleTimer_spec {timer : Nat} (hcore : Core cfg none held s) (hrecorded : Recorded cfg none s)
    (hqueued : ∀ t, ¬ s.Queued cfg (.timer timer) t) :
    Ends (· = .badPhase) (Good cfg none held s) (s.handleTimer cfg callbacks timer) := by
  obtain ⟨wakeups, heq, hwakeups, harmed⟩ := deschedule_spec hcore.wakeups (.timer timer)
  have hcore1 : Core cfg none held (s.setWakeups wakeups) := by
    refine ⟨hwakeups, hcore.queues, ?_, hcore.phased, hcore.free⟩
    intro w
    refine (hcore.watchers w).of_eq Iff.rfl rfl rfl rfl ?_ fun _ => Iff.rfl
    intro t
    exact (harmed (.watcher w) t).trans (and_iff_right (by simp))
  obtain ⟨s2, heq2, hcore2, hkeeps2, htrace2, hmsgs2⟩ :=
    rearmTimer_spec hcore1 timer (fun t ht => ((harmed _ t).mp ht).1 rfl) hqueued
  have hkeeps : Keeps s s2 := { hkeeps2 with }
  have hgood : Good cfg none held s s2 := ⟨hcore2, hrecorded.of_same htrace2 hmsgs2 hkeeps.hasRun, hkeeps⟩
  rw [handleTimer, heq]
  change Ends _ _ ((s.setWakeups wakeups).rearmTimer cfg timer >>= _)
  rw [heq2]
  exact hgood.exec (callbacks.timer timer s2)

theorem iterate_spec (h : Core cfg busy held s) (p : Nat) :
    ∃ handler, s.iterate p = .ok (s.setPhasedLoop p handler) ∧ handler.phasedLoop.Valid ∧
      s.now < handler.phasedLoop.lastTime := by
  obtain ⟨cycles, heq⟩ := PhasedLoop.iterate_spec (h.phased p) s.now
  refine ⟨⟨_, (s.phasedLoops p).cyclesElapsed + cycles⟩, ?_, (h.phased p).lastTime _,
    (PhasedLoop.nextTime_spec (h.phased p) s.now).2.1⟩
  rw [iterate, heq]
  rfl

theorem Core.schedulePhasedLoop (h : Core cfg busy held s) (busy' : Option Handler) (held' : Nat → Prop)
    (hfree : ∀ t, ¬ s.Queued cfg (.phasedLoop p) t) (hnow : s.now ≤ s.sleepTime p)
    (hbusy : ∀ w, busy' = some (.watcher w) ↔ busy = some (.watcher w))
    (hheld : ∀ p', held' p' ∨ busy' = some (.phasedLoop p') → p' ≠ p ∧ (held p' ∨ busy = some (.phasedLoop p'))) :
    ∃ s', s.schedulePhasedLoop cfg p = .ok s' ∧ Core cfg busy' held' s' ∧ Keeps s s' ∧ s'.trace = s.trace ∧
      s'.msgs = s.msgs ∧ s'.phasedLoops = s.phasedLoops := by
  obtain ⟨wakeups, heq, hwakeups, harmed⟩ := deschedule_spec h.wakeups (.phasedLoop p)
  obtain ⟨queues, heq', hqueues, hqueued⟩ := addEvent_spec
    (s := (s.setWakeups wakeups).schedule (s.sleepTime p) (.phasedLoop p)) h.queues hfree (s.sleepTime p)
  have hunarmed : ∀ t, ¬ wakeups.Armed (.phasedLoop p) t := fun t ht => ((harmed _ t).mp ht).1 rfl
  refine ⟨((s.setWakeups wakeups).schedule (s.sleepTime p) (.phasedLoop p)).setQueues queues, ?_, ?_,
    by constructor <;> rfl, rfl, rfl, rfl⟩
  · rw [Simulation.schedulePhasedLoop, heq]
    exact heq'
  · refine ⟨hwakeups.schedule hunarmed hnow, hqueues, ?_, h.phased, ?_⟩
    · intro w
      refine (h.watchers w).of_eq (hbusy w) rfl rfl rfl ?_ ?_
      · intro t
        have hschedule : (wakeups.schedule (s.sleepTime p) (.phasedLoop p)).Armed (.watcher w) t ↔
            wakeups.Armed (.watcher w) t :=
          (Wakeups.armed_schedule (Handler.watcher w) t).trans (or_iff_right (by simp))
        exact hschedule.trans ((harmed _ t).trans (and_iff_right (by simp)))
      · intro t
        exact (hqueued (.watcher w) t).trans (or_iff_right (by simp))
    · intro p' hp' t ht
      obtain ⟨hne, hp'⟩ := hheld p' hp'
      rcases (hqueued _ t).mp ht with ⟨hhandler, -⟩ | ht
      · exact hne (Handler.phasedLoop.inj hhandler)
      · exact h.free p' hp' t ht

theorem callPhasedLoop_spec (callbacks : Callbacks δ σ) (hcore : Core cfg (some (.phasedLoop p)) held s)
    (hrecorded : Recorded cfg none s) :
    Ends (· = .badPhase) (Good cfg (some (.phasedLoop p)) held s) (s.callPhasedLoop cfg callbacks p) := by
  obtain ⟨handler, heq, hvalid, -⟩ := iterate_spec hcore p
  have hgood : Good cfg (some (.phasedLoop p)) held s (s.setPhasedLoop p handler) :=
    ⟨hcore.setPhasedLoop p hvalid, (hrecorded.of_busy (by simp)).of_same rfl rfl rfl, by constructor <;> rfl⟩
  rw [callPhasedLoop, heq]
  exact hgood.exec _

theorem sleepTime_clearCycles (s : Simulation δ σ) (p : Nat) : (s.clearCycles p).sleepTime p = s.sleepTime p := by
  simp [sleepTime, clearCycles, setPhasedLoop, update_self]

theorem finishPhasedLoop_spec (h : Good cfg (some (.phasedLoop p)) held s₀ s)
    (hheld : ¬ held p) (hnow : s.now ≤ s.sleepTime p) :
    ∃ s', s.finishPhasedLoop cfg p = .ok s' ∧ Good cfg none held s₀ s' := by
  have hsleep := sleepTime_clearCycles s p
  have hcore : Core cfg (some (.phasedLoop p)) held (s.clearCycles p) := h.core.setPhasedLoop p (h.core.phased p)
  obtain ⟨s', heq, hcore', hkeeps, htrace, hmsgs, hphased⟩ :=
    hcore.schedulePhasedLoop none held (h.core.free p (.inr rfl)) (hsleep.symm ▸ hnow) (by simp) (by
        intro p' hp'
        have hp' : held p' := hp'.resolve_right nofun
        exact ⟨fun hc => hheld (hc ▸ hp'), .inl hp'⟩)
  have hkeeps' : Keeps s s' := { hkeeps with }
  have hsleep' : s'.sleepTime p = s.sleepTime p := by
    rw [← hsleep, sleepTime, hphased]
    rfl
  refine ⟨s', ?_, hcore', ?_, h.keeps.trans hkeeps'⟩
  · rw [finishPhasedLoop, heq]
    exact if_neg (by rw [hkeeps'.now, hsleep']; exact not_lt.mpr hnow)
  · exact (h.recorded.of_busy (by simp)).of_same htrace hmsgs hkeeps'.hasRun

theorem finishPhasedLoop_eq_error (h : Core cfg (some (.phasedLoop p)) held s)
    (hlate : s.sleepTime p < s.now) : s.finishPhasedLoop cfg p = .error .alreadyQueued := by
  have hcore : Core cfg (some (.phasedLoop p)) held (s.clearCycles p) := h.setPhasedLoop p (h.phased p)
  rw [← sleepTime_clearCycles s p] at hlate
  -- the first time, at a time that has passed
  obtain ⟨wakeups, heq, hwakeups, harmed⟩ := deschedule_spec hcore.wakeups (.phasedLoop p)
  let s1 := ((s.clearCycles p).setWakeups wakeups).schedule ((s.clearCycles p).sleepTime p) (.phasedLoop p)
  have hwakeups1 : s1.wakeups.Valid ((s.clearCycles p).sleepTime p) :=
    (hwakeups.mono fun x hx => hlate.le.trans (hwakeups.future x hx)).schedule
      (fun t ht => ((harmed _ t).mp ht).1 rfl) le_rfl
  obtain ⟨queues, heq1, -, hqueued⟩ :=
    addEvent_spec (s := s1) hcore.queues (hcore.free p (.inr rfl)) ((s.clearCycles p).sleepTime p)
  have hfirst : (s.clearCycles p).schedulePhasedLoop cfg p = .ok (s1.setQueues queues) := by
    rw [schedulePhasedLoop, heq]
    exact heq1
  -- and again for the next time that has not
  obtain ⟨cycles, hiterate⟩ := PhasedLoop.iterate_spec (hcore.phased p) s.now
  obtain ⟨wakeups', heq', -, -⟩ := hwakeups1.deschedule (.phasedLoop p)
  rw [finishPhasedLoop, hfirst]
  change (if s.now > (s.clearCycles p).sleepTime p then _ else _) = _
  rw [if_pos hlate, reschedule, iterate]
  change (((s.clearCycles p).phasedLoops p).phasedLoop.iterate s.now >>= _) >>= _ = _
  rw [hiterate]
  change (s1.wakeups.deschedule (.phasedLoop p) >>= _) >>= _ = _
  rw [heq']
  change ((queues (cfg.loop (.phasedLoop p))).addEvent (.phasedLoop p) _ >>= _) = _
  rw [EventQueue.addEvent_eq_error ⟨_, (hqueued _ _).mpr (.inl ⟨rfl, rfl⟩)⟩]
  rfl

def Steady (cfg : NodeConfig) (callbacks : Callbacks δ σ) (s : Simulation δ σ) : Prop :=
  ∀ loop event p s', s.active = some loop → (s.queues loop).peekEvent = some event → event.handler = .phasedLoop p →
    event.eventTime ≤ s.now → (s.popEvent loop event).callPhasedLoop cfg callbacks p = .ok s' → s'.now ≤ s'.sleepTime p

theorem handle_spec (hcore : Core cfg none held s) (hrecorded : Recorded cfg none s)
    (hsteady : s.Steady cfg callbacks) (hactive : s.active = some loop)
    (hpeek : (s.queues loop).peekEvent = some e) (hdue : e.eventTime ≤ s.now) :
    Ends (· = .badPhase) (Good cfg none held s) ((s.popEvent loop e).handle cfg callbacks e.handler) := by
  have hmem := (EventQueue.front_spec hpeek).1
  obtain ⟨hcore', hqueued⟩ := hcore.popEvent hpeek
  have hrecorded' := hrecorded.popEvent hcore.queues hpeek
  have hkeeps : Keeps s (s.popEvent loop e) := by constructor <;> rfl
  refine Ends.mono (P := Good cfg none held (s.popEvent loop e)) ?_ (fun _ herror => herror)
    fun s' _ hs' => ⟨hs'.core, hs'.recorded, hkeeps.trans hs'.keeps⟩
  cases hhandler : e.handler with
  | watcher w =>
    rw [hhandler] at hcore'
    exact handleWatcher_spec hcore' hrecorded'
  | timer t =>
    rw [hhandler] at hcore' hqueued
    exact handleTimer_spec (hcore'.of_busy (by simp) (by simp)) hrecorded' hqueued
  | phasedLoop p =>
    rw [hhandler] at hcore'
    have hheld : ¬ held p := by
      intro hp
      apply hcore.free p (.inl hp) e.eventTime
      rw [Queued, ← hhandler, (hcore.queues loop).2 e.handler e.eventTime ⟨e, hmem, rfl, rfl⟩]
      exact ⟨e, hmem, rfl, rfl⟩
    rw [handle]
    refine (callPhasedLoop_spec callbacks hcore' hrecorded').bind_eq (fun _ => id) fun s1 hresult hcall => ?_
    obtain ⟨s', heq, hgood⟩ :=
      finishPhasedLoop_spec hcall hheld (hsteady loop e p s1 hactive hpeek hhandler hdue hresult)
    rw [heq]
    exact hgood

section

variable (h : Core cfg none held s)

include h

theorem Core.leave (hactive : s.active = some loop)
    (hquiet : ∀ e, (s.queues loop).peekEvent = some e → s.now < e.eventTime) :
    Core cfg none held { s with active := none } := by
  refine ⟨h.wakeups, h.queues, ?_, h.phased, h.free⟩
  intro w
  have hw := h.watchers w
  refine { hw with waiting := ?_ }
  intro _ m rest hmsgs
  obtain ⟨hqueued, harmed | hloop⟩ := hw.waiting nofun m rest hmsgs
  · exact ⟨hqueued, .inl harmed⟩
  · have hloop : loop = cfg.loop (.watcher w) := Option.some.inj (hactive.symm.trans hloop)
    obtain ⟨e, hpeek, he⟩ := hqueued.exists_peekEvent
    have hnow := (hw.times m (by rw [hmsgs]; exact mem_cons_self)).1
    have hlt := hquiet e (hloop ▸ hpeek)
    omega

theorem Core.exists_armed (hactive : s.active = none)
    (hm : m ∈ s.msgs w) : ∃ t, s.wakeups.Armed (.watcher w) t ∧ t ≤ m.monotonicEventTime + cfg.sendDelay := by
  have hw := h.watchers w
  cases hmsgs : s.msgs w with
  | nil =>
    rw [hmsgs] at hm
    cases hm
  | cons first rest =>
    obtain ⟨-, ⟨t, harmed⟩ | hloop⟩ := hw.waiting nofun first rest hmsgs
    · refine ⟨t, harmed, ?_⟩
      rw [hw.armed first rest hmsgs t harmed]
      apply Int.add_le_add_right
      have hsorted := hw.sorted
      rw [hmsgs] at hsorted hm
      rcases mem_cons.mp hm with rfl | hm
      · exact le_rfl
      · exact (pairwise_cons.mp hsorted).1 m hm
    · rw [hactive] at hloop
      cases hloop

theorem Core.setNow (hactive : s.active = none) {time : Int} (hnow : s.now ≤ time)
    (hle : ∀ handler t, s.wakeups.Armed handler t → time ≤ t) : Core cfg none held { s with now := time } := by
  refine ⟨h.wakeups.mono fun x hx => hle x.value x.key ⟨x, hx, rfl, rfl⟩, h.queues, ?_, h.phased, h.free⟩
  intro w
  have hw := h.watchers w
  refine { hw with times := ?_ }
  intro m hm
  obtain ⟨t, harmed, ht⟩ := h.exists_armed hactive hm
  exact ⟨(hw.times m hm).1.trans hnow, (hle _ t harmed).trans ht⟩

theorem Core.wake {x : Multimap.Entry Int Handler}
    {rest : List (Multimap.Entry Int Handler)} (hlist : s.wakeups.eventsList = x :: rest) (hactive : s.active = none)
    (hnow : s.now = x.key) :
    ∃ s', s.wake cfg x.value rest = .ok s' ∧ Core cfg none held s' ∧
      s' = { s with wakeups := s.wakeups.fire x.value rest, active := some (cfg.loop x.value) } := by
  obtain ⟨htoken, -, -, hvalid, harmed⟩ := h.wakeups.fire hlist
  refine ⟨_, if_neg (by rw [htoken]; exact nofun), ?_, rfl⟩
  refine ⟨hnow ▸ hvalid, h.queues, ?_, h.phased, h.free⟩
  intro w
  have hw := h.watchers w
  refine ⟨?_, hw.unqueued, ?_, ?_, hw.times, hw.sorted⟩
  · intro hnil
    obtain ⟨hb, hunarmed, hunqueued⟩ := hw.idle hnil
    exact ⟨hb, fun t ht => hunarmed t ((harmed _ t).mp ht).2, hunqueued⟩
  · intro m rest' hmsgs t ht
    exact hw.armed m rest' hmsgs t ((harmed _ t).mp ht).2
  · intro hb m rest' hmsgs
    obtain ⟨hqueued, ⟨t, ht⟩ | hloop⟩ := hw.waiting hb m rest' hmsgs
    · refine ⟨hqueued, ?_⟩
      by_cases hx : Handler.watcher w = x.value
      · exact .inr (by rw [hx])
      · exact .inl ⟨t, (harmed _ t).mpr ⟨hx, ht⟩⟩
    · rw [hactive] at hloop
      cases hloop

end

/-! ### Whole runs -/

def Unscheduled (s : Simulation δ σ) (p : Nat) : Prop := OnRun.phasedLoop p ∈ s.onRun ∨ p ∉ s.createdPhasedLoops

/-- What holds between any two iterations of the loops, and between runs. -/
structure Sound (cfg : NodeConfig) (s : Simulation δ σ) : Prop where
  core : Core cfg none s.Unscheduled s
  recorded : Recorded cfg none s
  running : s.isRunning = true → s.onRun = [] ∧ s.now ≤ s.endTime ∧ s.endTime ≤ maxTime
  active : s.active ≠ none → s.isRunning = true
  created : ∀ p, .phasedLoop p ∈ s.onRun → p ∈ s.createdPhasedLoops
  distinct : s.onRun.Pairwise fun a b => ∀ p, a = .phasedLoop p → b ≠ .phasedLoop p

section

variable (h : Sound cfg s)

include h

theorem Sound.of_good (hgood : Good cfg none s.Unscheduled s s') : Sound cfg s' := by
  have hkeeps := hgood.keeps
  constructor
  · refine hgood.core.of_busy (by simp) ?_
    simp only [Unscheduled, hkeeps.onRun, hkeeps.createdPhasedLoops]
    exact fun _ hp => hp
  · exact hgood.recorded
  · rw [hkeeps.isRunning, hkeeps.onRun, hkeeps.now, hkeeps.endTime]
    exact h.running
  · rw [hkeeps.active, hkeeps.isRunning]
    exact h.active
  · rw [hkeeps.onRun, hkeeps.createdPhasedLoops]
    exact h.created
  · rw [hkeeps.onRun]
    exact h.distinct

theorem Sound.handleEvent (hsteady : s.Steady cfg callbacks) (hactive : s.active = some loop) :
    Ends (· = .badPhase) (fun s' => Sound cfg s' ∧ s'.isRunning = s.isRunning) (s.handleEvent cfg callbacks loop) := by
  have hleave : (∀ e, (s.queues loop).peekEvent = some e → s.now < e.eventTime) →
      Sound cfg { s with active := none } := by
    intro hquiet
    exact ⟨h.core.leave hactive hquiet, h.recorded.of_same rfl rfl rfl, h.running, fun hne => absurd rfl hne, h.created,
      h.distinct⟩
  unfold Simulation.handleEvent
  cases hpeek : (s.queues loop).peekEvent with
  | none =>
    refine ⟨hleave ?_, rfl⟩
    rw [hpeek]
    exact nofun
  | some e =>
    change Ends _ _ (if e.eventTime > s.now then _ else _)
    split
    · rename_i hlater
      refine ⟨hleave ?_, rfl⟩
      intro e' he'
      obtain rfl := Option.some.inj (hpeek.symm.trans he')
      exact hlater
    · rename_i hdue
      exact (handle_spec h.core h.recorded hsteady hactive hpeek (not_lt.mp hdue)).mono (fun _ herror => herror)
        fun s' _ hs' => ⟨h.of_good hs', hs'.keeps.isRunning⟩

/-- At the end of a run nothing is left that was due. -/
def Finished (cfg : NodeConfig) (s : Simulation δ σ) : Prop :=
  ∀ w, ∀ m ∈ s.msgs w, s.now < m.monotonicEventTime + cfg.sendDelay ∨ maxTime ≤ m.monotonicEventTime + cfg.sendDelay

theorem Sound.stop (hrunning : s.isRunning = true) (hactive : s.active = none)
    (hle : ∀ handler t, s.wakeups.Armed handler t → s.endTime < t ∨ maxTime ≤ t) :
    Sound cfg s.stop ∧ Finished cfg s.stop := by
  obtain ⟨honRun, hnow, hend⟩ := h.running hrunning
  have hcore : Core cfg none s.Unscheduled { s with now := s.endTime } :=
    h.core.setNow hactive hnow fun handler t ht => (hle handler t ht).elim Int.le_of_lt hend.trans
  refine ⟨⟨hcore.of_same rfl rfl rfl rfl rfl rfl, h.recorded.of_same rfl rfl rfl, nofun,
    fun hne => absurd hactive hne, h.created, h.distinct⟩, ?_⟩
  intro w m hm
  obtain ⟨t, harmed, ht⟩ := h.core.exists_armed hactive hm
  exact (hle _ t harmed).imp (fun hlt => hlt.trans_le ht) fun hmax => hmax.trans ht

theorem Sound.runNext (hrunning : s.isRunning = true) (hactive : s.active = none) :
    ∃ s', s.runNext cfg = .ok s' ∧ Sound cfg s' ∧ (s'.isRunning = false → Finished cfg s') := by
  unfold Simulation.runNext
  cases hlist : s.wakeups.eventsList with
  | nil =>
    obtain ⟨hsound, hfinished⟩ := h.stop hrunning hactive (by
      rintro handler t ⟨x, hx, -⟩
      rw [hlist] at hx
      cases hx)
    exact ⟨s.stop, rfl, hsound, fun _ => hfinished⟩
  | cons x rest =>
    obtain ⟨-, hnow, hfirst, -, -⟩ := h.core.wakeups.fire hlist
    change ∃ s', (if x.key = maxTime ∨ x.key > s.endTime then _ else _) = _ ∧ _
    split
    · obtain ⟨hsound, hfinished⟩ := h.stop hrunning hactive (by
        intro handler t ht
        have hle := hfirst handler t ht
        omega)
      exact ⟨s.stop, rfl, hsound, fun _ => hfinished⟩
    · obtain ⟨honRun, -, hend⟩ := h.running hrunning
      have hcore : Core cfg none s.Unscheduled { s with now := x.key } := h.core.setNow hactive hnow hfirst
      obtain ⟨s', heq, hcore', rfl⟩ := hcore.wake hlist hactive rfl
      rw [if_pos (by omega), heq]
      refine ⟨_, rfl, ⟨hcore', h.recorded.of_same rfl rfl rfl, fun _ => ⟨honRun, ?_, hend⟩, fun _ => hrunning,
        h.created, h.distinct⟩, ?_⟩
      · change x.key ≤ s.endTime
        omega
      · intro hstopped
        rw [hrunning] at hstopped
        cases hstopped

theorem Sound.tick (hsteady : s.Steady cfg callbacks) :
    Ends (· = .badPhase) (fun s' => Sound cfg s' ∧ (s.isRunning = true → s'.isRunning = false → Finished cfg s'))
      (s.tick cfg callbacks) := by
  unfold Simulation.tick
  cases hrunning : s.isRunning with
  | false => exact ⟨h, nofun⟩
  | true =>
    cases hactive : s.active with
    | some loop =>
      refine (h.handleEvent hsteady hactive).mono (fun _ herror => herror) ?_
      intro s' _ hs'
      refine ⟨hs'.1, ?_⟩
      rw [hs'.2, hrunning]
      exact nofun
    | none =>
      obtain ⟨s', heq, hsound, hfinished⟩ := h.runNext hrunning hactive
      rw [heq]
      exact ⟨hsound, fun _ => hfinished⟩

theorem Sound.steady_iff : s.Steady cfg callbacks ↔ s.tick cfg callbacks ≠ .error .alreadyQueued := by
  constructor
  · intro hsteady herror
    have htick := h.tick hsteady
    rw [herror] at htick
    cases htick
  · intro hne loop e p s' hactive hpeek hhandler hdue hcall
    by_contra hlate
    apply hne
    have hrunning := h.active (by rw [hactive]; exact nofun)
    obtain ⟨hcore, -⟩ := h.core.popEvent hpeek
    rw [hhandler] at hcore
    have hgood := callPhasedLoop_spec callbacks hcore (h.recorded.popEvent h.core.queues hpeek)
    rw [hcall] at hgood
    rw [Simulation.tick, hrunning, hactive]
    change s.handleEvent cfg callbacks loop = _
    rw [Simulation.handleEvent, hpeek]
    change (if e.eventTime > s.now then _ else _) = _
    rw [if_neg (not_lt.mpr hdue), hhandler, handle, hcall]
    exact finishPhasedLoop_eq_error hgood.core (not_le.mp hlate)

/-! ### Starting a run -/

omit h in
theorem Recorded.setIsRunning (h : Recorded cfg none s) (loop : Nat) : Recorded cfg none (s.setIsRunning loop) := by
  refine h.append (o := .started loop) rfl ?_ ?_ nofun nofun
  · intro l
    simp only [Simulation.setIsRunning, record, update_apply, isStarted, decide_eq_true_eq]
    split
    · rename_i hl
      simp [hl]
    · rename_i hl
      simp [Ne.symm hl]
  · intro w
    simp only [sentOn, Option.toList_none, ite_self, append_nil]
    rfl

omit h in
theorem setIsRunning_all (loops : List Nat) (h : Recorded cfg none s) :
    ∃ hasRun trace, loops.foldl setIsRunning s = { s with hasRun, trace } ∧
      Recorded cfg none (loops.foldl setIsRunning s) := by
  induction loops generalizing s with
  | nil => exact ⟨s.hasRun, s.trace, rfl, h⟩
  | cons loop rest ih => exact ih (h.setIsRunning loop)

omit h in
theorem reschedule_spec (h : Core cfg none held s) (hp : held p) (held' : Nat → Prop)
    (hheld : ∀ p', held' p' → p' ≠ p ∧ held p') :
    ∃ s', s.reschedule cfg p = .ok s' ∧ Core cfg none held' s' ∧ Keeps s s' ∧ s'.trace = s.trace ∧
      s'.msgs = s.msgs := by
  obtain ⟨handler, heq, hvalid, hnow⟩ := iterate_spec h p
  have hsleep : (s.setPhasedLoop p handler).sleepTime p = handler.phasedLoop.lastTime := by
    simp [sleepTime, setPhasedLoop, update_self]
  obtain ⟨s', heq', hcore, hkeeps, htrace, hmsgs, -⟩ :=
    (h.setPhasedLoop p hvalid).schedulePhasedLoop none held' (h.free p (.inl hp)) (hsleep ▸ hnow.le) (by simp) (by
      intro p' hp'
      obtain ⟨hne, hheld⟩ := hheld p' (hp'.resolve_right nofun)
      exact ⟨hne, .inl hheld⟩)
  refine ⟨s', ?_, hcore, { hkeeps with }, htrace, hmsgs⟩
  rw [reschedule, heq]
  exact heq'

omit h in
theorem runCallbacks_spec (outside : Nat → Prop) (todo : List OnRun)
    (h : Good cfg none (fun p => .phasedLoop p ∈ todo ∨ outside p) s₀ s)
    (hinside : ∀ p, .phasedLoop p ∈ todo → ¬ outside p)
    (hdistinct : todo.Pairwise fun a b => ∀ p, a = .phasedLoop p → b ≠ .phasedLoop p) :
    Ends (· = .badPhase) (Good cfg none outside s₀) (todo.foldlM (runCallback cfg callbacks) s) := by
  induction todo generalizing s with
  | nil => exact ⟨h.core.of_busy (by simp) (by simp), h.recorded, h.keeps⟩
  | cons callback rest ih =>
    obtain ⟨hfirst, hrest⟩ := pairwise_cons.mp hdistinct
    have hinside' : ∀ p, .phasedLoop p ∈ rest → ¬ outside p := fun p hp => hinside p (mem_cons_of_mem _ hp)
    rw [foldlM_cons]
    cases callback with
    | user index =>
      have hgood : Good cfg none (fun p => .phasedLoop p ∈ rest ∨ outside p) s₀ s :=
        ⟨h.core.of_busy (by simp) (by simp), h.recorded, h.keeps⟩
      refine (hgood.exec (callbacks.onRun index s)).bind ?_
      intro s' hs'
      exact ih hs' hinside' hrest
    | phasedLoop p =>
      obtain ⟨time, hreset⟩ := PhasedLoop.reset_spec (h.core.phased p) s.now
      let reset : PhasedLoop := { (s.phasedLoops p).phasedLoop with lastTime := time }
      have hcore : Core cfg none _ (s.setPhasedLoop p { s.phasedLoops p with phasedLoop := reset }) :=
        h.core.setPhasedLoop p ((h.core.phased p).lastTime time)
      obtain ⟨s1, heq, hcore1, hkeeps1, htrace1, hmsgs1⟩ :=
        reschedule_spec hcore (.inl mem_cons_self) (fun p' => .phasedLoop p' ∈ rest ∨ outside p') (by
          rintro p' (hp' | hp')
          · exact ⟨fun hc => hfirst _ hp' p rfl (hc ▸ rfl), .inl (mem_cons_of_mem _ hp')⟩
          · exact ⟨fun hc => hinside p mem_cons_self (hc ▸ hp'), .inr hp'⟩)
      have hkeeps : Keeps s s1 := { hkeeps1 with }
      have hgood : Good cfg none (fun p' => .phasedLoop p' ∈ rest ∨ outside p') s₀ (s1.clearCycles p) :=
        ⟨hcore1.setPhasedLoop p (hcore1.phased p),
          h.recorded.of_same htrace1 hmsgs1 hkeeps.hasRun, h.keeps.trans { hkeeps with }⟩
      rw [runCallback, hreset]
      change Ends _ _ (((s.setPhasedLoop p _).reschedule cfg p >>= _) >>= _)
      rw [heq]
      exact ih hgood hinside' hrest

theorem Sound.startRun {duration : Nat} (hduration : s.now + duration ≤ maxTime) :
    Ends (· = .badPhase) (Sound cfg) (s.startRun cfg callbacks duration) := by
  obtain ⟨hasRun, trace, heq, hrecorded⟩ := setIsRunning_all s.eventLoops h.recorded
  unfold Simulation.startRun
  rw [heq] at hrecorded ⊢
  let s1 : Simulation δ σ := { s with hasRun, trace, isRunning := true, endTime := s.now + duration }
  have hgood : Good cfg none s.Unscheduled s1 s1 :=
    ⟨h.core.of_same rfl rfl rfl rfl rfl rfl, hrecorded.of_same rfl rfl rfl, Keeps.refl s1⟩
  refine (runCallbacks_spec (· ∉ s.createdPhasedLoops) s.onRun hgood
    (fun p hp hnot => hnot (h.created p hp)) h.distinct).bind ?_
  intro s' hs'
  have hkeeps := hs'.keeps
  have hcore : Core cfg none (fun p => p ∉ s'.createdPhasedLoops) s' := by
    rw [hkeeps.createdPhasedLoops]
    exact hs'.core
  constructor
  · exact (hcore.of_busy (by simp) (by simp [Unscheduled])).of_same rfl rfl rfl rfl rfl rfl
  · exact hs'.recorded.of_same rfl rfl rfl
  · intro _
    rw [hkeeps.now, hkeeps.endTime]
    exact ⟨rfl, by change s.now ≤ s.now + duration; omega, hduration⟩
  · intro _
    exact hkeeps.isRunning
  · exact nofun
  · exact nil

omit h in
theorem create_spec (interval now offset : Int) :
    Ends (· = .badPhase) PhasedLoop.Valid (PhasedLoop.create interval now offset) := by
  unfold PhasedLoop.create
  split
  · rename_i hvalid
    obtain ⟨time, heq⟩ := PhasedLoop.reset_spec hvalid now
    rw [heq]
    exact hvalid.lastTime time
  · exact rfl

theorem Sound.addPhasedLoop (hp : p ∉ s.createdPhasedLoops) (hrunning : ¬ s.isRunning)
    (interval offset : Int) : Ends (· = .badPhase) (Sound cfg) (s.addPhasedLoop p interval offset) := by
  refine (create_spec interval s.now offset).bind ?_
  intro loop hloop
  have hcore : Core cfg none s.Unscheduled (s.setPhasedLoop p ⟨loop, 0⟩) := h.core.setPhasedLoop p hloop
  have hold : ∀ p', .phasedLoop p' ∈ s.onRun ++ [.phasedLoop p] ∨ p' ∉ s.createdPhasedLoops ++ [p] →
      s.Unscheduled p' := by
    intro p' hp'
    simp only [mem_append, mem_singleton, OnRun.phasedLoop.injEq, not_or] at hp'
    rcases hp' with (hmem | rfl) | hnot
    · exact .inl hmem
    · exact .inr hp
    · exact .inr hnot.1
  constructor
  · exact (hcore.of_busy (by simp) fun p' hp' => hp'.imp (hold p') id).of_same rfl rfl rfl rfl rfl rfl
  · exact h.recorded.of_same rfl rfl rfl
  · intro hc
    exact absurd hc hrunning
  · exact h.active
  · intro p' hp'
    rcases mem_append.mp hp' with hmem | hmem
    · exact mem_append_left _ (h.created p' hmem)
    · rw [OnRun.phasedLoop.inj (mem_singleton.mp hmem)]
      exact mem_append_right _ mem_cons_self
  · rw [pairwise_append]
    refine ⟨h.distinct, pairwise_singleton _ _, ?_⟩
    rintro a ha b hb p' rfl rfl
    rw [OnRun.phasedLoop.inj (mem_singleton.mp hb)] at ha
    exact hp (h.created p ha)

theorem Sound.onRun (hrunning : ¬ s.isRunning) (index : Nat) :
    Sound cfg { s with onRun := s.onRun ++ [.user index] } := by
  have hmem : ∀ p, OnRun.phasedLoop p ∈ s.onRun ++ [.user index] ↔ .phasedLoop p ∈ s.onRun := by simp
  constructor
  · refine (h.core.of_busy (by simp) ?_).of_same rfl rfl rfl rfl rfl rfl
    simp only [Unscheduled, hmem]
    exact fun _ hp => hp
  · exact h.recorded.of_same rfl rfl rfl
  · intro hc
    exact absurd hc hrunning
  · exact h.active
  · intro p hp
    exact h.created p ((hmem p).mp hp)
  · rw [pairwise_append]
    refine ⟨h.distinct, pairwise_singleton _ _, ?_⟩
    intro a _ b hb p _ hc
    rw [mem_singleton.mp hb] at hc
    cases hc

/-- No phased loop's callback moves its next time into the past, and runs end at times the clock has. -/
def Allowed (cfg : NodeConfig) (callbacks : Callbacks δ σ) (s : Simulation δ σ) : Label δ σ → Prop
  | .tick => s.Steady cfg callbacks
  | .runFor duration => s.now + duration ≤ maxTime
  | _ => True

/-- Every step keeps the invariant. What can still fail is a bad interval or offset, and a call that is only for between
runs. -/
theorem Sound.step {label : Label δ σ} (hallowed : Allowed cfg callbacks s label) :
    Ends (fun e => e = .badPhase ∨ e = .alreadyRunning) (Sound cfg) (s.step cfg callbacks label) := by
  cases label with
  | tick => exact (h.tick hallowed).mono (fun _ => .inl) fun _ _ hs' => hs'.1
  | call code =>
    change Ends _ _ (if s.isRunning then _ else _)
    split
    · exact .inr rfl
    · have hgood : Good cfg none s.Unscheduled s s := ⟨h.core, h.recorded, Keeps.refl s⟩
      exact (hgood.exec code).mono (fun _ => .inl) fun _ _ hs' => h.of_good hs'
  | makeEventLoop loop =>
    change Ends _ _ (if s.isRunning then _ else _)
    split
    · exact .inr rfl
    · exact ⟨h.core.of_same rfl rfl rfl rfl rfl rfl, h.recorded.of_same rfl rfl rfl, h.running, h.active, h.created,
        h.distinct⟩
  | addPhasedLoop p interval offset =>
    change Ends _ _ (if s.isRunning ∨ p ∈ s.createdPhasedLoops then _ else _)
    split
    · exact .inr rfl
    · rename_i hnot
      obtain ⟨hrunning, hp⟩ := not_or.mp hnot
      exact (h.addPhasedLoop hp hrunning interval offset).mono (fun _ => .inl) fun _ _ hs' => hs'
  | onRun index =>
    change Ends _ _ (if s.isRunning then _ else _)
    split
    · exact .inr rfl
    · rename_i hrunning
      exact h.onRun hrunning index
  | runFor duration =>
    change Ends _ _ (if s.isRunning then _ else _)
    split
    · exact .inr rfl
    · exact (h.startRun hallowed).mono (fun _ => .inl) fun _ _ hs' => hs'

omit h in
theorem Sound.init (cfg : NodeConfig) (nextQueueIndex : Nat → IpcLib.QueueIndex) (locals : σ) :
    Sound cfg ({ nextQueueIndex, locals } : Simulation δ σ) := by
  have hqueued : ∀ handler t, ¬ Queued cfg ({ nextQueueIndex, locals } : Simulation δ σ) handler t := by
    rintro handler t ⟨e, he, -⟩
    cases he
  have harmed : ∀ handler t, ¬ ({} : Wakeups Handler).Armed handler t := by
    rintro handler t ⟨e, he, -⟩
    cases he
  refine ⟨⟨Wakeups.valid_empty, ?_, ?_, ?_, ?_⟩, ⟨?_, ?_, nofun, nofun⟩, nofun, fun hne => absurd rfl hne, nofun,
    nil⟩
  · intro l
    refine ⟨EventQueue.valid_empty, ?_⟩
    rintro handler t ⟨e, he, -⟩
    cases he
  · intro w
    exact ⟨fun _ => ⟨nofun, harmed _, hqueued _⟩, nofun, nofun, nofun, nofun, nil⟩
  · intro p
    change PhasedLoop.Valid {}
    decide
  · intro p _
    exact hqueued _
  · intro l
    simp [Started]
  · intro w
    rfl

structure Delivers (cfg : NodeConfig) (s : Simulation δ σ) : Prop where
  exactlyOnce : ∀ w, calls w s.trace ++ s.msgs w = sentSince cfg w s.trace
  onTime : ∀ w m c (t : Int), .called w m c t ∈ s.trace →
    m.monotonicEventTime ≤ t ∧ t ≤ m.monotonicEventTime + cfg.sendDelay ∧ c = m.context
  notOverdue : ∀ w, ∀ m ∈ s.msgs w, s.now ≤ m.monotonicEventTime + cfg.sendDelay
  inOrder : ∀ l e events, .handled l e events ∈ s.trace →
    e ∈ events ∧ (∀ x ∈ events, e.NoLater x) ∧ (events.map QueuedEvent.generation).Pairwise (· < ·)

theorem Sound.delivers : Delivers cfg s where
  exactlyOnce w := by
    have haccounted := h.recorded.accounted w
    exact haccounted
  onTime := h.recorded.onTime
  notOverdue w m hm := ((h.core.watchers w).times m hm).2
  inOrder := h.recorded.inOrder

end

theorem sound_of_run {nextQueueIndex : Nat → IpcLib.QueueIndex} {locals : σ}
    (h : Transition.Run (fun s label => (s.step cfg callbacks label).toOption) (Allowed cfg callbacks)
      { nextQueueIndex, locals } s) : Sound cfg s := by
  refine h.invariant ?_ (Sound.init cfg nextQueueIndex locals)
  intro u label v hu hallowed hstep
  exact (hu.step hallowed).ok (Fallible.toOption_eq_some.mp hstep)

/-- When no phased loop's callback moves its own next time into the past, every watcher is called for every message sent
since its event loop started, once, in order and in time, and events are handled in order. An iteration then fails for
nothing but bad intervals; otherwise an event is added twice. -/
theorem watchers_see_every_message_once (cfg : NodeConfig) (callbacks : Callbacks δ σ)
    (nextQueueIndex : Nat → IpcLib.QueueIndex) (locals : σ)
    (h : Transition.Run (fun s label => (s.step cfg callbacks label).toOption) (Allowed cfg callbacks)
      { nextQueueIndex, locals } s) :
    Delivers cfg s ∧
      (∀ label error, Allowed cfg callbacks s label → s.step cfg callbacks label = .error error →
        error = .badPhase ∨ error = .alreadyRunning) ∧
      (∀ s', Allowed cfg callbacks s .tick → s.step cfg callbacks .tick = .ok s' → s.isRunning = true →
        s'.isRunning = false → Finished cfg s') ∧
      (Allowed cfg callbacks s .tick ↔ s.step cfg callbacks .tick ≠ .error .alreadyQueued) := by
  have hsound := sound_of_run h
  refine ⟨hsound.delivers, ?_, ?_, hsound.steady_iff⟩
  · intro label error hallowed herror
    have hends := hsound.step hallowed
    rw [herror] at hends
    exact hends
  · intro s' hsteady hok
    have htick := hsound.tick hsteady
    change s.tick cfg callbacks = .ok s' at hok
    rw [hok] at htick
    exact htick.2

def endsInTime (s : Simulation δ σ) : Label δ σ → Bool
  | .runFor duration => s.now + duration ≤ maxTime
  | _ => true

theorem allowed_of_done {label : Label δ σ} (hdone : ∀ p cycles t, callbacks.phasedLoop p cycles t = .done t.locals)
    (hends : s.endsInTime label = true) : Allowed cfg callbacks s label := by
  cases label with
  | tick =>
    intro loop e p s' _ _ _ _ hcall
    obtain ⟨t, hiterate, hexec⟩ := Fallible.bind_eq_ok.mp hcall
    obtain ⟨⟨cycles, l⟩, hloop, ht⟩ := Fallible.bind_eq_ok.mp hiterate
    rw [hdone, exec] at hexec
    cases ht
    cases hexec
    unfold PhasedLoop.iterate at hloop
    simp only [] at hloop
    split at hloop
    · rename_i hchecks
      simp only [Except.ok.injEq, Prod.mk.injEq] at hloop
      simp only [sleepTime, setPhasedLoop, update_self, ← hloop.2]
      exact hchecks.2.1.le
    · cases hloop
  | runFor duration => exact of_decide_eq_true (p := s.now + duration ≤ maxTime) hends
  | call | makeEventLoop | addPhasedLoop | onRun => trivial

def oneLoop : NodeConfig where
  sendDelay := 5
  loop _ := 0
  channel w := w
  watchers c := [c]
  nodup _ := nodup_singleton _
  mem_watchers c w := by rw [mem_singleton]

def relay : Callbacks Nat Unit where
  watcher w m _ := if w = 0 then .act (.send 1 (m.data + 1) minTime 0xffffffff) fun _ => .done () else .done ()
  timer _ _ := .act (.send 0 7 minTime 0xffffffff) fun _ => .done ()
  phasedLoop _ _ _ := .done ()
  onRun _ _ := .act (.setupTimer 0 3 0) fun _ => .done ()

theorem watchers_see_every_message_once_relay :
    ∃ s : Simulation Nat Unit,
      (s.isRunning = false ∧ (calls 0 s.trace).map data = [7] ∧
        (calls 1 s.trace).map data = [8]) ∧ Delivers oneLoop s := by
  obtain ⟨s, hrun, hs⟩ : ∃ s : Simulation Nat Unit,
      Transition.Run (fun s label => (s.step oneLoop relay label).toOption) (fun s label => s.endsInTime label = true)
        { nextQueueIndex := fun _ => ⟨0, 10⟩, locals := () } s ∧
      s.isRunning = false ∧ (calls 0 s.trace).map data = [7] ∧ (calls 1 s.trace).map data = [8] :=
    Transition.Run.exists_of_exec
      ([.makeEventLoop 0, .addPhasedLoop 0 10 5, .onRun 0, .runFor 20] ++ replicate 12 .tick) (by decide +kernel)
  exact ⟨s, hs, (watchers_see_every_message_once oneLoop relay _ _
    (hrun.mono fun _ _ hends => allowed_of_done (fun _ _ _ => rfl) hends)).1⟩

def rephased : Callbacks Nat Unit where
  watcher _ _ _ := .done ()
  timer t _ :=
    if t = 0 then .act (.setIntervalAndOffset 0 10 6) fun _ => .done ()
    else .act (.send 0 7 minTime 0xffffffff) fun _ => .done ()
  phasedLoop _ _ _ := .act (.setIntervalAndOffset 0 10 0) fun _ => .done ()
  onRun _ _ := .done ()

/-- With a message for a watcher waiting, the phased loop is put into the heap twice. -/
theorem phased_loop_queued_twice :
    ∃ s : Simulation Nat Unit,
      Transition.Run (fun s label => (s.step oneLoop rephased label).toOption) (fun _ _ => True)
        { nextQueueIndex := fun _ => ⟨0, 10⟩, locals := () } s ∧
      s.now = 5 ∧ (s.msgs 0).length = 1 ∧ s.step oneLoop rephased .tick = .error .alreadyQueued := by
  exact Transition.Run.exists_of_exec
    ([.makeEventLoop 0, .addPhasedLoop 0 10 5,
      .call (.act (.setupTimer 0 3 0) fun _ => .act (.setupTimer 1 5 0) fun _ => .done ()), .runFor 20] ++
        replicate 5 .tick) (by decide +kernel)

end Simulation

end RobotCode.Events
