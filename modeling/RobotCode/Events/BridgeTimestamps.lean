import RobotCode.Lib.Transition
import RobotCode.Logging.Message

/-!
# The timestamps of forwarded messages

When a message was delivered to another node, `RawMessageDelayer` tells the source node about it one network delay
later. The timestamps wait in a queue for a timer. `scheduled_time_` is the time the timer is set for, until
`ScheduleTimestamp` is called again for the same time and resets it. The timer then finds nothing to send, and sets
itself again.
-/

namespace RobotCode.Events

open Logging (minTime)
open Transition

structure Timestamp (δ : Type) where
  remoteMessage : δ
  monotonicTimestampTime : Int
  deriving DecidableEq

/-- The part of `RawMessageDelayer` on the source node, while the connection is up. -/
structure TimestampSender (δ : Type) where
  monotonicNow : Int
  remoteTimestamps : List (Timestamp δ) := []
  scheduledTime : Int := minTime
  timestampTimer : Option Int := none
  /-- The `CHECK` in `SendTimestamp` failed. -/
  aborted : Bool := false
  /-- For the record: all timestamps that were queued, and those that were sent with the time that was done. -/
  queued : List (Timestamp δ) := []
  sent : List (Timestamp δ × Int) := []

namespace TimestampSender

variable {δ : Type}

def scheduleTimestamp (s : TimestampSender δ) : TimestampSender δ :=
  match s.remoteTimestamps with
  | [] => { s with timestampTimer := none }
  | front :: _ =>
    if s.scheduledTime ≠ front.monotonicTimestampTime then
      { s with
        timestampTimer := some (max front.monotonicTimestampTime s.monotonicNow)
        scheduledTime := front.monotonicTimestampTime }
    else { s with scheduledTime := minTime }

/-- `SendTimestamp`, which sends as long as the front is for the scheduled time. -/
def sendTimestamp (s : TimestampSender δ) : TimestampSender δ :=
  if s.remoteTimestamps.isEmpty then { s with aborted := true }
  else
    let due := fun t : Timestamp δ => decide (t.monotonicTimestampTime = s.scheduledTime)
    scheduleTimestamp { s with
      remoteTimestamps := s.remoteTimestamps.dropWhile due
      sent := s.sent ++ (s.remoteTimestamps.takeWhile due).map (·, s.monotonicNow) }

/-- The end of `Send`, for a message that was just delivered. -/
def queueTimestamp (networkDelay : Int) (s : TimestampSender δ) (remoteMessage : δ) : TimestampSender δ :=
  let timestamp := ⟨remoteMessage, s.monotonicNow + networkDelay⟩
  scheduleTimestamp { s with
    remoteTimestamps := s.remoteTimestamps ++ [timestamp], queued := s.queued ++ [timestamp] }

inductive Label (δ : Type)
  | deliver (remoteMessage : δ)
  | fire
  | advance (monotonicNow : Int)

/-- A timer that is set goes off before its time is over. -/
def step (networkDelay : Int) (s : TimestampSender δ) : Label δ → Option (TimestampSender δ)
  | .deliver remoteMessage => some (s.queueTimestamp networkDelay remoteMessage)
  | .fire => if s.timestampTimer = some s.monotonicNow then some { s with timestampTimer := none }.sendTimestamp else none
  | .advance t => if s.monotonicNow ≤ t ∧ ∀ u ∈ s.timestampTimer, t ≤ u then some { s with monotonicNow := t } else none

structure Queue (networkDelay : Int) (s : TimestampSender δ) : Prop where
  now : minTime ≤ s.monotonicNow
  sorted : s.remoteTimestamps.Pairwise fun t u => t.monotonicTimestampTime ≤ u.monotonicTimestampTime
  times : ∀ t ∈ s.remoteTimestamps, minTime < t.monotonicTimestampTime ∧ s.monotonicNow ≤ t.monotonicTimestampTime ∧
    t.monotonicTimestampTime ≤ s.monotonicNow + networkDelay
  inOrder : s.sent.map Prod.fst ++ s.remoteTimestamps = s.queued
  onTime : ∀ x ∈ s.sent, x.2 = x.1.monotonicTimestampTime
  running : s.aborted = false

/-- The timer is set for the front of the queue, also after `scheduled_time_` was reset. -/
structure Invariant (networkDelay : Int) (s : TimestampSender δ) : Prop extends Queue networkDelay s where
  armed : ∀ front ∈ s.remoteTimestamps.head?, s.timestampTimer = some front.monotonicTimestampTime ∧
    (s.scheduledTime = front.monotonicTimestampTime ∨ s.scheduledTime = minTime)
  unarmed : s.remoteTimestamps = [] → s.timestampTimer = none ∧ s.scheduledTime ≤ s.monotonicNow

variable {networkDelay : Int} {s s' : TimestampSender δ}

theorem Queue.scheduleTimestamp (h : Queue networkDelay s) (hle : s.scheduledTime ≤ s.monotonicNow)
    (hne : ∀ front ∈ s.remoteTimestamps.head?, s.scheduledTime ≠ front.monotonicTimestampTime) :
    Invariant networkDelay s.scheduleTimestamp := by
  obtain ⟨hnow, hsorted, htimes, hinOrder, honTime, hrunning⟩ := h
  unfold TimestampSender.scheduleTimestamp
  split
  · exact ⟨⟨hnow, hsorted, htimes, hinOrder, honTime, hrunning⟩, by grind, by grind⟩
  · rw [if_pos (by grind)]
    exact ⟨⟨hnow, hsorted, htimes, hinOrder, honTime, hrunning⟩, by grind, by grind⟩

theorem Invariant.queueTimestamp (h : Invariant networkDelay s) (hdelay : 0 < networkDelay) (remoteMessage : δ) :
    Invariant networkDelay (s.queueTimestamp networkDelay remoteMessage) := by
  obtain ⟨⟨hnow, hsorted, htimes, hinOrder, honTime, hrunning⟩, harmed, hunarmed⟩ := h
  have hqueue : Queue networkDelay { s with
      remoteTimestamps := s.remoteTimestamps ++ [⟨remoteMessage, s.monotonicNow + networkDelay⟩]
      queued := s.queued ++ [⟨remoteMessage, s.monotonicNow + networkDelay⟩] } := by
    constructor <;> grind
  cases hq : s.remoteTimestamps with
  | nil =>
    have hle := (hunarmed hq).2
    exact hqueue.scheduleTimestamp hle (by grind)
  | cons front rest =>
    obtain ⟨htimer, hscheduled⟩ := harmed front (by simp [hq])
    rw [hq] at hqueue
    simp only [TimestampSender.queueTimestamp, TimestampSender.scheduleTimestamp, hq, List.cons_append]
    obtain ⟨hnow', hsorted', htimes', hinOrder', honTime', hrunning'⟩ := hqueue
    -- the front stays the same, and so does what the timer is set for
    split
    all_goals exact ⟨⟨hnow', hsorted', htimes', hinOrder', honTime', hrunning'⟩, by grind, by grind⟩

theorem Invariant.front (h : Invariant networkDelay s) (htimer : s.timestampTimer = some s.monotonicNow) :
    ∃ front rest, s.remoteTimestamps = front :: rest ∧ front.monotonicTimestampTime = s.monotonicNow := by
  cases hq : s.remoteTimestamps with
  | nil => simp [(h.unarmed hq).1] at htimer
  | cons front rest =>
    have harmed := (h.armed front (by simp [hq])).1
    exact ⟨front, rest, rfl, Option.some.inj (harmed.symm.trans htimer)⟩

theorem Invariant.sendTimestamp (h : Invariant networkDelay s) (htimer : s.timestampTimer = some s.monotonicNow) :
    Invariant networkDelay { s with timestampTimer := none }.sendTimestamp := by
  obtain ⟨front, rest, hq, hfront⟩ := h.front htimer
  have hscheduled := (h.armed front (by simp [hq])).2
  obtain ⟨⟨hnow, hsorted, htimes, hinOrder, honTime, hrunning⟩, -, -⟩ := h
  unfold TimestampSender.sendTimestamp
  rw [if_neg (by simp [hq])]
  generalize hdue : (fun t : Timestamp δ => decide (t.monotonicTimestampTime = s.scheduledTime)) = due
  have hsent : ∀ t ∈ s.remoteTimestamps.takeWhile due, s.monotonicNow = t.monotonicTimestampTime := by
    intro t ht
    have hscheduledTime := List.mem_takeWhile_imp ht
    have := htimes t (List.takeWhile_subset _ ht)
    grind
  have hsub : (s.remoteTimestamps.dropWhile due).Sublist s.remoteTimestamps := List.dropWhile_sublist due
  refine Queue.scheduleTimestamp ⟨hnow, hsorted.sublist hsub, fun t ht => htimes t (hsub.subset ht), ?_, ?_, hrunning⟩
    (show s.scheduledTime ≤ s.monotonicNow by grind) ?_
  · simpa [Function.comp_def] using hinOrder
  · intro x hx
    obtain hx | hx := List.mem_append.mp hx
    · exact honTime x hx
    · obtain ⟨t, ht, rfl⟩ := List.mem_map.mp hx
      exact hsent t ht
  · intro next hnext
    have hstop := List.head?_dropWhile_not due s.remoteTimestamps
    grind

theorem Invariant.step {label : Label δ} (h : Invariant networkDelay s) (hdelay : 0 < networkDelay)
    (hstep : step networkDelay s label = some s') : Invariant networkDelay s' := by
  cases label with
  | deliver remoteMessage =>
    cases hstep
    exact h.queueTimestamp hdelay remoteMessage
  | fire =>
    obtain ⟨htimer, rfl⟩ : s.timestampTimer = some s.monotonicNow ∧
        { s with timestampTimer := none }.sendTimestamp = s' := by simpa [TimestampSender.step] using hstep
    exact h.sendTimestamp htimer
  | advance t =>
    obtain ⟨⟨hle, htimer⟩, rfl⟩ : (s.monotonicNow ≤ t ∧ ∀ u ∈ s.timestampTimer, t ≤ u) ∧
        { s with monotonicNow := t } = s' := by simpa [TimestampSender.step] using hstep
    obtain ⟨⟨hnow, hsorted, htimes, hinOrder, honTime, hrunning⟩, harmed, hunarmed⟩ := h
    refine ⟨⟨hnow.trans hle, hsorted, ?_, hinOrder, honTime, hrunning⟩, harmed, by grind⟩
    intro u hu
    change u ∈ s.remoteTimestamps at hu
    obtain ⟨hmin, -, hdelayed⟩ := htimes u hu
    obtain ⟨front, rest, hq⟩ := List.exists_cons_of_ne_nil (List.ne_nil_of_mem hu)
    have hset := htimer _ (harmed front (by simp [hq])).1
    rw [hq] at hsorted hu
    have hfront : front.monotonicTimestampTime ≤ u.monotonicTimestampTime := by
      obtain rfl | hu := List.mem_cons.mp hu
      · exact le_rfl
      · exact List.rel_of_pairwise_cons hsorted hu
    exact ⟨hmin, hset.trans hfront, by dsimp only; omega⟩

theorem sendTimestamp_sent {front : Timestamp δ} {rest : List (Timestamp δ)}
    (hq : s.remoteTimestamps = front :: rest) (hscheduled : s.scheduledTime = front.monotonicTimestampTime) :
    (front, s.monotonicNow) ∈ s.sendTimestamp.sent := by
  have hsent : ∀ t : TimestampSender δ, t.scheduleTimestamp.sent = t.sent := by grind [scheduleTimestamp]
  rw [sendTimestamp, if_neg (by simp [hq]), hsent]
  simp [hq, hscheduled]

theorem Invariant.fire_fire {front : Timestamp δ} (h : Invariant networkDelay s)
    (hfront : s.remoteTimestamps.head? = some front) (hnow : s.monotonicNow = front.monotonicTimestampTime) :
    ∃ s1, TimestampSender.step networkDelay s .fire = some s1 ∧ ((front, s.monotonicNow) ∈ s1.sent ∨
      ∃ s2, TimestampSender.step networkDelay s1 .fire = some s2 ∧ (front, s.monotonicNow) ∈ s2.sent) := by
  obtain ⟨rest, hq⟩ := List.head?_eq_some_iff.mp hfront
  obtain ⟨htimer, hscheduled⟩ := h.armed front hfront
  have htime := (h.times front (by simp [hq])).1
  refine ⟨_, if_pos (htimer.trans (by rw [hnow])), ?_⟩
  obtain hscheduled | hscheduled := hscheduled
  · exact .inl (sendTimestamp_sent hq hscheduled)
  · have hreset : { s with timestampTimer := none }.sendTimestamp =
        { s with timestampTimer := some s.monotonicNow, scheduledTime := s.monotonicNow } := by
      have hne : ¬ s.monotonicNow = minTime := by omega
      have hne' : ¬ minTime = s.monotonicNow := by omega
      simp [TimestampSender.sendTimestamp, scheduleTimestamp, hq, hscheduled, ← hnow, hne, hne']
    rw [hreset]
    exact .inr ⟨_, if_pos rfl, sendTimestamp_sent hq hnow⟩

/-- Every timestamp is sent in order and once, when its time has come. -/
theorem timestamps_sent_on_time (networkDelay start : Int) (hdelay : 0 < networkDelay) (hstart : minTime ≤ start)
    (s : TimestampSender δ) (h : Run (step networkDelay) (fun _ _ => True) { monotonicNow := start } s) :
    (∀ front ∈ s.remoteTimestamps.head?, s.timestampTimer = some front.monotonicTimestampTime) ∧
      s.sent.map Prod.fst ++ s.remoteTimestamps = s.queued ∧ (∀ x ∈ s.sent, x.2 = x.1.monotonicTimestampTime) ∧
      (∀ t ∈ s.remoteTimestamps, s.monotonicNow ≤ t.monotonicTimestampTime) ∧
      (∀ front ∈ s.remoteTimestamps.head?, s.monotonicNow = front.monotonicTimestampTime →
        ∃ s₁, step networkDelay s .fire = some s₁ ∧ ((front, s.monotonicNow) ∈ s₁.sent ∨
          ∃ s₂, step networkDelay s₁ .fire = some s₂ ∧ (front, s.monotonicNow) ∈ s₂.sent)) ∧ s.aborted = false := by
  have hinv : Invariant networkDelay s := by
    refine h.invariant (fun u a v hu _ hstep => Invariant.step hu hdelay hstep) ?_
    exact ⟨⟨hstart, .nil, by simp, rfl, by simp, rfl⟩, by simp, fun _ => ⟨rfl, hstart⟩⟩
  exact ⟨fun front hfront => (hinv.armed front hfront).1, hinv.inOrder, hinv.onTime,
    fun t ht => (hinv.times t ht).2.1, fun front hfront hnow => hinv.fire_fire hfront hnow, hinv.running⟩

/-- Two messages at 5 reset the scheduled time, and the timer goes off twice at 8. -/
theorem timestamps_sent_twice : ∃ s : TimestampSender Nat, s.sent = [(⟨1, 8⟩, 8), (⟨2, 8⟩, 8)] ∧
    ∀ x ∈ s.sent, x.2 = x.1.monotonicTimestampTime := by
  have hsend : ∃ s : TimestampSender Nat, Run (step 3) (fun _ _ => True) { monotonicNow := 5 } s ∧
      s.sent = [(⟨1, 8⟩, 8), (⟨2, 8⟩, 8)] :=
    Run.exists_of_exec [.deliver 1, .deliver 2, .advance 8, .fire, .fire] (by decide +kernel)
  obtain ⟨s, hrun, hs⟩ := hsend
  exact ⟨s, hs, (timestamps_sent_on_time 3 5 (by decide) (by decide) s hrun).2.2.1⟩

end TimestampSender

end RobotCode.Events
