import RobotCode.Lib.Fallible
import RobotCode.Lib.Multimap

/-!
# What an event loop keeps for its handlers

An event loop keeps the events of its handlers in a heap, ordered by event time and then by the order in which
they were added. In simulation each handler also has at most one wakeup with the scheduler of its node, which it
names by a token. A phased loop computes its own next event time.

The heap is modelled by what the standard heap operations promise about it: the event at its front is one that
no other event comes before.
-/

namespace RobotCode.Events

open List Function

open Multimap (Entry)

inductive SimError where
  /-- `DCHECK` of `AddEvent`: the event is in the heap already. -/
  | alreadyQueued
  /-- `Trying to deschedule an event which is not scheduled` -/
  | notScheduled
  /-- `May not schedule multiple times` -/
  | multipleSchedules
  /-- `No events to handle` -/
  | noMessages
  /-- `DCHECK(token_ != scheduler_->InvalidToken())` -/
  | noToken
  /-- `Simulated time went backwards by too much` -/
  | timeWentBackwards
  /-- A check on the result of `PhasedLoop::Iterate`. -/
  | badIteration
  /-- `CHECK(offset >= 0)`, `CHECK(interval > 0)` or `CHECK(offset < interval)` -/
  | badPhase
  /-- What may only be done between runs. -/
  | alreadyRunning
  deriving DecidableEq, Repr

variable {η : Type}

/-! ### The heap of events -/

/-- An `EventLoopEvent` in the heap. -/
structure QueuedEvent (η : Type) where
  handler : η
  eventTime : Int
  generation : Nat
  deriving DecidableEq, Repr

def compareEvents (first second : QueuedEvent η) : Bool :=
  if first.eventTime > second.eventTime then true
  else if first.eventTime < second.eventTime then false
  else decide (first.generation > second.generation)

structure EventQueue (η : Type) where
  events : List (QueuedEvent η) := []
  eventGeneration : Nat := 1

def QueuedEvent.NoLater (x y : QueuedEvent η) : Prop :=
  x.eventTime < y.eventTime ∨ x.eventTime = y.eventTime ∧ x.generation ≤ y.generation

theorem compareEvents_eq_false {x y : QueuedEvent η} : compareEvents x y = false ↔ x.NoLater y := by
  unfold compareEvents QueuedEvent.NoLater
  split
  · simp only [Bool.true_eq_false, false_iff]
    omega
  · split
    · simp only [true_iff]
      omega
    · rw [decide_eq_false_iff_not]
      omega

theorem QueuedEvent.NoLater.trans {x y z : QueuedEvent η} (h : x.NoLater y) (h' : y.NoLater z) : x.NoLater z := by
  unfold QueuedEvent.NoLater at *
  omega

namespace EventQueue

def front : List (QueuedEvent η) → Option (QueuedEvent η)
  | [] => none
  | x :: rest =>
    match front rest with
    | none => some x
    | some y => if compareEvents x y then some y else some x

def peekEvent (q : EventQueue η) : Option (QueuedEvent η) := front q.events

def addEvent [DecidableEq η] (q : EventQueue η) (handler : η) (eventTime : Int) : Except SimError (EventQueue η) :=
  if q.events.any fun e => e.handler = handler then .error .alreadyQueued
  else .ok {
    events := q.events ++ [⟨handler, eventTime, q.eventGeneration + 1⟩]
    eventGeneration := q.eventGeneration + 1 }

/-- `RemoveEvent`, and what `PopEvent` does to the event it returns. -/
def removeEvent [DecidableEq η] (q : EventQueue η) (handler : η) : EventQueue η :=
  { q with events := q.events.filter fun e => e.handler ≠ handler }

def Has (q : EventQueue η) (handler : η) (time : Int) : Prop :=
  ∃ e ∈ q.events, e.handler = handler ∧ e.eventTime = time

/-- Each handler is in the heap once, and the events are numbered in the order they were added. -/
structure Valid (q : EventQueue η) : Prop where
  handlers : (q.events.map QueuedEvent.handler).Nodup
  generations : (q.events.map QueuedEvent.generation).Pairwise (· < ·)
  generation_le : ∀ e ∈ q.events, e.generation ≤ q.eventGeneration

variable {q : EventQueue η} {handler : η} {time time' : Int} {e : QueuedEvent η}

theorem valid_empty : Valid ({} : EventQueue η) := by
  constructor <;> simp

theorem addEvent_spec [DecidableEq η] (h : q.Valid) (hfree : ∀ t, ¬ q.Has handler t) (time : Int) :
    ∃ q', q.addEvent handler time = .ok q' ∧ q'.Valid ∧
      ∀ other t, q'.Has other t ↔ other = handler ∧ t = time ∨ q.Has other t := by
  have hnot : ∀ e ∈ q.events, e.handler ≠ handler := by
    intro e he heq
    exact hfree e.eventTime ⟨e, he, heq, rfl⟩
  refine ⟨_, if_neg (by simpa using hnot), ?_, ?_⟩
  · constructor
    · rw [map_append, nodup_append']
      refine ⟨h.handlers, nodup_singleton _, ?_⟩
      intro other hother hnew
      obtain ⟨e, he, rfl⟩ := mem_map.mp hother
      exact hnot e he (mem_singleton.mp hnew)
    · rw [map_append, pairwise_append]
      refine ⟨h.generations, pairwise_singleton _ _, ?_⟩
      exact forall_mem_map.mpr fun e he => forall_mem_singleton.mpr (Nat.lt_succ_of_le (h.generation_le e he))
    · exact forall_mem_append.mpr
        ⟨fun e he => (h.generation_le e he).trans (Nat.le_succ _), forall_mem_singleton.mpr le_rfl⟩
  · intro other t
    simp only [Has, mem_append, mem_singleton, or_and_right, exists_or, exists_eq_left, @eq_comm _ other, @eq_comm _ t]
    exact or_comm

theorem addEvent_eq_error [DecidableEq η] (h : ∃ t, q.Has handler t) :
    q.addEvent handler time = .error .alreadyQueued := by
  obtain ⟨t, e, he, hhandler, -⟩ := h
  exact if_pos (any_eq_true.mpr ⟨e, he, by simpa using hhandler⟩)

theorem Valid.removeEvent [DecidableEq η] (h : q.Valid) (handler : η) : (q.removeEvent handler).Valid where
  handlers := h.handlers.sublist (filter_sublist.map _)
  generations := h.generations.sublist (filter_sublist.map _)
  generation_le e he := h.generation_le e (mem_of_mem_filter he)

theorem has_removeEvent [DecidableEq η] (other : η) (t : Int) :
    (q.removeEvent handler).Has other t ↔ other ≠ handler ∧ q.Has other t := by
  simp only [Has, EventQueue.removeEvent, mem_filter, decide_eq_true_eq]
  constructor
  · rintro ⟨e, ⟨he, hne⟩, rfl, ht⟩
    exact ⟨hne, e, he, rfl, ht⟩
  · rintro ⟨hne, e, he, rfl, ht⟩
    exact ⟨e, ⟨he, hne⟩, rfl, ht⟩

theorem exists_front {events : List (QueuedEvent η)} (h : events ≠ []) : ∃ e, front events = some e := by
  cases events with
  | nil => exact absurd rfl h
  | cons x rest =>
    rw [front]
    split
    · exact ⟨x, rfl⟩
    · split <;> exact ⟨_, rfl⟩

theorem front_spec {events : List (QueuedEvent η)} (h : front events = some e) :
    e ∈ events ∧ ∀ x ∈ events, e.NoLater x := by
  fun_induction front events generalizing e with
  | case1 => cases h
  | case2 x rest hrest =>
    obtain rfl : rest = [] := by
      by_contra hne
      obtain ⟨y, hy⟩ := exists_front hne
      cases hrest.symm.trans hy
    cases h
    exact ⟨mem_cons_self, forall_mem_singleton.mpr (.inr ⟨rfl, le_rfl⟩)⟩
  | case3 x rest y hrest hafter ih =>
    cases h
    obtain ⟨hy, hleast⟩ := ih hrest
    refine ⟨mem_cons_of_mem _ hy, forall_mem_cons.mpr ⟨?_, hleast⟩⟩
    have hxy : ¬ x.NoLater y := mt compareEvents_eq_false.mpr (by simp [hafter])
    unfold QueuedEvent.NoLater at *
    omega
  | case4 x rest y hrest hafter ih =>
    cases h
    have hxy : x.NoLater y := compareEvents_eq_false.mp (Bool.not_eq_true _ ▸ hafter)
    exact ⟨mem_cons_self, forall_mem_cons.mpr ⟨.inr ⟨rfl, le_rfl⟩, fun z hz => hxy.trans ((ih hrest).2 z hz)⟩⟩

theorem Has.exists_peekEvent (h : q.Has handler time) : ∃ e, q.peekEvent = some e ∧ e.eventTime ≤ time := by
  obtain ⟨x, hx, -, rfl⟩ := h
  obtain ⟨e, he⟩ := exists_front (ne_nil_of_mem hx)
  refine ⟨e, he, ?_⟩
  rcases (front_spec he).2 x hx with hlt | heq
  · exact hlt.le
  · exact heq.1.le

end EventQueue

/-! ### Wakeups -/

/-- The scheduler of the node, and the `token_` of each handler. -/
structure Wakeups (η : Type) where
  eventsList : List (Entry Int η) := []
  nextToken : Nat := 0
  token : η → Option Nat := fun _ => none

namespace Wakeups

/-- `token_ = scheduler_->Schedule(time, this)` -/
def schedule [DecidableEq η] (w : Wakeups η) (time : Int) (handler : η) : Wakeups η where
  eventsList := Multimap.insert ⟨time, w.nextToken, handler⟩ w.eventsList
  nextToken := w.nextToken + 1
  token := update w.token handler (some w.nextToken)

/-- `if (token_ != InvalidToken()) Deschedule(token_)`, and the token is then invalid. -/
def deschedule [DecidableEq η] (w : Wakeups η) (handler : η) : Except SimError (Wakeups η) :=
  match w.token handler with
  | none => .ok w
  | some token =>
    match Multimap.find token w.eventsList with
    | none => .error .notScheduled
    | some _ => .ok { w with
        eventsList := Multimap.erase token w.eventsList
        token := update w.token handler none }

def fire [DecidableEq η] (w : Wakeups η) (handler : η) (rest : List (Entry Int η)) : Wakeups η :=
  { w with eventsList := rest, token := update w.token handler none }

def Armed (w : Wakeups η) (handler : η) (time : Int) : Prop := ∃ x ∈ w.eventsList, x.value = handler ∧ x.key = time

structure Valid (now : Int) (w : Wakeups η) : Prop where
  ordered : w.eventsList.Pairwise Entry.Before
  token_lt : ∀ x ∈ w.eventsList, x.token < w.nextToken
  tokens : (w.eventsList.map Entry.token).Nodup
  token_of_mem : ∀ x ∈ w.eventsList, w.token x.value = some x.token
  mem_of_token : ∀ handler token, w.token handler = some token →
    ∃ x ∈ w.eventsList, x.value = handler ∧ x.token = token
  future : ∀ x ∈ w.eventsList, now ≤ x.key

variable {w : Wakeups η} {handler : η} {now time : Int}

theorem valid_empty : Valid now ({} : Wakeups η) := by
  constructor <;> simp

variable {x : Entry Int η}

theorem Valid.eq_of_value (h : w.Valid now) {y : Entry Int η} (hx : x ∈ w.eventsList) (hy : y ∈ w.eventsList)
    (hxy : x.value = y.value) : x = y := by
  apply inj_on_of_nodup_map h.tokens hx hy
  have htoken := h.token_of_mem x hx
  rw [hxy, h.token_of_mem y hy] at htoken
  exact (Option.some.inj htoken).symm

theorem Valid.token_eq_none (h : w.Valid now) : w.token handler = none ↔ ∀ t, ¬ w.Armed handler t := by
  constructor
  · rintro hnone t ⟨x, hx, rfl, -⟩
    rw [h.token_of_mem x hx] at hnone
    cases hnone
  · intro hnot
    cases htoken : w.token handler with
    | none => rfl
    | some token =>
      obtain ⟨x, hx, hvalue, -⟩ := h.mem_of_token handler token htoken
      exact absurd ⟨x, hx, hvalue, rfl⟩ (hnot x.key)

theorem Valid.schedule [DecidableEq η] (h : w.Valid now) (hfree : ∀ t, ¬ w.Armed handler t) (hnow : now ≤ time) :
    (w.schedule time handler).Valid now := by
  have hperm : (w.schedule time handler).eventsList.Perm (⟨time, w.nextToken, handler⟩ :: w.eventsList) :=
    Multimap.insert_perm
  have hne : ∀ x ∈ w.eventsList, x.value ≠ handler := fun x hx heq => hfree x.key ⟨x, hx, heq, rfl⟩
  have hall : ∀ {P : Entry Int η → Prop}, P ⟨time, w.nextToken, handler⟩ → (∀ x ∈ w.eventsList, P x) →
      ∀ x ∈ (w.schedule time handler).eventsList, P x :=
    fun hnew hold x hx => forall_mem_cons.mpr ⟨hnew, hold⟩ x (hperm.mem_iff.mp hx)
  constructor
  · exact Multimap.pairwise_insert h.ordered h.token_lt
  · exact hall (Nat.lt_succ_self _) fun x hx => (h.token_lt x hx).trans (Nat.lt_succ_self _)
  · refine (hperm.map Entry.token).nodup_iff.mpr (nodup_cons.mpr ⟨?_, h.tokens⟩)
    intro hmem
    obtain ⟨x, hx, hx'⟩ := mem_map.mp hmem
    exact absurd hx' (h.token_lt x hx).ne
  · exact hall (update_self _ _ _) fun x hx => (update_of_ne (hne x hx) _ _).trans (h.token_of_mem x hx)
  · intro other token htoken
    by_cases hother : other = handler
    · subst hother
      have htoken' : (w.schedule time other).token other = some w.nextToken := update_self other _ w.token
      rw [htoken'] at htoken
      cases htoken
      exact ⟨_, hperm.mem_iff.mpr mem_cons_self, rfl, rfl⟩
    · obtain ⟨x, hx, hvalue, hx'⟩ := h.mem_of_token other token
        ((update_of_ne hother _ _).symm.trans htoken)
      exact ⟨x, hperm.mem_iff.mpr (mem_cons_of_mem _ hx), hvalue, hx'⟩
  · exact hall hnow h.future

theorem armed_schedule [DecidableEq η] (other : η) (t : Int) :
    (w.schedule time handler).Armed other t ↔ other = handler ∧ t = time ∨ w.Armed other t := by
  have hperm : (w.schedule time handler).eventsList.Perm (⟨time, w.nextToken, handler⟩ :: w.eventsList) :=
    Multimap.insert_perm
  simp only [Armed, hperm.mem_iff, mem_cons, or_and_right, exists_or, exists_eq_left, @eq_comm _ other, @eq_comm _ t]

theorem Valid.remove [DecidableEq η] (h : w.Valid now) {rest : List (Entry Int η)}
    (hperm : w.eventsList.Perm (x :: rest)) (hrest : rest.Pairwise Entry.Before) : (w.fire x.value rest).Valid now ∧
      ∀ other t, (w.fire x.value rest).Armed other t ↔ other ≠ x.value ∧ w.Armed other t := by
  have hmem : ∀ y ∈ rest, y ∈ w.eventsList := fun y hy => hperm.mem_iff.mpr (mem_cons_of_mem _ hy)
  have hx : x ∈ w.eventsList := hperm.mem_iff.mpr mem_cons_self
  have hnodup := (hperm.map Entry.token).nodup_iff.mp h.tokens
  obtain ⟨hxrest, hnodup'⟩ := nodup_cons.mp hnodup
  have hne : ∀ y ∈ rest, y.value ≠ x.value := by
    intro y hy heq
    rw [h.eq_of_value (hmem y hy) hx heq] at hy
    exact hxrest (mem_map.mpr ⟨x, hy, rfl⟩)
  constructor
  · constructor
    · exact hrest
    · exact fun y hy => h.token_lt y (hmem y hy)
    · exact hnodup'
    · intro y hy
      exact (update_of_ne (hne y hy) _ _).trans (h.token_of_mem y (hmem y hy))
    · intro other token htoken
      by_cases hother : other = x.value
      · subst hother
        have hnone : (w.fire x.value rest).token x.value = none := update_self x.value _ w.token
        rw [hnone] at htoken
        cases htoken
      · obtain ⟨y, hy, hvalue, hy'⟩ := h.mem_of_token other token
          ((update_of_ne hother _ _).symm.trans htoken)
        rcases mem_cons.mp (hperm.mem_iff.mp hy) with rfl | hy
        · exact absurd hvalue.symm hother
        · exact ⟨y, hy, hvalue, hy'⟩
    · exact fun y hy => h.future y (hmem y hy)
  · intro other t
    constructor
    · rintro ⟨y, hy, rfl, hkey⟩
      exact ⟨hne y hy, y, hmem y hy, rfl, hkey⟩
    · rintro ⟨hother, y, hy, rfl, hkey⟩
      rcases mem_cons.mp (hperm.mem_iff.mp hy) with rfl | hy
      · exact absurd rfl hother
      · exact ⟨y, hy, rfl, hkey⟩

theorem Valid.deschedule [DecidableEq η] (h : w.Valid now) (handler : η) :
    ∃ w', w.deschedule handler = .ok w' ∧ w'.Valid now ∧
      ∀ other t, w'.Armed other t ↔ other ≠ handler ∧ w.Armed other t := by
  unfold Wakeups.deschedule
  cases htoken : w.token handler with
  | none =>
    refine ⟨w, rfl, h, ?_⟩
    intro other t
    constructor
    · intro harmed
      refine ⟨?_, harmed⟩
      rintro rfl
      exact h.token_eq_none.mp htoken t harmed
    · exact And.right
  | some token =>
    obtain ⟨x, hx, rfl, rfl⟩ := h.mem_of_token handler token htoken
    have hfind : Multimap.find x.token w.eventsList = some x := by
      cases hfind : Multimap.find x.token w.eventsList with
      | none =>
        have hnone := find?_eq_none.mp hfind x hx
        simp at hnone
      | some y =>
        have hy := mem_of_find?_eq_some hfind
        have htoken' := find?_some hfind
        simp only [decide_eq_true_eq] at htoken'
        rw [inj_on_of_nodup_map h.tokens hy hx htoken']
    simp only [hfind]
    obtain ⟨hvalid, harmed⟩ := h.remove (Multimap.erase_perm hfind) (Multimap.pairwise_erase h.ordered)
    exact ⟨_, rfl, hvalid, harmed⟩

theorem Valid.fire [DecidableEq η] (h : w.Valid now) {rest : List (Entry Int η)} (hlist : w.eventsList = x :: rest) :
    w.token x.value = some x.token ∧ now ≤ x.key ∧ (∀ other t, w.Armed other t → x.key ≤ t) ∧
      (w.fire x.value rest).Valid x.key ∧
      ∀ other t, (w.fire x.value rest).Armed other t ↔ other ≠ x.value ∧ w.Armed other t := by
  have hx : x ∈ w.eventsList := by rw [hlist]; exact mem_cons_self
  have hordered := h.ordered
  rw [hlist] at hordered
  obtain ⟨hfirst, hrest⟩ := pairwise_cons.mp hordered
  obtain ⟨hvalid, harmed⟩ := h.remove (List.Perm.of_eq hlist) hrest
  refine ⟨h.token_of_mem x hx, h.future x hx, ?_, { hvalid with future := ?_ }, harmed⟩
  · rintro other t ⟨y, hy, -, rfl⟩
    rw [hlist] at hy
    rcases mem_cons.mp hy with rfl | hy
    · exact le_rfl
    · exact (hfirst y hy).key_le
  · intro y hy
    exact (hfirst y hy).key_le

theorem Valid.mono {now' : Int} (h : w.Valid now) (hnow : ∀ x ∈ w.eventsList, now' ≤ x.key) : w.Valid now' :=
  { h with future := hnow }

end Wakeups

/-- `time::PhasedLoop` -/
structure PhasedLoop where
  interval : Int := 1
  offset : Int := 0
  lastTime : Int := 0
  deriving DecidableEq, Repr

namespace PhasedLoop

/-- What the constructor and `set_interval_and_offset` check. -/
def Valid (l : PhasedLoop) : Prop := 0 ≤ l.offset ∧ 0 < l.interval ∧ l.offset < l.interval

instance (l : PhasedLoop) : Decidable l.Valid := inferInstanceAs (Decidable (_ ∧ _))

/-- The next time after `now` that is a whole number of intervals after the offset. -/
def nextTime (l : PhasedLoop) (now : Int) : Int :=
  let offsetNow := now - l.offset
  -- division truncates, so rounding up means away from zero above it and towards zero below it
  let prerounding := if now ≥ l.offset then offsetNow + l.interval else offsetNow + 1
  prerounding.tdiv l.interval * l.interval + l.offset

def iterate (l : PhasedLoop) (now : Int) : Except SimError (Int × PhasedLoop) :=
  let nextTime := l.nextTime now
  if (nextTime - l.offset).tmod l.interval = 0 ∧ nextTime > now ∧ nextTime - now ≤ l.interval then
    .ok ((nextTime - l.lastTime).tdiv l.interval, { l with lastTime := nextTime })
  else .error .badIteration

def reset (l : PhasedLoop) (now : Int) : Except SimError PhasedLoop := do
  let (_, l') ← l.iterate (now - l.interval)
  .ok l'

/-- The constructor. -/
def create (interval now offset : Int) : Except SimError PhasedLoop :=
  if Valid ⟨interval, offset, offset⟩ then reset ⟨interval, offset, offset⟩ now else .error .badPhase

def setIntervalAndOffset (l : PhasedLoop) (interval offset : Int) : Except SimError PhasedLoop :=
  let l' : PhasedLoop := ⟨interval, offset, l.lastTime + (offset - l.offset)⟩
  if l'.Valid then .ok l' else .error .badPhase

variable {l : PhasedLoop}

theorem nextTime_spec (h : l.Valid) (now : Int) :
    (l.nextTime now - l.offset).tmod l.interval = 0 ∧ l.nextTime now > now ∧ l.nextTime now - now ≤ l.interval := by
  obtain ⟨-, hpos, -⟩ := h
  have hmul : ∀ k : Int, (k * l.interval + l.offset - l.offset).tmod l.interval = 0 := by
    intro k
    rw [add_sub_cancel_right]
    exact Int.mul_tmod_left k l.interval
  refine ⟨hmul _, ?_⟩
  unfold nextTime
  simp only []
  split
  · rename_i hge
    have hdiv := Int.tdiv_eq_ediv_of_nonneg (b := l.interval) (show 0 ≤ now - l.offset + l.interval by omega)
    have hmod := Int.emod_add_mul_ediv (now - l.offset + l.interval) l.interval
    have hlo := Int.emod_nonneg (now - l.offset + l.interval) hpos.ne'
    have hhi := Int.emod_lt_of_pos (now - l.offset + l.interval) hpos
    rw [hdiv]
    constructor <;> nlinarith
  · rename_i hlt
    -- the numerator is negative or zero, and truncation rounds it up
    have hneg : (now - l.offset + 1).tdiv l.interval = -((-(now - l.offset + 1)) / l.interval) := by
      rw [← Int.tdiv_eq_ediv_of_nonneg (show 0 ≤ -(now - l.offset + 1) by omega), Int.neg_tdiv, neg_neg]
    have hmod := Int.emod_add_mul_ediv (-(now - l.offset + 1)) l.interval
    have hlo := Int.emod_nonneg (-(now - l.offset + 1)) hpos.ne'
    have hhi := Int.emod_lt_of_pos (-(now - l.offset + 1)) hpos
    rw [hneg]
    constructor <;> nlinarith

theorem iterate_spec (h : l.Valid) (now : Int) :
    ∃ cycles, l.iterate now = .ok (cycles, { l with lastTime := l.nextTime now }) := by
  exact ⟨_, if_pos (nextTime_spec h now)⟩

theorem Valid.lastTime (h : l.Valid) (time : Int) : ({ l with lastTime := time } : PhasedLoop).Valid := h

theorem reset_spec (h : l.Valid) (now : Int) : ∃ time, l.reset now = .ok { l with lastTime := time } := by
  obtain ⟨cycles, hiterate⟩ := iterate_spec h (now - l.interval)
  refine ⟨l.nextTime (now - l.interval), ?_⟩
  rw [reset, hiterate]
  rfl

end PhasedLoop

end RobotCode.Events
