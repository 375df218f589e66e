import RobotCode.Events.EventScheduler

/-!
# Which events a run executes, and in what order

Every event ever scheduled is executed, descheduled or still in a multimap, once. `RunFor` takes the events in
the order of the distributed clock, lower nodes first and then in the order they were scheduled, and stops at
the first one after its end time. Handlers schedule nothing before their node's current time, so nothing can
come up before what was already taken, and cutting a run in two changes nothing.
-/

namespace RobotCode.Events

open List RunUntil

open Logging (BootTimestamp maxTime)
open Multimap (Entry)
open Fallible (Ends AllSteps)

variable {n : Nat} {α σ : Type}

/-- The conversions of each node, within its current boot, are strictly increasing and inverse to each other. -/
structure TimeConverter.Exact (converter : TimeConverter n) (bootCount : Fin n → Nat) : Prop where
  strictMono : ∀ node, StrictMono fun t => converter.toDistributedClock node ⟨bootCount node, t⟩
  from_to : ∀ node t, converter.fromDistributedClock node
    (converter.toDistributedClock node ⟨bootCount node, t⟩) (bootCount node) = ⟨bootCount node, t⟩
  to_from : ∀ node d, converter.toDistributedClock node (converter.fromDistributedClock node d (bootCount node)) = d
  boot : ∀ node d, (converter.fromDistributedClock node d (bootCount node)).boot = bootCount node

def TimeConverter.distributedTime (converter : TimeConverter n) (bootCount : Fin n → Nat) (event : Event n α) : Int :=
  converter.toDistributedClock event.node ⟨bootCount event.node, event.entry.key⟩

def Event.NoLater (converter : TimeConverter n) (bootCount : Fin n → Nat) (x y : Event n α) : Prop :=
  converter.distributedTime bootCount x < converter.distributedTime bootCount y ∨
    converter.distributedTime bootCount x = converter.distributedTime bootCount y ∧
      (x.node < y.node ∨ x.node = y.node ∧ x.entry.token ≤ y.entry.token)

structure BeforeMaxTime (converter : TimeConverter n) (bootCount : Fin n → Nat) (time : Int) : Prop where
  distributed : time < maxTime
  monotonic : ∀ node, time < converter.toDistributedClock node ⟨bootCount node, maxTime⟩

theorem flatMap_perm_cons {ι γ : Type} {l : List ι} {f g : ι → List γ} {i : ι} {y : γ} (hnodup : l.Nodup)
    (hi : i ∈ l) (hother : ∀ k, k ≠ i → g k = f k) (hperm : (g i).Perm (y :: f i)) :
    (l.flatMap g).Perm (y :: l.flatMap f) := by
  induction l with
  | nil => cases hi
  | cons k rest ih =>
    obtain ⟨hk, hrest⟩ := nodup_cons.mp hnodup
    rw [flatMap_cons, flatMap_cons]
    rcases mem_cons.mp hi with rfl | hi
    · have hsame : rest.flatMap g = rest.flatMap f := by
        apply flatMap_congr
        intro k' hk'
        apply hother
        rintro rfl
        exact hk hk'
      rw [hsame]
      exact hperm.append_right _
    · have hne : k ≠ i := by
        rintro rfl
        exact hk hi
      rw [hother k hne]
      exact ((ih hrest hi).append_left _).trans perm_middle

namespace EventSchedulerScheduler

section Pending

variable {s s' : EventSchedulerScheduler n α σ} {node : Fin n}

theorem mem_pending {x : Event n α} : x ∈ s.pending ↔ x.entry ∈ (s.schedulers x.node).eventsList := by
  unfold pending
  rw [mem_flatMap]
  constructor
  · rintro ⟨k, _, hk⟩
    obtain ⟨entry, hentry, rfl⟩ := mem_map.mp hk
    exact hentry
  · intro h
    exact ⟨x.node, mem_finRange _, mem_map.mpr ⟨x.entry, h, rfl⟩⟩

variable {x : Entry Int α}

theorem pending_perm_cons (hother : ∀ k, k ≠ node → (s'.schedulers k).eventsList = (s.schedulers k).eventsList)
    (hperm : (s'.schedulers node).eventsList.Perm (x :: (s.schedulers node).eventsList)) :
    s'.pending.Perm (⟨node, x⟩ :: s.pending) := by
  apply flatMap_perm_cons (nodup_finRange n) (mem_finRange node)
  · intro k hk
    rw [hother k hk]
  · exact hperm.map _

theorem pending_schedule (s : EventSchedulerScheduler n α σ) (node : Fin n) (time : Int) (callback : α) :
    (s.schedule node time callback).pending.Perm (⟨node, ⟨time, s.nextToken, callback⟩⟩ :: s.pending) := by
  apply pending_perm_cons
  · intro k hk
    exact (setEvents_eventsList k).trans (if_neg hk)
  · rw [show ((s.schedule node time callback).schedulers node).eventsList = _ from
      (setEvents_eventsList node).trans (if_pos rfl)]
    exact Multimap.insert_perm

theorem pending_pop {rest : List (Entry Int α)}
    (h : (s.schedulers node).eventsList = x :: rest) : s.pending.Perm (⟨node, x⟩ :: (s.pop node x rest).pending) := by
  apply pending_perm_cons
  · intro k hk
    exact ((setEvents_eventsList k).trans (if_neg hk)).symm
  · rw [show ((s.pop node x rest).schedulers node).eventsList = rest from
      (setEvents_eventsList node).trans (if_pos rfl), h]

theorem pending_deschedule {token : Nat} (hx : Multimap.find token (s.schedulers node).eventsList = some x) :
    s.pending.Perm (⟨node, x⟩ :: (s.setEvents node (Multimap.erase token (s.schedulers node).eventsList)).pending) := by
  apply pending_perm_cons
  · intro k hk
    exact ((setEvents_eventsList k).trans (if_neg hk)).symm
  · rw [setEvents_eventsList, if_pos rfl]
    exact Multimap.erase_perm hx

end Pending

section Behaves

variable (converter : TimeConverter n) (handle : Handlers n α σ) (allowed : Int → Int → Prop)

def monotonicNow (s : EventSchedulerScheduler n α σ) (node : Fin n) : Int :=
  (s.fromDistributedClock converter node s.now).time

def Behaves : Program n α σ → EventSchedulerScheduler n α σ → Prop
  | .done _, _ => True
  | .schedule node time callback rest, s =>
    allowed (s.monotonicNow converter node) time ∧ Behaves (rest s.nextToken) (s.schedule node time callback)
  | .deschedule node token rest, s => ∃ s', s.deschedule node token = .ok s' ∧ Behaves rest s'

def CallBehaves (s : EventSchedulerScheduler n α σ) : Prop :=
  ∀ time node x rest, s.oldestEvent converter = (time, some node) → (s.schedulers node).eventsList = x :: rest →
    Behaves converter allowed (handle node x.value time s.locals) (({ s with now := time }).pop node x rest)

structure HandlersBehave (duration : Int) (s : EventSchedulerScheduler n α σ) : Prop where
  onRun : AllSteps
    (fun s node => AllSteps (fun s callback => Behaves converter allowed (callback s.now s.locals) s) runCallback
      (s.schedulers node).onRun s)
    runOnRunNode (finRange n) { s with isRunning := true }
  calls : ∀ s₁, s.runOnRun = .ok s₁ → ∀ t, RunUntil.Visits (system converter handle) (s.now + duration) s₁ t →
    CallBehaves converter handle allowed t

end Behaves

variable {converter : TimeConverter n} {handle : Handlers n α σ} {bootCount : Fin n → Nat}
  {s s' : EventSchedulerScheduler n α σ}

def executedEvents (s : EventSchedulerScheduler n α σ) : List (Event n α) := s.executed.map Execution.event

/-- What holds whenever no handler is running. -/
structure Valid (converter : TimeConverter n) (bootCount : Fin n → Nat) (s : EventSchedulerScheduler n α σ) :
    Prop where
  bootCount_eq : ∀ k, (s.schedulers k).bootCount = bootCount k
  ordered : ∀ k, (s.schedulers k).eventsList.Pairwise Entry.Before
  tokens : (s.scheduled.map fun x => x.entry.token) = range s.nextToken
  accounted : (s.executedEvents ++ s.descheduled ++ s.pending).Perm s.scheduled
  future : ∀ x ∈ s.pending, s.now ≤ converter.distributedTime bootCount x
  past : ∀ x ∈ s.executedEvents, converter.distributedTime bootCount x ≤ s.now
  least : ∀ c ∈ s.executed, c.event ∈ c.pending ∧ ∀ x ∈ c.pending, c.event.NoLater converter bootCount x

variable {r : Except SchedulerError (EventSchedulerScheduler n α σ)} {node : Fin n} {duration time : Int}
  {y x : Event n α}

section

variable (h : Valid converter bootCount s)

include h

theorem Valid.mem_scheduled (hx : x ∈ s.pending) : x ∈ s.scheduled :=
  h.accounted.mem_iff.mp (mem_append_right _ hx)

theorem Valid.token_lt (hx : x ∈ s.scheduled) : x.entry.token < s.nextToken := by
  have hmem : x.entry.token ∈ s.scheduled.map fun x => x.entry.token := mem_map.mpr ⟨x, hx, rfl⟩
  rw [h.tokens] at hmem
  exact mem_range.mp hmem

theorem Valid.scheduled_nodup : s.scheduled.Nodup := by
  apply List.Nodup.of_map fun x : Event n α => x.entry.token
  rw [h.tokens]
  exact nodup_range

theorem Valid.schedule (callback : α) (htime : s.now ≤ converter.toDistributedClock node ⟨bootCount node, time⟩) :
    Valid converter bootCount (s.schedule node time callback) := by
  have hperm := pending_schedule s node time callback
  constructor
  · intro k
    rw [(frame_schedule s node time callback).bootCount k]
    exact h.bootCount_eq k
  · intro k
    rw [show ((s.schedule node time callback).schedulers k).eventsList = _ from setEvents_eventsList k]
    split
    · apply Multimap.pairwise_insert (h.ordered node)
      intro y hy
      exact h.token_lt (h.mem_scheduled (mem_pending (x := ⟨node, y⟩).mpr hy))
    · exact h.ordered k
  · change (s.scheduled ++ [_]).map _ = range (s.nextToken + 1)
    rw [map_append, h.tokens, range_succ]
    rfl
  · refine (hperm.append_left _).trans (perm_middle.trans ?_)
    exact (h.accounted.cons _).trans (perm_append_singleton _ _).symm
  · intro x hx
    rcases mem_cons.mp (hperm.mem_iff.mp hx) with rfl | hx
    · exact htime
    · exact h.future x hx
  · exact h.past
  · exact h.least

theorem Valid.deschedule {token : Nat} (hs' : s.deschedule node token = .ok s') : Valid converter bootCount s' := by
  obtain ⟨x, hx, rfl⟩ := deschedule_eq_ok hs'
  have hperm := pending_deschedule hx
  constructor
  · intro k
    rw [(frame_deschedule hs').bootCount k]
    exact h.bootCount_eq k
  · intro k
    rw [show ((_ : EventSchedulerScheduler n α σ).schedulers k).eventsList = _ from setEvents_eventsList k]
    split
    · exact Multimap.pairwise_erase (h.ordered node)
    · exact h.ordered k
  · exact h.tokens
  · refine List.Perm.trans ?_ h.accounted
    simp only [append_assoc, singleton_append]
    exact (hperm.symm.append_left _).append_left _
  · intro y hy
    exact h.future y (hperm.mem_iff.mpr (mem_cons_of_mem _ hy))
  · exact h.past
  · exact h.least

end

variable (hexact : converter.Exact bootCount)

include hexact in
theorem toDistributedClock_monotonicNow (hboot : (s.schedulers node).bootCount = bootCount node) :
    converter.toDistributedClock node ⟨bootCount node, s.monotonicNow converter node⟩ = s.now := by
  conv_rhs => rw [← hexact.to_from node s.now]
  congr 1
  rw [BootTimestamp.mk.injEq]
  refine ⟨(hexact.boot node s.now).symm, ?_⟩
  rw [monotonicNow, fromDistributedClock, hboot]

include hexact in
theorem Valid.exec (program : Program n α σ) (h : Valid converter bootCount s)
    (hbehaves : Behaves converter (· ≤ ·) program s) :
    Ends (fun _ => False) (Valid converter bootCount) (exec program s) := by
  induction program generalizing s with
  | done locals => exact { h with }
  | schedule node time callback rest ih =>
    have hnow := toDistributedClock_monotonicNow hexact (h.bootCount_eq node)
    refine ih _ (h.schedule callback ?_) hbehaves.2
    rw [← hnow]
    exact (hexact.strictMono node).monotone hbehaves.1
  | deschedule node token rest ih =>
    obtain ⟨s', hs', hrest⟩ := hbehaves
    rw [exec, hs']
    exact ih (h.deschedule hs') hrest

/-! ### The oldest event -/

def due (converter : TimeConverter n) (s : EventSchedulerScheduler n α σ) (node : Fin n) : Option Int :=
  if (s.schedulers node).oldestEvent = maxTime then none
  else some (s.toDistributedClock converter node (s.schedulers node).oldestEvent)

/-- What the search has found after the nodes `seen`. -/
structure Found (converter : TimeConverter n) (s : EventSchedulerScheduler n α σ) (seen : Fin n → Prop)
    (best : Int × Option (Fin n)) : Prop where
  le_maxTime : best.1 ≤ maxTime
  le_due : ∀ k, seen k → ∀ t ∈ due converter s k, best.1 ≤ t
  eq_maxTime : best.2 = none → best.1 = maxTime
  found : ∀ node, best.2 = some node → seen node ∧ best.1 < maxTime ∧ best.1 ∈ due converter s node ∧
    ∀ k < node, seen k → ∀ t ∈ due converter s k, best.1 < t

theorem Found.olderEvent {seen : Fin n → Prop} {best : Int × Option (Fin n)}
    (h : Found converter s seen best) (hnode : ∀ k, seen k → k < node) :
    Found converter s (fun k => seen k ∨ k = node) (s.olderEvent converter best node) := by
  unfold EventSchedulerScheduler.olderEvent
  simp only []
  split
  · rename_i hcond
    have hdue : due converter s node = some (s.toDistributedClock converter node (s.schedulers node).oldestEvent) :=
      if_neg hcond.1
    constructor
    · exact hcond.2.le.trans h.le_maxTime
    · rintro k (hk | rfl) t ht
      · exact hcond.2.le.trans (h.le_due k hk t ht)
      · rw [hdue] at ht
        exact (Option.some.inj ht).le
    · intro hnone
      cases hnone
    · intro node' hnode'
      cases hnode'
      refine ⟨.inr rfl, hcond.2.trans_le h.le_maxTime, hdue, ?_⟩
      rintro k hlt (hk | rfl) t ht
      · exact hcond.2.trans_le (h.le_due k hk t ht)
      · exact absurd hlt (lt_irrefl _)
  · rename_i hcond
    constructor
    · exact h.le_maxTime
    · rintro k (hk | rfl) t ht
      · exact h.le_due k hk t ht
      · unfold due at ht
        split at ht
        · cases ht
        · rename_i hne
          rw [← Option.some.inj ht]
          exact not_lt.mp fun hlt => hcond ⟨hne, hlt⟩
    · exact h.eq_maxTime
    · intro node' hnode'
      obtain ⟨hseen, hlt, hdue, hlower⟩ := h.found node' hnode'
      refine ⟨.inl hseen, hlt, hdue, ?_⟩
      rintro k hk (hk' | rfl) t ht
      · exact hlower k hk hk' t ht
      · exact absurd (hk.trans (hnode node' hseen)) (lt_irrefl _)

theorem Found.foldl (nodes : List (Fin n)) {seen : Fin n → Prop} {best : Int × Option (Fin n)}
    (h : Found converter s seen best) (hsorted : nodes.Pairwise (· < ·))
    (hseen : ∀ node ∈ nodes, ∀ k, seen k → k < node) :
    Found converter s (fun k => seen k ∨ k ∈ nodes) (nodes.foldl (s.olderEvent converter) best) := by
  induction nodes generalizing seen best with
  | nil => simpa using h
  | cons node rest ih =>
    obtain ⟨hnode, hrest⟩ := pairwise_cons.mp hsorted
    have hnext := ih (h.olderEvent (hseen node mem_cons_self)) hrest (by
      rintro node' hnode' k (hk | rfl)
      · exact hseen node' (mem_cons_of_mem _ hnode') k hk
      · exact hnode node' hnode')
    rw [foldl_cons]
    simpa only [mem_cons, or_assoc] using hnext

theorem found_oldestEvent (s : EventSchedulerScheduler n α σ) :
    Found converter s (fun _ => True) (s.oldestEvent converter) := by
  have hstart : Found converter s (fun _ => False) (maxTime, none) := by
    constructor
    · exact le_rfl
    · intro k hk
      exact hk.elim
    · intro _
      rfl
    · intro node hnode
      cases hnode
  have h := hstart.foldl (finRange n) (pairwise_lt_finRange n) (fun _ _ _ hk => hk.elim)
  simp only [mem_finRange, or_true] at h
  exact h

theorem eventsList_of_due {t : Int} (h : t ∈ due converter s node) :
    ∃ x rest, (s.schedulers node).eventsList = x :: rest ∧ x.key ≠ maxTime ∧
      t = s.toDistributedClock converter node x.key := by
  unfold due EventScheduler.oldestEvent at h
  cases hlist : (s.schedulers node).eventsList with
  | nil =>
    rw [hlist] at h
    simp at h
  | cons x rest =>
    rw [hlist] at h
    simp only [] at h
    split at h
    · cases h
    · rename_i hne
      exact ⟨x, rest, rfl, hne, (Option.some.inj h).symm⟩

variable {limit : Int} (h : Valid converter bootCount s) (hlimit : BeforeMaxTime converter bootCount limit)

include hexact h hlimit in
theorem Valid.exists_due (hy : y ∈ s.pending) (hle : converter.distributedTime bootCount y ≤ limit) :
    ∃ t ∈ due converter s y.node, t ≤ converter.distributedTime bootCount y := by
  have hmem := mem_pending.mp hy
  have hordered := h.ordered y.node
  cases hlist : (s.schedulers y.node).eventsList with
  | nil => simp [hlist] at hmem
  | cons x rest =>
    rw [hlist] at hmem hordered
    have hkey : x.key ≤ y.entry.key := by
      rcases mem_cons.mp hmem with hx | hx
      · rw [hx]
      · exact ((pairwise_cons.mp hordered).1 _ hx).key_le
    have hdist : s.toDistributedClock converter y.node x.key ≤ converter.distributedTime bootCount y := by
      rw [toDistributedClock, h.bootCount_eq]
      exact (hexact.strictMono y.node).monotone hkey
    refine ⟨s.toDistributedClock converter y.node x.key, ?_, hdist⟩
    have hne : x.key ≠ maxTime := by
      intro heq
      rw [toDistributedClock, h.bootCount_eq, heq] at hdist
      exact absurd (hlimit.monotonic y.node) (not_lt.mpr (hdist.trans hle))
    simp [due, EventScheduler.oldestEvent, hlist, hne]

theorem exists_of_not_idle (h : ¬ (system converter handle).Idle limit s) :
    (s.oldestEvent converter).1 ≤ limit ∧ ∃ node, (s.oldestEvent converter).2 = some node := by
  simp only [RunUntil.System.Idle, system, not_forall, not_lt] at h
  obtain ⟨t, ht, hle⟩ := h
  split at ht
  · cases ht
  · rename_i hne
    cases ht
    refine ⟨hle, ?_⟩
    cases hnode : (s.oldestEvent converter).2 with
    | none => exact absurd ((found_oldestEvent s).eq_maxTime hnode) hne
    | some node => exact ⟨node, rfl⟩

include hexact h hlimit in
theorem Valid.lt_of_idle (hidle : (system converter handle).Idle limit s) (hy : y ∈ s.pending) :
    limit < converter.distributedTime bootCount y := by
  by_contra hle
  rw [not_lt] at hle
  obtain ⟨t, ht, hty⟩ := h.exists_due hexact hlimit hy hle
  have hbest : (s.oldestEvent converter).1 ≤ limit :=
    ((found_oldestEvent s).le_due y.node trivial t ht).trans (hty.trans hle)
  have hne : (s.oldestEvent converter).1 ≠ maxTime := (hbest.trans_lt hlimit.distributed).ne
  have hlt := hidle (s.oldestEvent converter).1 (by simp [system, hne])
  exact absurd hbest (not_le.mpr hlt)

/-! ### One iteration of the loop -/

include hexact h hlimit in
theorem Valid.noLater_of_oldest
    (hle : (s.oldestEvent converter).1 ≤ limit) (hnode : (s.oldestEvent converter).2 = some node)
    {x : Entry Int α} {rest : List (Entry Int α)} (hlist : (s.schedulers node).eventsList = x :: rest)
    (hx : (s.oldestEvent converter).1 = converter.toDistributedClock node ⟨bootCount node, x.key⟩)
    (hy : y ∈ s.pending) : Event.NoLater converter bootCount ⟨node, x⟩ y := by
  obtain ⟨-, -, hdue, hlower⟩ := (found_oldestEvent s).found node hnode
  have hx' : converter.distributedTime bootCount ⟨node, x⟩ = (s.oldestEvent converter).1 := hx.symm
  have hxy : (s.oldestEvent converter).1 ≤ converter.distributedTime bootCount y := by
    by_contra hlt
    rw [not_le] at hlt
    obtain ⟨t, ht, hty⟩ := h.exists_due hexact hlimit hy (hlt.le.trans hle)
    exact absurd ((found_oldestEvent s).le_due y.node trivial t ht) (not_le.mpr (hty.trans_lt hlt))
  rcases hxy.lt_or_eq with hlt | heq
  · left
    rw [hx']
    exact hlt
  · right
    refine ⟨hx'.trans heq, ?_⟩
    obtain ⟨t, ht, hty⟩ := h.exists_due hexact hlimit hy (heq ▸ hle)
    rcases lt_trichotomy y.node node with hk | hk | hk
    · have hlt := hlower y.node hk trivial t ht
      exact absurd (hty.trans heq.symm.le) (not_le.mpr hlt)
    · right
      refine ⟨hk.symm, ?_⟩
      have hmem := mem_pending.mp hy
      rw [hk, hlist] at hmem
      have hordered := h.ordered node
      rw [hlist] at hordered
      rcases mem_cons.mp hmem with hyx | hmem
      · rw [hyx]
      · rcases (pairwise_cons.mp hordered).1 _ hmem with hkey | ⟨-, htoken⟩
        · have hlt : converter.toDistributedClock node ⟨bootCount node, x.key⟩ <
              converter.toDistributedClock node ⟨bootCount node, y.entry.key⟩ := hexact.strictMono node hkey
          have heq' : converter.distributedTime bootCount y =
              converter.toDistributedClock node ⟨bootCount node, y.entry.key⟩ := by
            rw [TimeConverter.distributedTime, hk]
          rw [← hx, heq, heq'] at hlt
          exact absurd hlt (lt_irrefl _)
        · exact htoken.le
    · left
      exact hk

theorem Valid.pop (h : Valid converter bootCount s) {x : Entry Int α} {rest : List (Entry Int α)}
    (hlist : (s.schedulers node).eventsList = x :: rest)
    (hleast : ∀ y ∈ s.pending, Event.NoLater converter bootCount ⟨node, x⟩ y) :
    Valid converter bootCount
      (({ s with now := converter.distributedTime bootCount ⟨node, x⟩ }).pop node x rest) := by
  have hperm := pending_pop (s := { s with now := converter.distributedTime bootCount ⟨node, x⟩ }) hlist
  have hmem : ⟨node, x⟩ ∈ s.pending := hperm.mem_iff.mpr mem_cons_self
  constructor
  · intro k
    exact (setEvents_bootCount k).trans (h.bootCount_eq k)
  · intro k
    change (((s.setEvents node rest).schedulers k).eventsList).Pairwise _
    rw [setEvents_eventsList]
    split
    · have hordered := h.ordered node
      rw [hlist] at hordered
      exact (pairwise_cons.mp hordered).2
    · exact h.ordered k
  · exact h.tokens
  · refine List.Perm.trans ?_ h.accounted
    simp only [executedEvents, EventSchedulerScheduler.pop, map_append, map_cons, map_nil,
      append_assoc, singleton_append]
    refine List.Perm.append_left _ ?_
    exact perm_middle.symm.trans (hperm.symm.append_left _)
  · intro y hy
    have hy' : y ∈ s.pending := hperm.mem_iff.mpr (mem_cons_of_mem _ hy)
    rcases hleast y hy' with hlt | heq
    · exact hlt.le
    · exact heq.1.le
  · intro y hy
    have hnow := h.future _ hmem
    simp only [executedEvents, EventSchedulerScheduler.pop, map_append, map_cons, map_nil,
      mem_append, mem_singleton] at hy
    rcases hy with hy | rfl
    · exact (h.past y hy).trans hnow
    · exact le_rfl
  · intro c hc
    simp only [EventSchedulerScheduler.pop, mem_append, mem_singleton] at hc
    rcases hc with hc | rfl
    · exact h.least c hc
    · exact ⟨hmem, hleast⟩

include hexact h hlimit in
theorem Valid.step_eq (hidle : ¬ (system converter handle).Idle limit s) :
    ∃ node x rest, s.oldestEvent converter = (converter.distributedTime bootCount ⟨node, x⟩, some node) ∧
      (s.schedulers node).eventsList = x :: rest ∧
      converter.distributedTime bootCount ⟨node, x⟩ ≤ limit ∧
      (∀ y ∈ s.pending, Event.NoLater converter bootCount ⟨node, x⟩ y) ∧
      (system converter handle).step s =
        EventSchedulerScheduler.exec (handle node x.value (converter.distributedTime bootCount ⟨node, x⟩)
            s.locals)
          (({ s with now := converter.distributedTime bootCount ⟨node, x⟩ }).pop node x rest) := by
  obtain ⟨hle, node, hnode⟩ := exists_of_not_idle hidle
  obtain ⟨-, -, hdue, -⟩ := (found_oldestEvent s).found node hnode
  obtain ⟨x, rest, hlist, -, hx⟩ := eventsList_of_due hdue
  rw [toDistributedClock, h.bootCount_eq] at hx
  have hleast : ∀ y ∈ s.pending, Event.NoLater converter bootCount ⟨node, x⟩ y :=
    fun y hy => h.noLater_of_oldest hexact hlimit hle hnode hlist hx hy
  have hnow : s.now ≤ converter.distributedTime bootCount ⟨node, x⟩ :=
    h.future ⟨node, x⟩ (mem_pending.mpr (by rw [hlist]; exact mem_cons_self))
  have holdest : s.oldestEvent converter =
      (converter.distributedTime bootCount ⟨node, x⟩, some node) := Prod.ext hx hnode
  refine ⟨node, x, rest, holdest, hlist, hx.symm.le.trans hle, hleast, ?_⟩
  have hfrom : converter.fromDistributedClock node (converter.distributedTime bootCount ⟨node, x⟩)
      (bootCount node) = ⟨bootCount node, x.key⟩ := hexact.from_to node x.key
  simp only [system, holdest]
  rw [if_pos (by omega)]
  simp only [callOldestEvent, hlist, fromDistributedClock, h.bootCount_eq, hfrom]
  rw [if_neg (by simp), if_neg (by simp)]

include hexact h hlimit in
theorem Valid.step
    (hidle : ¬ (system converter handle).Idle limit s) (hcall : CallBehaves converter handle (· ≤ ·) s) :
    Ends (fun _ => False) (Valid converter bootCount) ((system converter handle).step s) := by
  obtain ⟨node, x, rest, holdest, hlist, -, hleast, hstep⟩ := h.step_eq hexact hlimit hidle
  rw [hstep]
  exact (h.pop hlist hleast).exec hexact _ (hcall _ node x rest holdest hlist)

/-! ### Whole runs -/

include hexact in
theorem Valid.runOnRunNode (h : Valid converter bootCount s)
    (hbehaves : AllSteps (fun s callback => Behaves converter (· ≤ ·) (callback s.now s.locals) s) runCallback
      (s.schedulers node).onRun s) : Ends (fun _ => False) (Valid converter bootCount) (s.runOnRunNode node) := by
  have hcallbacks := Ends.foldlM (E := fun _ => False) (Q := Valid converter bootCount)
    (fun t callback hb ht => ht.exec hexact (callback t.now t.locals) hb) _ hbehaves h
  refine hcallbacks.bind ?_
  intro t ht
  have hpending : (t.clearOnRun node).pending = t.pending := 
    flatMap_congr fun k _ => by rw [clearOnRun_eventsList]
  constructor
  · intro k
    rw [clearOnRun_bootCount]
    exact ht.bootCount_eq k
  · intro k
    rw [clearOnRun_eventsList]
    exact ht.ordered k
  · exact ht.tokens
  · rw [hpending]
    exact ht.accounted
  · rw [hpending]
    exact ht.future
  · exact ht.past
  · exact ht.least

include hexact in
theorem Valid.runOnRun (h : Valid converter bootCount s) (hrunning : s.isRunning = false)
    (hbehave : HandlersBehave converter handle (· ≤ ·) duration s) :
    Ends (fun _ => False) (Valid converter bootCount) s.runOnRun := by
  rw [EventSchedulerScheduler.runOnRun, if_neg (by simp [hrunning])]
  exact Ends.foldlM (fun t node hb ht => ht.runOnRunNode hexact hb) _ hbehave.onRun { h with }

/-- What `RunOnRun` leaves behind. -/
structure Ready (start : Int) (s : EventSchedulerScheduler n α σ) : Prop where
  now : s.now = start
  isRunning : s.isRunning = true
  onRun : ∀ k, (s.schedulers k).onRun = []

theorem frame_runCallbacks (callbacks : List (Int → σ → Program n α σ))
    (h : callbacks.foldlM runCallback s = .ok s') : Frame s s' := by
  induction callbacks generalizing s with
  | nil =>
    cases h
    exact Frame.refl _
  | cons callback rest ih =>
    obtain ⟨t, ht, hrest⟩ := Fallible.bind_eq_ok.mp h
    exact (frame_exec _ ht).trans (ih hrest)

theorem runOnRunNodes_spec (nodes : List (Fin n)) (h : nodes.foldlM runOnRunNode s = .ok s') :
    s'.now = s.now ∧ s'.isRunning = s.isRunning ∧
      ∀ k, k ∈ nodes ∨ (s.schedulers k).onRun = [] → (s'.schedulers k).onRun = [] := by
  induction nodes generalizing s with
  | nil =>
    cases h
    simp
  | cons node rest ih =>
    obtain ⟨t, ht, hrest⟩ := Fallible.bind_eq_ok.mp h
    obtain ⟨u, hu, hut⟩ := Fallible.bind_eq_ok.mp ht
    cases hut
    have hframe := frame_runCallbacks _ hu
    obtain ⟨hnow, hrunning, honRun⟩ := ih hrest
    refine ⟨hnow.trans hframe.now, hrunning.trans hframe.isRunning, ?_⟩
    intro k hk
    apply honRun
    by_cases hnode : k = node
    · right
      rw [clearOnRun_onRun, if_pos hnode]
    · rcases hk with hk | hk
      · exact .inl (mem_of_ne_of_mem hnode hk)
      · right
        rw [clearOnRun_onRun, if_neg hnode, hframe.onRun k]
        exact hk

theorem ready_of_runOnRun (h : s.runOnRun = .ok s') : Ready s.now s' := by
  unfold runOnRun at h
  split at h
  · cases h
  · obtain ⟨hnow, hrunning, honRun⟩ := runOnRunNodes_spec _ h
    exact ⟨hnow, hrunning, fun k => honRun k (.inl (mem_finRange k))⟩

theorem runOnRun_of_nil (hrunning : s.isRunning = false) (honRun : ∀ k, (s.schedulers k).onRun = []) :
    s.runOnRun = .ok { s with isRunning := true } := by
  have hnode : ∀ t : EventSchedulerScheduler n α σ, (∀ k, (t.schedulers k).onRun = []) → ∀ node,
      t.runOnRunNode node = .ok t := by
    intro t ht node
    unfold runOnRunNode
    rw [ht node]
    exact congrArg Except.ok (clearOnRun_of_nil (ht node))
  have hnodes : ∀ nodes : List (Fin n), nodes.foldlM runOnRunNode { s with isRunning := true } =
      .ok { s with isRunning := true } := by
    intro nodes
    induction nodes with
    | nil => rfl
    | cons node rest ih =>
      rw [foldlM_cons, hnode { s with isRunning := true } honRun node]
      exact ih
  rw [runOnRun, if_neg (by simp [hrunning])]
  exact hnodes _

theorem runsFor_of_error {e : SchedulerError} (h : s.runOnRun = .error e) :
    RunsFor converter handle duration s r ↔ r = .error e := by
  unfold RunsFor runFor
  rw [h]
  constructor
  · rintro ⟨fuel, hr⟩
    exact (Option.some.inj hr).symm
  · rintro rfl
    exact ⟨0, rfl⟩

theorem runsFor_of_ok (h : s.runOnRun = .ok s') : RunsFor converter handle duration s r ↔
      ∃ r', RunUntil.Returns (system converter handle) (s.now + duration) s' r' ∧
        r'.map (·.stop (s.now + duration)) = r := by
  unfold RunsFor runFor RunUntil.Returns
  rw [h]
  constructor
  · rintro ⟨fuel, hr⟩
    obtain ⟨r', hr', hmap⟩ := Option.map_eq_some_iff.mp hr
    exact ⟨r', ⟨fuel, hr'⟩, hmap⟩
  · rintro ⟨r', ⟨fuel, hr'⟩, hmap⟩
    exact ⟨fuel, Option.map_eq_some_iff.mpr ⟨r', hr', hmap⟩⟩

/-! ### Cutting a run in two -/

theorem step_eq_ok (h : (system converter handle).step s = .ok s') :
    s'.now = (s.oldestEvent converter).1 ∧ s'.isRunning = s.isRunning ∧
      ∀ k, (s'.schedulers k).onRun = (s.schedulers k).onRun := by
  simp only [system] at h
  split at h
  · split at h
    · cases h
    · unfold callOldestEvent at h
      split at h
      · cases h
      · simp only [] at h
        split at h
        · cases h
        · split at h
          · cases h
          · have hframe := frame_exec _ h
            refine ⟨hframe.now, hframe.isRunning, ?_⟩
            intro k
            rw [hframe.onRun k]
            exact setEvents_onRun k
  · cases h

/-- The clock only matters for the check against going backwards. -/
theorem step_now (hnow : s.now ≤ (s.oldestEvent converter).1 + 1) (htime : time ≤ (s.oldestEvent converter).1 + 1) :
    (system converter handle).step { s with now := time } = (system converter handle).step s := by
  have holdest : ({ s with now := time } : EventSchedulerScheduler n α σ).oldestEvent converter =
      s.oldestEvent converter := rfl
  simp only [system, holdest]
  rw [if_pos htime, if_pos hnow]

theorem returns_stop_iff {first last : Int} (hidle : (system converter handle).Idle first s) (hnow : s.now ≤ first) :
    (∃ r', RunUntil.Returns (system converter handle) last { s with now := first } r' ∧ r'.map (·.stop last) = r) ↔
      ∃ r', RunUntil.Returns (system converter handle) last s r' ∧ r'.map (·.stop last) = r := by
  have hidle_iff : (system converter handle).Idle last { s with now := first } ↔
      (system converter handle).Idle last s := Iff.rfl
  by_cases hlast : (system converter handle).Idle last s
  · simp only [returns_of_idle hlast, returns_of_idle (hidle_iff.mpr hlast), exists_eq_left]
    rfl
  · -- the next event is after the end of the first run, so the check passes either way
    have hnext : first < (s.oldestEvent converter).1 := by
      obtain ⟨-, node, hnode⟩ := exists_of_not_idle hlast
      obtain ⟨-, hlt, -, -⟩ := (found_oldestEvent s).found node hnode
      exact hidle _ (by simp [system, hlt.ne])
    have hstep : (system converter handle).step { s with now := first } = (system converter handle).step s :=
      step_now (by omega) (by omega)
    have hlast' : ¬ (system converter handle).Idle last { s with now := first } := hlast
    cases hs : (system converter handle).step s with
    | error e =>
      rw [hs] at hstep
      simp [returns_of_error hlast hs, returns_of_error hlast' hstep]
    | ok s' =>
      rw [hs] at hstep
      simp [returns_of_step hlast hs, returns_of_step hlast' hstep]

/-- The second of two runs, after the first returned `r`. -/
def ThenRunsFor (converter : TimeConverter n) (handle : Handlers n α σ) (duration : Int) :
    Except SchedulerError (EventSchedulerScheduler n α σ) →
      Except SchedulerError (EventSchedulerScheduler n α σ) → Prop
  | .error e, r => r = .error e
  | .ok s, r => RunsFor converter handle duration s r

theorem runsFor_add {a b : Int} (ha : 0 ≤ a) (hb : 0 ≤ b) (s : EventSchedulerScheduler n α σ)
    (r : Except SchedulerError (EventSchedulerScheduler n α σ)) : RunsFor converter handle (a + b) s r ↔
      ∃ r1, RunsFor converter handle a s r1 ∧ ThenRunsFor converter handle b r1 r := by
  cases hrun : s.runOnRun with
  | error e =>
    simp [runsFor_of_error hrun, exists_eq_left, ThenRunsFor]
  | ok s₁ =>
    have hready := ready_of_runOnRun hrun
    have hend : s.now + (a + b) = s.now + a + b := by ring
    simp only [runsFor_of_ok hrun, hend]
    -- what holds where the first run stops
    have hstop : ∀ t, RunUntil.Returns (system converter handle) (s.now + a) s₁ (.ok t) →
        (t.now ≤ s.now + a ∧ t.isRunning = true ∧ ∀ k, (t.schedulers k).onRun = []) ∧
          (system converter handle).Idle (s.now + a) t := by
      intro t ht
      have hs1 : s₁.now ≤ s.now + a ∧ s₁.isRunning = true ∧ ∀ k, (s₁.schedulers k).onRun = [] :=
        ⟨by rw [hready.now]; omega, hready.isRunning, hready.onRun⟩
      refine ht.invariant (P := fun t => t.now ≤ s.now + a ∧ t.isRunning = true ∧
        ∀ k, (t.schedulers k).onRun = []) (E := fun _ => True) ?_ hs1
      intro u _ hu hidle
      cases hstep : (system converter handle).step u with
      | error e => trivial
      | ok v =>
        obtain ⟨hnow, hrunning, honRun⟩ := step_eq_ok hstep
        refine ⟨hnow.le.trans (exists_of_not_idle hidle).1, hrunning.trans hu.2.1, ?_⟩
        intro k
        rw [honRun k]
        exact hu.2.2 k
    have hsecond : ∀ t, RunUntil.Returns (system converter handle) (s.now + a) s₁ (.ok t) →
        (RunsFor converter handle b (t.stop (s.now + a)) r ↔
          ∃ r', RunUntil.Returns (system converter handle) (s.now + a + b) t r' ∧
            r'.map (·.stop (s.now + a + b)) = r) := by
      intro t ht
      obtain ⟨⟨hnow, hrunning, honRun⟩, hidle⟩ := hstop t ht
      have hagain : (t.stop (s.now + a)).runOnRun = .ok { t with now := s.now + a } := by
        rw [runOnRun_of_nil (s := t.stop (s.now + a)) rfl honRun, ← hrunning]
        rfl
      rw [runsFor_of_ok hagain]
      exact returns_stop_iff hidle hnow
    constructor
    · rintro ⟨r', hr', hmap⟩
      obtain ⟨r1, hr1, hcont⟩ := (returns_iff_split (show s.now + a ≤ s.now + a + b by omega)).mp hr'
      refine ⟨r1.map (·.stop (s.now + a)), ⟨r1, hr1, rfl⟩, ?_⟩
      cases r1 with
      | error e =>
        rw [show r' = .error e from hcont] at hmap
        exact hmap.symm
      | ok t => exact (hsecond t hr1).mpr ⟨r', hcont, hmap⟩
    · rintro ⟨_, ⟨r1, hr1, rfl⟩, hthen⟩
      cases r1 with
      | error e =>
        refine ⟨.error e, (returns_iff_split (show s.now + a ≤ s.now + a + b by omega)).mpr
          ⟨.error e, hr1, rfl⟩, ?_⟩
        exact hthen.symm
      | ok t =>
        obtain ⟨r', hr', hmap⟩ := (hsecond t hr1).mp hthen
        exact ⟨r', (returns_iff_split (show s.now + a ≤ s.now + a + b by omega)).mpr
          ⟨.ok t, hr1, hr'⟩, hmap⟩

include hexact in
/-- A handler that only schedules later leaves some of the events there were, and later ones. -/
theorem exec_pending (program : Program n α σ) {before : Multiset (Event n α)} (hnow : s.now = time)
    (hboot : ∀ k, (s.schedulers k).bootCount = bootCount k) (hbehaves : Behaves converter (· < ·) program s)
    (hexec : exec program s = .ok s')
    (hs : ∃ kept added, (s.pending : Multiset (Event n α)) = kept + added ∧ kept ≤ before ∧
      ∀ x ∈ added, time < converter.distributedTime bootCount x) :
    ∃ kept added, (s'.pending : Multiset (Event n α)) = kept + added ∧ kept ≤ before ∧
      ∀ x ∈ added, time < converter.distributedTime bootCount x := by
  induction program generalizing s with
  | done locals =>
    cases hexec
    exact hs
  | schedule node t callback rest ih =>
    have hframe := frame_schedule s node t callback
    refine ih _ (hframe.now.trans hnow) (fun k => (hframe.bootCount k).trans (hboot k)) hbehaves.2 hexec ?_
    obtain ⟨kept, added, hpending, hkept, hadded⟩ := hs
    refine ⟨kept, ⟨node, ⟨t, s.nextToken, callback⟩⟩ ::ₘ added, ?_, hkept, ?_⟩
    · rw [Multiset.coe_eq_coe.mpr (pending_schedule s node t callback), ← Multiset.cons_coe, hpending,
        Multiset.add_cons]
    · intro x hx
      rcases Multiset.mem_cons.mp hx with rfl | hx
      · rw [← hnow, ← toDistributedClock_monotonicNow hexact (hboot node)]
        exact hexact.strictMono node hbehaves.1
      · exact hadded x hx
  | deschedule node token rest ih =>
    obtain ⟨t, ht, hrest⟩ := Fallible.bind_eq_ok.mp hexec
    obtain ⟨t', ht', hbehaves'⟩ := hbehaves
    cases ht.symm.trans ht'
    have hframe := frame_deschedule ht
    refine ih (hframe.now.trans hnow) (fun k => (hframe.bootCount k).trans (hboot k)) hbehaves' hrest ?_
    obtain ⟨x, hx, rfl⟩ := deschedule_eq_ok ht
    obtain ⟨kept, added, hpending, hkept, hadded⟩ := hs
    rw [Multiset.coe_eq_coe.mpr (pending_deschedule hx), ← Multiset.cons_coe] at hpending
    -- the event that goes is one that was there or one that was added
    have hmem : ⟨node, x⟩ ∈ kept + added := by
      rw [← hpending]
      exact Multiset.mem_cons_self _ _
    rcases Multiset.mem_add.mp hmem with hmem | hmem
    · obtain ⟨kept', rfl⟩ := Multiset.exists_cons_of_mem hmem
      rw [Multiset.cons_add, Multiset.cons_inj_right] at hpending
      exact ⟨kept', added, hpending, (Multiset.le_cons_self _ _).trans hkept, hadded⟩
    · obtain ⟨added', rfl⟩ := Multiset.exists_cons_of_mem hmem
      rw [Multiset.add_cons, Multiset.cons_inj_right] at hpending
      exact ⟨kept, added', hpending, hkept, fun y hy => hadded y (Multiset.mem_cons_of_mem hy)⟩

def remaining (converter : TimeConverter n) (bootCount : Fin n → Nat) (limit : Int) (events : Multiset (Event n α)) :
    Multiset Nat :=
  (events.filter fun x => converter.distributedTime bootCount x ≤ limit).map fun x =>
    (limit + 1 - converter.distributedTime bootCount x).toNat

theorem remaining_cons {events : Multiset (Event n α)} (hx : converter.distributedTime bootCount x ≤ limit) :
    remaining converter bootCount limit (x ::ₘ events) =
      (limit + 1 - converter.distributedTime bootCount x).toNat ::ₘ remaining converter bootCount limit events := by
  unfold remaining
  rw [Multiset.filter_cons_of_pos (p := fun x => converter.distributedTime bootCount x ≤ limit) events hx,
    Multiset.map_cons]

include hexact h hlimit in
theorem Valid.remaining_lt
    (hidle : ¬ (system converter handle).Idle limit s) (hcall : CallBehaves converter handle (· < ·) s)
    (hstep : (system converter handle).step s = .ok s') :
    (remaining converter bootCount limit (s'.pending : Multiset (Event n α))).IsDershowitzMannaLT
      (remaining converter bootCount limit (s.pending : Multiset (Event n α))) := by
  obtain ⟨node, x, rest, holdest, hlist, hle, hleast, heq⟩ := h.step_eq hexact hlimit hidle
  rw [heq] at hstep
  have hpop := h.pop hlist hleast
  have hperm := pending_pop (s := { s with now := converter.distributedTime bootCount ⟨node, x⟩ }) hlist
  obtain ⟨kept, added, hpending, hkept, hadded⟩ := exec_pending hexact _ rfl hpop.bootCount_eq
    (hcall _ node x rest holdest hlist) hstep ⟨_, 0, (add_zero _).symm, le_rfl, by simp⟩
  obtain ⟨gone, hgone⟩ := Multiset.le_iff_exists_add.mp hkept
  have hbefore : (s.pending : Multiset (Event n α)) = kept + (⟨node, x⟩ ::ₘ gone) := by
    rw [show (s.pending : Multiset (Event n α)) = _ from Multiset.coe_eq_coe.mpr hperm, ← Multiset.cons_coe, hgone,
      Multiset.add_cons]
  have hadd : ∀ events events' : Multiset (Event n α), remaining converter bootCount limit (events + events') =
      remaining converter bootCount limit events + remaining converter bootCount limit events' := by
    simp [remaining]
  rw [hpending, hbefore, hadd, hadd, remaining_cons hle]
  refine ⟨_, _, _, Multiset.cons_ne_zero, rfl, rfl, ?_⟩
  intro y hy
  obtain ⟨event, hevent, rfl⟩ := Multiset.mem_map.mp hy
  obtain ⟨hevent, hbound⟩ := Multiset.mem_filter.mp hevent
  refine ⟨_, Multiset.mem_cons_self _ _, ?_⟩
  have hlater : converter.distributedTime bootCount ⟨node, x⟩ <
      converter.distributedTime bootCount event := hadded event hevent
  omega

/-! ### The result -/

theorem Valid.create (onRun : Fin n → List (Int → σ → Program n α σ)) (now : Int) (locals : σ) :
    Valid converter bootCount (create bootCount onRun now locals : EventSchedulerScheduler n α σ) := by
  have hpending :
      (EventSchedulerScheduler.create bootCount onRun now locals : EventSchedulerScheduler n α σ).pending = [] := by
    simp [pending, EventSchedulerScheduler.create]
  constructor
  · intro k
    rfl
  · intro k
    exact List.Pairwise.nil
  · rfl
  · rw [hpending]
    exact List.Perm.nil
  · rw [hpending]
    simp
  · intro x hx
    cases hx
  · intro c hc
    cases hc

theorem Valid.scheduleAll (events : List (Fin n × Int × α)) (h : Valid converter bootCount s)
    (hevents : ∀ event ∈ events, s.now ≤ converter.toDistributedClock event.1 ⟨bootCount event.1, event.2.1⟩) :
    Valid converter bootCount (s.scheduleAll events) := by
  induction events generalizing s with
  | nil => exact h
  | cons event rest ih =>
    apply ih (h.schedule event.2.2 (hevents event mem_cons_self))
    intro event' hevent'
    exact hevents event' (mem_cons_of_mem _ hevent')

structure ExecutedUntil (converter : TimeConverter n) (bootCount : Fin n → Nat) (endTime : Int)
    (s : EventSchedulerScheduler n α σ) : Prop where
  once : s.executedEvents.Nodup
  mem_scheduled : ∀ x ∈ s.executedEvents, x ∈ s.scheduled ∧ x ∉ s.descheduled
  iff_due : ∀ x ∈ s.scheduled, x ∉ s.descheduled →
    (x ∈ s.executedEvents ↔ converter.distributedTime bootCount x ≤ endTime)
  least : ∀ c ∈ s.executed, c.event ∈ c.pending ∧ ∀ x ∈ c.pending, c.event.NoLater converter bootCount x
  tokens : (s.scheduled.map fun x => x.entry.token) = range s.nextToken

include hexact h hlimit in
theorem Valid.executedUntil (hnow : s.now ≤ limit) (hidle : (system converter handle).Idle limit s) :
    ExecutedUntil converter bootCount limit s := by
  have hnodup := h.accounted.nodup_iff.mpr h.scheduled_nodup
  rw [nodup_append', nodup_append'] at hnodup
  obtain ⟨⟨hexecuted, -, hdisjoint⟩, -, hpending⟩ := hnodup
  constructor
  · exact hexecuted
  · intro x hx
    refine ⟨h.accounted.mem_iff.mp (by simp [hx]), ?_⟩
    exact hdisjoint hx
  · intro x hx hdescheduled
    constructor
    · intro hx'
      exact (h.past x hx').trans hnow
    · intro hdue
      have hmem := h.accounted.mem_iff.mpr hx
      simp only [mem_append, hdescheduled, or_false] at hmem
      rcases hmem with hmem | hmem
      · exact hmem
      · exact absurd hdue (not_le.mpr (h.lt_of_idle hexact hlimit hidle hmem))
  · exact h.least
  · exact h.tokens

include hexact in
theorem Valid.runFor (h : Valid converter bootCount s) (hrunning : s.isRunning = false)
    (hduration : 0 ≤ duration) (hend : BeforeMaxTime converter bootCount (s.now + duration))
    (hbehave : HandlersBehave converter handle (· ≤ ·) duration s) (hr : RunsFor converter handle duration s r) :
    ∃ s', r = .ok s' ∧ s'.now = s.now + duration ∧ ExecutedUntil converter bootCount (s.now + duration) s' := by
  have hstart := h.runOnRun hexact hrunning hbehave
  cases hrun : s.runOnRun with
  | error e =>
    rw [hrun] at hstart
    exact hstart.elim
  | ok s₁ =>
    rw [hrun] at hstart
    have hready := ready_of_runOnRun hrun
    obtain ⟨r', hr', rfl⟩ := (runsFor_of_ok hrun).mp hr
    have hends := hr'.invariant (P := fun t => Valid converter bootCount t ∧ t.now ≤ s.now + duration)
      (E := fun _ => False) (by
        intro t hvisit ht hidle
        refine (ht.1.step hexact hend hidle (hbehave.calls s₁ hrun t hvisit)).mono (fun _ => id) fun u hu hvalid => ?_
        exact ⟨hvalid, (step_eq_ok hu).1.le.trans (exists_of_not_idle hidle).1⟩)
      ⟨hstart, by rw [hready.now]; omega⟩
    cases r' with
    | error e => exact hends.elim
    | ok t =>
      obtain ⟨⟨ht, hnow⟩, hidle⟩ := hends
      exact ⟨t.stop (s.now + duration), rfl, rfl, { ht.executedUntil hexact hend hnow hidle with }⟩

include hexact in
theorem Valid.exists_runsFor (h : Valid converter bootCount s) (hrunning : s.isRunning = false)
    (hend : BeforeMaxTime converter bootCount (s.now + duration))
    (hbehave : HandlersBehave converter handle (· ≤ ·) duration s)
    (hlater : HandlersBehave converter handle (· < ·) duration s) : ∃ r, RunsFor converter handle duration s r := by
  have hstart := h.runOnRun hexact hrunning hbehave
  cases hrun : s.runOnRun with
  | error e => exact ⟨.error e, (runsFor_of_error hrun).mpr rfl⟩
  | ok s₁ =>
    rw [hrun] at hstart
    obtain ⟨r', hr'⟩ := exists_returns (system converter handle) (s.now + duration)
      Multiset.wellFounded_isDershowitzMannaLT
      (fun t => remaining converter bootCount (s.now + duration) (t.pending : Multiset (Event n α)))
      (P := Valid converter bootCount)
      (by
        intro t u hvisit ht hidle hu
        exact ⟨(ht.step hexact hend hidle (hbehave.calls s₁ hrun t hvisit)).ok hu,
          ht.remaining_lt hexact hend hidle (hlater.calls s₁ hrun t hvisit) hu⟩)
      hstart
    exact ⟨_, (runsFor_of_ok hrun).mpr ⟨r', hr', rfl⟩⟩

def start (bootCount : Fin n → Nat) (onRun : Fin n → List (Int → σ → Program n α σ)) (now : Int) (locals : σ)
    (events : List (Fin n × Int × α)) : EventSchedulerScheduler n α σ :=
  (create bootCount onRun now locals).scheduleAll events

theorem frame_scheduleAll (events : List (Fin n × Int × α)) : Frame s (s.scheduleAll events) := by
  induction events generalizing s with
  | nil => exact Frame.refl s
  | cons event rest ih => exact (frame_schedule s event.1 event.2.1 event.2.2).trans ih

/-- Every run from events that are not in the past, by handlers that schedule nothing in the past, passes all checks,
executes exactly the events up to its end time, once and in order, and does the same when cut in two. It returns when
handlers schedule nothing for the current time. -/
theorem runFor_executes_due_events (converter : TimeConverter n) (handle : Handlers n α σ) (bootCount : Fin n → Nat)
    (onRun : Fin n → List (Int → σ → Program n α σ)) (now : Int) (locals : σ) (events : List (Fin n × Int × α))
    (duration : Int) (hexact : converter.Exact bootCount) (hduration : 0 ≤ duration)
    (hend : BeforeMaxTime converter bootCount (now + duration))
    (hevents : ∀ event ∈ events, now ≤ converter.toDistributedClock event.1 ⟨bootCount event.1, event.2.1⟩)
    (hbehave : HandlersBehave converter handle (· ≤ ·) duration (start bootCount onRun now locals events)) :
    (∀ r, RunsFor converter handle duration (start bootCount onRun now locals events) r →
      ∃ s', r = .ok s' ∧ s'.now = now + duration ∧ ExecutedUntil converter bootCount (now + duration) s') ∧
    (HandlersBehave converter handle (· < ·) duration (start bootCount onRun now locals events) →
      ∃ r, RunsFor converter handle duration (start bootCount onRun now locals events) r) ∧
    ∀ a b, 0 ≤ a → 0 ≤ b → ∀ r,
      (RunsFor converter handle (a + b) (start bootCount onRun now locals events) r ↔
        ∃ r₁, RunsFor converter handle a (start bootCount onRun now locals events) r₁ ∧
          ThenRunsFor converter handle b r₁ r) := by
  have hvalid : Valid converter bootCount (start bootCount onRun now locals events) :=
    (Valid.create onRun now locals).scheduleAll events hevents
  have hframe := frame_scheduleAll (s := create bootCount onRun now locals) events
  have hnow : (start bootCount onRun now locals events).now = now := hframe.now
  have hrunning : (start bootCount onRun now locals events).isRunning = false := hframe.isRunning
  rw [← hnow] at hend
  refine ⟨?_, ?_, ?_⟩
  · intro r hr
    have hresult := hvalid.runFor hexact hrunning hduration hend hbehave hr
    rwa [hnow] at hresult
  · intro hlater
    exact hvalid.exists_runsFor hexact hrunning hend hbehave hlater
  · intro a b ha hb r
    exact runsFor_add ha hb _ r

section Clocks

def offsetConverter : TimeConverter 2 where
  toDistributedClock node t := t.time - 100 * node
  fromDistributedClock node t boot := ⟨boot, t + 100 * node⟩

theorem exact_offsetConverter : offsetConverter.Exact fun _ => 0 where
  strictMono node := by
    intro t t' h
    simp only [offsetConverter]
    omega
  from_to node t := by
    simp [offsetConverter]
  to_from node d := by
    simp [offsetConverter]
  boot node d := rfl

/-- The event 0 schedules the event 1 on the other node, 5 later. -/
def relay : Handlers 2 Nat Unit
  | _, 0, now, _ => .schedule (Fin.last 1) (now + 105) 1 fun _ => .done ()
  | _, _ + 1, _, _ => .done ()

theorem callBehaves_relay {allowed : Int → Int → Prop} (hallowed : ∀ t, allowed t (t + 5))
    (s : EventSchedulerScheduler 2 Nat Unit) : CallBehaves offsetConverter relay allowed s := by
  intro time node x rest _ _
  cases hx : x.value with
  | zero =>
    refine ⟨?_, trivial⟩
    have hnow : monotonicNow offsetConverter (({ s with now := time }).pop node x rest) (Fin.last 1) = time + 100 := by
      simp [monotonicNow, fromDistributedClock, offsetConverter, pop, setEvents]
    rw [hnow, show time + 105 = time + 100 + 5 by ring]
    exact hallowed _
  | succ k => trivial

theorem handlersBehave_relay {allowed : Int → Int → Prop} (hallowed : ∀ t, allowed t (t + 5)) (duration now : Int)
    (events : List (Fin 2 × Int × Nat)) :
    HandlersBehave offsetConverter relay allowed duration (start (fun _ => 0) (fun _ => []) now () events) where
  onRun := by
    have honRun : ∀ k, ((start (fun _ => 0) (fun _ => []) now () events :
        EventSchedulerScheduler 2 Nat Unit).schedulers k).onRun = [] := fun k => (frame_scheduleAll events).onRun k
    suffices hall : ∀ nodes s, (∀ k, ((s : EventSchedulerScheduler 2 Nat Unit).schedulers k).onRun = []) →
        AllSteps (fun s node => AllSteps (fun s callback =>
          Behaves offsetConverter allowed (callback s.now s.locals) s) runCallback (s.schedulers node).onRun s)
          runOnRunNode nodes s from hall _ _ honRun
    intro nodes
    induction nodes with
    | nil =>
      intro s _
      trivial
    | cons node rest ih =>
      intro s hs
      refine ⟨by simp only [hs node]; trivial, ?_⟩
      intro s' hs'
      apply ih
      intro k
      exact (runOnRunNodes_spec [node] (by rw [foldlM_cons, hs']; rfl)).2.2 k (.inr (hs k))
  calls := fun _ _ t _ => callBehaves_relay hallowed t

theorem runFor_executes_due_events_relay :
    (∃ r, RunsFor offsetConverter relay 10 (start (fun _ => 0) (fun _ => []) 0 () [(0, 3, 0), (1, 102, 7)]) r) ∧
      ∀ r, RunsFor offsetConverter relay 10 (start (fun _ => 0) (fun _ => []) 0 () [(0, 3, 0), (1, 102, 7)]) r →
        ∃ s', r = .ok s' ∧ s'.now = 10 ∧ ExecutedUntil offsetConverter (fun _ => 0) 10 s' := by
  have hresult := runFor_executes_due_events offsetConverter relay (fun _ => 0) (fun _ => []) 0 ()
    [(0, 3, 0), (1, 102, 7)] 10 exact_offsetConverter (by decide) ⟨by decide, by decide⟩ (by decide)
    (handlersBehave_relay (fun t => by omega) 10 0 _)
  exact ⟨hresult.2.1 (handlersBehave_relay (fun t => by omega) 10 0 _), hresult.1⟩

/-- An event that was in the past before the run started stops the run. -/
theorem past_event_stops_run :
    offsetConverter.Exact (fun _ => 0) ∧
      HandlersBehave offsetConverter relay (· ≤ ·) 10 (start (fun _ => 0) (fun _ => []) 0 () [(0, -2, 1)]) ∧
      RunsFor offsetConverter relay 10 (start (fun _ => 0) (fun _ => []) 0 () [(0, -2, 1)])
        (.error .timeWentBackwards) :=
  ⟨exact_offsetConverter, handlersBehave_relay (fun t => by omega) 10 0 _, 1, by rfl⟩

end Clocks

end EventSchedulerScheduler

end RobotCode.Events
