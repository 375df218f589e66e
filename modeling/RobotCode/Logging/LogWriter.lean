import RobotCode.Logging.Sorting

/-!
# Writing messages nearly in order

A `Logger` writes the messages of its channels one channel after another, so that its files are out of order.
It does so in slices of at most one polling period: all messages before the end of the slice are written, of
every channel, before any later one. Within a slice messages differ by less than the polling period. That keeps
the order that the readers of its files rely on.
-/

namespace RobotCode.Logging

open List

inductive LogType
  | logMessage
  | logDeliveryTimeOnly
  | logMessageAndDeliveryTime
  | logRemoteMessage
  deriving DecidableEq, Repr

/-- What another node tells about the delivery of a message to it. -/
structure RemoteMessage where
  channelIndex : Nat
  queueIndex : Nat
  monotonicSentTime : Int
  realtimeSentTime : Int
  monotonicRemoteTime : Int
  realtimeRemoteTime : Int
  remoteQueueIndex : Nat
  isTime : IsTime monotonicSentTime := by decide

structure Context where
  monotonicEventTime : Int
  realtimeEventTime : Int := 0
  monotonicRemoteTime : Int := monotonicEventTime
  realtimeRemoteTime : Int := realtimeEventTime
  queueIndex : Nat
  remoteQueueIndex : Nat := queueIndex
  data : List UInt8 := []
  remoteMessage : Option RemoteMessage := none
  isTime : IsTime monotonicEventTime := by decide
  isRemoteTime : IsTime monotonicRemoteTime := by decide

/-- What `PackMessage` writes of a message. -/
def packMessage (context : Context) (channelIndex : Nat) : LogType → UnpackedMessageHeader
  | .logRemoteMessage => {
      channelIndex
      queueIndex := context.remoteQueueIndex
      monotonicSentTime := context.monotonicRemoteTime
      realtimeSentTime := context.realtimeRemoteTime
      span := context.data
      isTime := context.isRemoteTime }
  | .logMessage => {
      channelIndex
      queueIndex := context.queueIndex
      monotonicSentTime := context.monotonicEventTime
      realtimeSentTime := context.realtimeEventTime
      span := context.data
      isTime := context.isTime }
  | .logMessageAndDeliveryTime => {
      channelIndex
      queueIndex := context.queueIndex
      monotonicSentTime := context.monotonicEventTime
      realtimeSentTime := context.realtimeEventTime
      monotonicRemoteTime := some context.monotonicRemoteTime
      realtimeRemoteTime := some context.realtimeRemoteTime
      remoteQueueIndex := some context.remoteQueueIndex
      span := context.data
      isTime := context.isTime }
  | .logDeliveryTimeOnly => {
      channelIndex
      queueIndex := context.queueIndex
      monotonicSentTime := context.monotonicEventTime
      realtimeSentTime := context.realtimeEventTime
      monotonicRemoteTime := some context.monotonicRemoteTime
      realtimeRemoteTime := some context.realtimeRemoteTime
      remoteQueueIndex := some context.remoteQueueIndex
      isTime := context.isTime }

structure FetcherStruct where
  channelIndex : Nat
  logType : LogType := .logMessage
  messages : List Context
  fetched : Nat := 0
  written : Bool := false
  writer : Option Nat := none
  timestampWriter : Option Nat := none
  contentsWriter : Option Nat := none

structure LoggedMessage where
  writer : Nat
  isLocal : Bool
  header : UnpackedMessageHeader

structure LoggerConfig where
  pollingPeriod : Nat
  pollingPeriod_pos : 0 < pollingPeriod
  /-- From the channels of the event loop to those of the log. -/
  loggedChannelIndex : Nat → Nat := id

namespace FetcherStruct

variable (cfg : LoggerConfig)

def context (f : FetcherStruct) : Option Context := if f.fetched = 0 then none else f.messages[f.fetched - 1]?

/-- Moves on to the next message, when `available` messages were sent. -/
def fetchNext (available : Nat) (f : FetcherStruct) : Option FetcherStruct :=
  if f.fetched < available ∧ f.fetched < f.messages.length then some { f with fetched := f.fetched + 1 } else none

/-- Moves on to the latest message. -/
def fetch (available : Nat) (f : FetcherStruct) : FetcherStruct :=
  { f with fetched := max f.fetched (min available f.messages.length) }

/-- Header of the contents of a remote message, that was received at `timestampTime`. -/
def packContents (msg : RemoteMessage) (timestampTime : Int) : UnpackedMessageHeader where
  channelIndex := cfg.loggedChannelIndex msg.channelIndex
  queueIndex := msg.queueIndex
  monotonicSentTime := msg.monotonicSentTime
  realtimeSentTime := msg.realtimeSentTime
  monotonicRemoteTime := some msg.monotonicRemoteTime
  realtimeRemoteTime := some msg.realtimeRemoteTime
  remoteQueueIndex := some msg.remoteQueueIndex
  monotonicTimestampTime := timestampTime
  hasMonotonicTimestampTime := true
  isTime := msg.isTime

def write (f : FetcherStruct) (context : Context) : List LoggedMessage :=
  (f.writer.toList.map fun writer =>
    ⟨writer, decide (f.logType ≠ .logRemoteMessage), packMessage context f.channelIndex f.logType⟩) ++
  (f.timestampWriter.toList.map fun writer =>
    ⟨writer, true, packMessage context f.channelIndex .logDeliveryTimeOnly⟩) ++
  (f.contentsWriter.toList.flatMap fun writer => context.remoteMessage.toList.map fun msg =>
    ⟨writer, false, packContents cfg msg context.monotonicEventTime⟩)

def fetchUnwritten (available : Nat) (f : FetcherStruct) : Option FetcherStruct :=
  if f.written then f.fetchNext available else some f

/-- The loop over the messages of one channel: writes those before `t`. -/
def logUntil (available : Nat) (t : Int) (f : FetcherStruct) : FetcherStruct × List LoggedMessage :=
  match h : f.fetchUnwritten available with
  | none => (f, [])
  | some f' =>
    match f'.context with
    | none => (f', [])
    | some context =>
      if context.monotonicEventTime ≥ t then ({ f' with written := false }, [])
      else
        let (last, rest) := logUntil available t { f' with written := true }
        (last, write cfg f' context ++ rest)
termination_by 2 * (f.messages.length - f.fetched) + if f.written then 0 else 1
decreasing_by
  rw [fetchUnwritten] at h
  split at h
  · next hwritten =>
    rw [fetchNext] at h
    split at h
    · obtain rfl := Option.some.inj h
      simp [hwritten]
      omega
    · cases h
  · next hwritten =>
    obtain rfl := Option.some.inj h
    simp [hwritten]

end FetcherStruct

structure Logger where
  fetchers : List FetcherStruct
  lastSynchronizedTime : Int
  /-- Everything that was handed to the writers. -/
  output : List LoggedMessage := []
  /-- How often `LogUntil` ran. -/
  rounds : Nat := 0

namespace Logger

variable (cfg : LoggerConfig) (available : Nat → Int → Nat → Nat)

/-- Writes each channel. In round `k`, with the end `t`, `available k t i` messages of fetcher `i` were sent. -/
def logUntil (t : Int) (l : Logger) : Logger :=
  let results := l.fetchers.mapIdx fun i f => f.logUntil cfg (available l.rounds t i) t
  { fetchers := results.map Prod.fst
    lastSynchronizedTime := t
    output := l.output ++ results.flatMap Prod.snd
    rounds := l.rounds + 1 }

def doLogData (endTime : Int) (l : Logger) : Logger :=
  let l' := logUntil cfg available (min (l.lastSynchronizedTime + cfg.pollingPeriod) endTime) l
  if l'.lastSynchronizedTime + cfg.pollingPeriod < endTime then doLogData endTime l' else l'
termination_by (endTime - l.lastSynchronizedTime).toNat
decreasing_by
  rename_i h
  have hpos := cfg.pollingPeriod_pos
  simp only [l', logUntil] at h ⊢
  omega

/-- Starts at the current message of each channel. Everything before the start time is written at once. -/
def startLogging (latest : Nat → Nat) (startTime : Int) (fetchers : List FetcherStruct) : Logger :=
  logUntil cfg available startTime {
    fetchers := fetchers.mapIdx fun i f =>
      let f := f.fetch (latest i)
      { f with written := f.context.isNone }
    lastSynchronizedTime := startTime }

def run (latest : Nat → Nat) (startTime : Int) (fetchers : List FetcherStruct) (endTimes : List Int) : Logger :=
  endTimes.foldl (fun l endTime => doLogData cfg available endTime l)
    (startLogging cfg available latest startTime fetchers)

/-- Writes what there is before `endTime`, and lets go of the writers. -/
def stopLogging (endTime : Int) (l : Logger) : Logger :=
  let l := if endTime ≠ minTime then doLogData cfg available endTime l else l
  { l with fetchers := l.fetchers.map fun f =>
      { f with writer := none, timestampWriter := none, contentsWriter := none } }

def localOutput (writer : Nat) (l : Logger) : List UnpackedMessageHeader :=
  (l.output.filter fun x => x.isLocal && decide (x.writer = writer)).map LoggedMessage.header

end Logger

/-! ### One channel -/

namespace FetcherStruct

def pending (f : FetcherStruct) : List Context := f.messages.drop (if f.written then f.fetched else f.fetched - 1)

structure Valid (f : FetcherStruct) : Prop where
  unwritten : f.written = false → 0 < f.fetched ∧ f.fetched ≤ f.messages.length
  sorted : f.messages.Pairwise fun a b => a.monotonicEventTime ≤ b.monotonicEventTime

/-- All messages before `t` were sent. -/
def Sent (available : Nat) (t : Int) (f : FetcherStruct) : Prop :=
  ∀ i c, f.messages[i]? = some c → c.monotonicEventTime < t → i < available

/-- All messages before `t` get written, and no others. -/
structure LoggedUntil (t : Int) (f f' : FetcherStruct) (out : List LoggedMessage) : Prop where
  messages : f'.messages = f.messages
  valid : f'.Valid
  out_lt : ∀ x ∈ out, x.isLocal = true →
    ∃ c ∈ f.pending, c.monotonicEventTime < t ∧ x.header.monotonicSentTime = c.monotonicEventTime
  le_pending : ∀ c ∈ f'.pending, c ∈ f.pending ∧ t ≤ c.monotonicEventTime

variable {cfg : LoggerConfig} {available : Nat} {t : Int} {f f' : FetcherStruct}

theorem time_of_mem_write {context : Context} {x : LoggedMessage} (h : x ∈ write cfg f context)
    (hlocal : x.isLocal = true) : x.header.monotonicSentTime = context.monotonicEventTime := by
  rw [write, mem_append, mem_append] at h
  obtain (h | h) | h := h
  · obtain ⟨writer, -, rfl⟩ := mem_map.mp h
    have htype : f.logType ≠ .logRemoteMessage := by simpa using hlocal
    cases hcase : f.logType with
    | logRemoteMessage => exact absurd hcase htype
    | logMessage | logMessageAndDeliveryTime | logDeliveryTimeOnly => rfl
  · obtain ⟨writer, -, rfl⟩ := mem_map.mp h
    rfl
  · obtain ⟨writer, -, h⟩ := mem_flatMap.mp h
    obtain ⟨msg, -, rfl⟩ := mem_map.mp h
    cases hlocal

theorem Valid.fetchUnwritten (h : f.Valid) (hnext : f.fetchUnwritten available = some f') :
    f'.messages = f.messages ∧ (0 < f'.fetched ∧ f'.fetched ≤ f'.messages.length) ∧
      f.pending = f'.messages.drop (f'.fetched - 1) ∧
      ∃ c, f'.context = some c ∧ f.pending = c :: f'.messages.drop f'.fetched := by
  obtain ⟨hmessages, ⟨hpos, hle⟩, hpending⟩ : f'.messages = f.messages ∧
      (0 < f'.fetched ∧ f'.fetched ≤ f'.messages.length) ∧ f.pending = f'.messages.drop (f'.fetched - 1) := by
    rw [FetcherStruct.fetchUnwritten] at hnext
    split at hnext
    · next hwritten =>
      rw [fetchNext] at hnext
      split at hnext
      · next hlt =>
        cases hnext
        refine ⟨rfl, ⟨Nat.succ_pos _, hlt.2⟩, ?_⟩
        rw [pending, if_pos hwritten]
        rfl
      · cases hnext
    · next hwritten =>
      cases hnext
      refine ⟨rfl, h.unwritten (by simpa using hwritten), ?_⟩
      rw [pending, if_neg hwritten]
  have hlt : f'.fetched - 1 < f'.messages.length := by omega
  refine ⟨hmessages, ⟨hpos, hle⟩, hpending, f'.messages[f'.fetched - 1], ?_, ?_⟩
  · rw [context, if_neg (by omega), getElem?_eq_getElem hlt]
  · rw [hpending, drop_eq_getElem_cons hlt, Nat.sub_add_cancel hpos]

theorem write_fetchUnwritten (hnext : f.fetchUnwritten available = some f') : write cfg f' = write cfg f := by
  rw [fetchUnwritten, fetchNext] at hnext
  split at hnext
  · split at hnext
    · cases hnext
      rfl
    · cases hnext
  · cases hnext
    rfl

theorem Valid.logUntil_done (h : f.Valid) (cfg : LoggerConfig) (available : Nat) (t : Int) :
    ∃ done, f.pending = done ++ (f.logUntil cfg available t).1.pending ∧
    (∀ c ∈ done, c.monotonicEventTime < t) ∧ (f.logUntil cfg available t).2 = done.flatMap (write cfg f) ∧
    write cfg (f.logUntil cfg available t).1 = write cfg f := by
  fun_induction FetcherStruct.logUntil cfg available t f with
  | case1 f hnone => exact ⟨[], rfl, by simp, rfl, rfl⟩
  | case2 f f' hnext hcontext =>
    obtain ⟨-, -, -, c, hc, -⟩ := h.fetchUnwritten hnext
    cases hc.symm.trans hcontext
  | case3 f f' hnext c hcontext hafter =>
    obtain ⟨-, -, hpending, -⟩ := h.fetchUnwritten hnext
    exact ⟨[], hpending, by simp, rfl, show write cfg f' = write cfg f from write_fetchUnwritten hnext⟩
  | case4 f f' hnext c hcontext hbefore last rest hrest ih =>
    obtain ⟨hmessages, -, -, c', hc', hcons⟩ := h.fetchUnwritten hnext
    obtain rfl : c = c' := Option.some.inj (hcontext.symm.trans hc')
    obtain ⟨done, hdone, hlt, hout, hwrite⟩ := ih ⟨by simp, hmessages ▸ h.sorted⟩
    rw [hrest] at hdone hout hwrite
    have hwrite' : write cfg { f' with written := true } = write cfg f :=
      show write cfg f' = write cfg f from write_fetchUnwritten hnext
    rw [hwrite'] at hout hwrite
    refine ⟨c :: done, ?_, ?_, ?_, hwrite⟩
    · rw [hcons, cons_append, ← hdone]
      rfl
    · simpa [not_le.mp hbefore] using hlt
    · rw [flatMap_cons, ← hout, ← hwrite']
      rfl

theorem Valid.logUntil_kept (h : f.Valid) (hsent : Sent available t f) (cfg : LoggerConfig) :
    (f.logUntil cfg available t).1.messages = f.messages ∧ (f.logUntil cfg available t).1.Valid ∧
      ∀ c ∈ (f.logUntil cfg available t).1.pending, t ≤ c.monotonicEventTime := by
  fun_induction FetcherStruct.logUntil cfg available t f with
  | case1 f hnone =>
    -- Nothing more was sent, so there is nothing before `t`.
    have hwritten : f.written = true := by
      by_contra hwritten
      rw [FetcherStruct.fetchUnwritten, if_neg hwritten] at hnone
      cases hnone
    rw [FetcherStruct.fetchUnwritten, if_pos hwritten, fetchNext] at hnone
    refine ⟨rfl, h, fun c (hc : c ∈ f.pending) => ?_⟩
    by_contra hlt
    rw [pending, if_pos hwritten] at hc
    obtain ⟨i, hi, rfl⟩ := mem_iff_getElem.mp hc
    rw [length_drop] at hi
    have hget : f.messages[f.fetched + i]? = some (f.messages.drop f.fetched)[i] := by
      rw [← getElem?_drop, getElem?_eq_getElem]
    have hindex := hsent (f.fetched + i) _ hget (not_le.mp hlt)
    rw [if_pos (by omega)] at hnone
    cases hnone
  | case2 f f' hnext hcontext =>
    obtain ⟨-, -, -, c, hc, -⟩ := h.fetchUnwritten hnext
    cases hc.symm.trans hcontext
  | case3 f f' hnext c hcontext hafter =>
    obtain ⟨hmessages, hbounds, hpending, c', hc', hcons⟩ := h.fetchUnwritten hnext
    obtain rfl : c = c' := Option.some.inj (hcontext.symm.trans hc')
    have hvalid : Valid { f' with written := false } := ⟨fun _ => hbounds, hmessages ▸ h.sorted⟩
    refine ⟨hmessages, hvalid, fun d hd => ?_⟩
    have hsorted := hvalid.sorted.sublist (drop_sublist (f'.fetched - 1) f'.messages)
    change d ∈ f'.messages.drop (f'.fetched - 1) at hd
    rw [← hpending, hcons] at hd hsorted
    obtain heq | hmem := mem_cons.mp hd
    · rw [heq]; exact hafter
    · exact hafter.le.trans ((pairwise_cons.mp hsorted).1 d hmem)
  | case4 f f' hnext c hcontext hbefore last rest hrest ih =>
    obtain ⟨hmessages, -⟩ := h.fetchUnwritten hnext
    have hih := ih ⟨by simp, hmessages ▸ h.sorted⟩ (by rw [Sent]; exact hmessages ▸ hsent)
    rw [hrest] at hih
    exact ⟨hih.1.trans hmessages, hih.2⟩

theorem Valid.logUntil (h : f.Valid) (hsent : Sent available t f) :
    LoggedUntil t f (f.logUntil cfg available t).1 (f.logUntil cfg available t).2 := by
  obtain ⟨done, hpending, hlt, hout, -⟩ := h.logUntil_done cfg available t
  obtain ⟨hmessages, hvalid, hkept⟩ := h.logUntil_kept hsent cfg
  refine ⟨hmessages, hvalid, fun x hx hlocal => ?_, fun c hc => ⟨hpending ▸ mem_append_right _ hc, hkept c hc⟩⟩
  rw [hout] at hx
  obtain ⟨c, hc, hx⟩ := mem_flatMap.mp hx
  exact ⟨c, hpending ▸ mem_append_left _ hc, hlt c hc, time_of_mem_write hx hlocal⟩

end FetcherStruct

/-! ### Whole runs -/

namespace Logger

open FetcherStruct

variable {cfg : LoggerConfig} {available : Nat → Int → Nat → Nat} {startTime synced : Int} {l : Logger}

/-- Whenever `LogUntil` runs, all messages before its time were sent. -/
def AllSent (available : Nat → Int → Nat → Nat) (fetchers : List FetcherStruct) : Prop :=
  ∀ k t i f, fetchers[i]? = some f → Sent (available k t i) t f

/-- All messages before `synced` were written, and those from the start on in order but for the polling period. -/
structure InOrder (cfg : LoggerConfig) (available : Nat → Int → Nat → Nat) (startTime synced : Int) (l : Logger) :
    Prop where
  valid : ∀ f ∈ l.fetchers, f.Valid
  sent : AllSent available l.fetchers
  last_le : l.lastSynchronizedTime ≤ synced
  start_le : startTime ≤ synced
  le_pending : ∀ f ∈ l.fetchers, ∀ c ∈ f.pending, synced ≤ c.monotonicEventTime
  output_lt : ∀ x ∈ l.output, x.isLocal = true → x.header.monotonicSentTime < synced
  ordered : l.output.Pairwise fun a b : LoggedMessage => a.isLocal = true → b.isLocal = true →
    startTime ≤ a.header.monotonicSentTime →
      a.header.monotonicSentTime - (cfg.pollingPeriod : Int) ≤ b.header.monotonicSentTime

theorem getElem?_logUntil (cfg : LoggerConfig) (available : Nat → Int → Nat → Nat) (t : Int) (l : Logger) (i : Nat) :
    (logUntil cfg available t l).fetchers[i]? =
      l.fetchers[i]?.map fun f : FetcherStruct => (f.logUntil cfg (available l.rounds t i) t).1 := by
  rw [logUntil, getElem?_map, getElem?_mapIdx, Option.map_map]
  rfl

theorem logUntil_spec (cfg : LoggerConfig) (t : Int) (hvalid : ∀ f ∈ l.fetchers, f.Valid)
    (hsent : AllSent available l.fetchers) : ∃ out, (logUntil cfg available t l).output = l.output ++ out ∧
      (∀ x ∈ out, x.isLocal = true → ∃ f ∈ l.fetchers, ∃ c ∈ f.pending,
        c.monotonicEventTime < t ∧ x.header.monotonicSentTime = c.monotonicEventTime) ∧
      (∀ f' ∈ (logUntil cfg available t l).fetchers, f'.Valid) ∧
      AllSent available (logUntil cfg available t l).fetchers ∧
      ∀ f' ∈ (logUntil cfg available t l).fetchers, ∀ c ∈ f'.pending,
        t ≤ c.monotonicEventTime ∧ ∃ f ∈ l.fetchers, c ∈ f.pending := by
  have hlogged : ∀ i f, l.fetchers[i]? = some f → LoggedUntil t f (f.logUntil cfg (available l.rounds t i) t).1
      (f.logUntil cfg (available l.rounds t i) t).2 := by
    intro i f hf
    exact (hvalid f (mem_of_getElem? hf)).logUntil (hsent _ _ i f hf)
  have hget := getElem?_logUntil cfg available t l
  have hfetchers : ∀ f' ∈ (logUntil cfg available t l).fetchers, ∃ i, ∃ f : FetcherStruct, l.fetchers[i]? = some f ∧
      f' = (f.logUntil cfg (available l.rounds t i) t).1 := by
    intro f' hf'
    obtain ⟨i, hi⟩ := mem_iff_getElem?.mp hf'
    rw [hget, Option.map_eq_some_iff] at hi
    obtain ⟨f, hf, rfl⟩ := hi
    exact ⟨i, f, hf, rfl⟩
  refine ⟨_, rfl, ?_, ?_, ?_, ?_⟩
  · intro x hx hlocal
    obtain ⟨result, hresult, hx⟩ := mem_flatMap.mp hx
    obtain ⟨i, hi⟩ := mem_iff_getElem?.mp hresult
    rw [getElem?_mapIdx, Option.map_eq_some_iff] at hi
    obtain ⟨f, hf, rfl⟩ := hi
    obtain ⟨c, hc, hdata⟩ := (hlogged i f hf).out_lt x hx hlocal
    exact ⟨f, mem_of_getElem? hf, c, hc, hdata⟩
  · intro f' hf'
    obtain ⟨i, f, hf, rfl⟩ := hfetchers f' hf'
    exact (hlogged i f hf).valid
  · intro k t' i f' hf'
    rw [hget, Option.map_eq_some_iff] at hf'
    obtain ⟨f, hf, rfl⟩ := hf'
    rw [Sent, (hlogged i f hf).messages]
    exact hsent k t' i f hf
  · intro f' hf' c hc
    obtain ⟨i, f, hf, rfl⟩ := hfetchers f' hf'
    obtain ⟨hmem, htime⟩ := (hlogged i f hf).le_pending c hc
    exact ⟨htime, f, mem_of_getElem? hf, hmem⟩

theorem InOrder.logUntil (h : InOrder cfg available startTime synced l) {t : Int}
    (ht : t ≤ l.lastSynchronizedTime + cfg.pollingPeriod) :
    InOrder cfg available startTime (max synced t) (logUntil cfg available t l) := by
  obtain ⟨out, houtput, hout, hvalid, hsent, hpending⟩ := logUntil_spec cfg t h.valid h.sent
  have hlast := h.last_le
  -- A round only writes what comes after the ones before, and less than a polling period of it.
  have hslice : ∀ x ∈ out, x.isLocal = true →
      synced ≤ x.header.monotonicSentTime ∧ x.header.monotonicSentTime < t := by
    intro x hx hlocal
    obtain ⟨f, hf, c, hc, hlt, htime⟩ := hout x hx hlocal
    rw [htime]
    exact ⟨h.le_pending f hf c hc, hlt⟩
  refine {
    valid := hvalid
    sent := hsent
    last_le := le_max_right _ _
    start_le := h.start_le.trans (le_max_left _ _)
    le_pending := ?_
    output_lt := ?_
    ordered := ?_ }
  · intro f' hf' c hc
    obtain ⟨htime, f, hf, hmem⟩ := hpending f' hf' c hc
    exact max_le (h.le_pending f hf c hmem) htime
  · intro x hx hlocal
    rw [houtput, mem_append] at hx
    obtain hold | hnew := hx
    · exact (h.output_lt x hold hlocal).trans_le (le_max_left _ _)
    · exact (hslice x hnew hlocal).2.trans_le (le_max_right _ _)
  · rw [houtput, pairwise_append]
    refine ⟨h.ordered, ?_, ?_⟩
    · apply pairwise_of_forall_mem_list
      intro a ha b hb hlocala hlocalb _
      have hbefore := (hslice a ha hlocala).2
      have hafter := (hslice b hb hlocalb).1
      omega
    · intro a ha b hb hlocala hlocalb _
      have hbefore := h.output_lt a ha hlocala
      have hafter := (hslice b hb hlocalb).1
      omega

theorem InOrder.doLogData (h : InOrder cfg available startTime synced l) (endTime : Int) :
    ∃ synced', InOrder cfg available startTime synced' (doLogData cfg available endTime l) := by
  fun_induction Logger.doLogData cfg available endTime l generalizing synced with
  | case1 l l' hmore =>
    rename_i ih
    exact ih (h.logUntil (min_le_left _ _))
  | case2 l => exact ⟨_, h.logUntil (min_le_left _ _)⟩

theorem valid_of_context {f : FetcherStruct}
    (hsorted : f.messages.Pairwise fun a b => a.monotonicEventTime ≤ b.monotonicEventTime) :
    Valid { f with written := f.context.isNone } := by
  refine ⟨?_, hsorted⟩
  intro hsome
  rw [Option.isNone_eq_false_iff, Option.isSome_iff_exists] at hsome
  obtain ⟨c, hc⟩ := hsome
  rw [context] at hc
  split at hc
  · cases hc
  · have hlt := (List.getElem?_eq_some_iff.mp hc).1
    show 0 < f.fetched ∧ f.fetched ≤ f.messages.length
    omega

theorem inOrder_startLogging {fetchers : List FetcherStruct}
    (hsorted : ∀ f ∈ fetchers, f.messages.Pairwise fun a b => a.monotonicEventTime ≤ b.monotonicEventTime)
    (hsent : AllSent available fetchers) (latest : Nat → Nat) :
    InOrder cfg available startTime startTime (startLogging cfg available latest startTime fetchers) := by
  rw [startLogging]
  set l : Logger := {
    fetchers := fetchers.mapIdx fun i f => { f.fetch (latest i) with written := (f.fetch (latest i)).context.isNone }
    lastSynchronizedTime := startTime } with hl
  have hget : ∀ i, l.fetchers[i]? = fetchers[i]?.map fun f : FetcherStruct =>
      { f.fetch (latest i) with written := (f.fetch (latest i)).context.isNone } := by
    intro i
    rw [hl, getElem?_mapIdx]
  have hvalid : ∀ f ∈ l.fetchers, f.Valid := by
    intro f' hf'
    obtain ⟨i, hi⟩ := mem_iff_getElem?.mp hf'
    rw [hget, Option.map_eq_some_iff] at hi
    obtain ⟨f, hf, rfl⟩ := hi
    exact valid_of_context (hsorted f (mem_of_getElem? hf))
  have hsent' : AllSent available l.fetchers := by
    intro k t i f' hf'
    rw [hget, Option.map_eq_some_iff] at hf'
    obtain ⟨f, hf, rfl⟩ := hf'
    exact hsent k t i f hf
  obtain ⟨out, houtput, hout, hvalid', hsent'', hpending⟩ := logUntil_spec cfg startTime hvalid hsent'
  have hbefore : ∀ x ∈ out, x.isLocal = true → x.header.monotonicSentTime < startTime := by
    intro x hx hlocal
    obtain ⟨f, hf, c, hc, hlt, htime⟩ := hout x hx hlocal
    rw [htime]
    exact hlt
  refine {
    valid := hvalid'
    sent := hsent''
    last_le := le_rfl
    start_le := le_rfl
    le_pending := fun f hf c hc => (hpending f hf c hc).1
    output_lt := houtput ▸ hbefore
    ordered := ?_ }
  rw [houtput]
  apply pairwise_of_forall_mem_list
  intro a ha b hb hlocala hlocalb hstart
  have := hbefore a ha hlocala
  omega

/-- Once a message from the start or later was written, later ones are younger but for the polling period. -/
def WithinPeriod (startTime : Int) (period : Nat) (stream : List UnpackedMessageHeader) : Prop :=
  stream.Pairwise fun a b : UnpackedMessageHeader =>
    startTime ≤ a.monotonicSentTime → a.monotonicSentTime - (period : Int) ≤ b.monotonicSentTime

theorem WithinPeriod.outOfOrderBounded {period : Nat} {stream : List UnpackedMessageHeader}
    (h : WithinPeriod startTime period stream) : OutOfOrderBounded startTime (3 * period) stream := by
  intro k hk ⟨a, ha, hstart⟩ b hb
  have hlater : ∀ c ∈ stream.take k, startTime ≤ c.monotonicSentTime →
      c.monotonicSentTime - (period : Int) ≤ (stream.get ⟨k, hk⟩).monotonicSentTime := by
    intro c hc hcstart
    rw [WithinPeriod, ← take_append_drop k stream] at h
    have hmem : stream.get ⟨k, hk⟩ ∈ stream.drop k := by
      rw [drop_eq_getElem_cons hk]
      exact mem_cons_self
    exact (pairwise_append.mp h).2.2 c hc _ hmem hcstart
  have ha' := hlater a ha (by omega)
  by_cases hbstart : startTime ≤ b.monotonicSentTime
  · have hb' := hlater b hb hbstart
    omega
  · omega

/-- After a message from the start or later, everything that the same writer gets is younger, but for the polling period.
However its output is split into files, these keep the order that their headers promise and are read without a failing
check. -/
theorem output_within_polling_period (cfg : LoggerConfig) (latest : Nat → Nat) (startTime : Int) (fetchers : List FetcherStruct)
    (endTimes : List Int) (writer : Nat)
    (hsorted : ∀ f ∈ fetchers, f.messages.Pairwise fun a b => a.monotonicEventTime ≤ b.monotonicEventTime)
    (hsent : AllSent available fetchers) :
    WithinPeriod startTime cfg.pollingPeriod
        ((run cfg available latest startTime fetchers endTimes).localOutput writer) ∧
      ∀ (parts : LogParts) (first : LogFile) (rest : List LogFile), parts.monotonicStartTime = startTime →
        (∀ f ∈ first :: rest, f.maxOutOfOrderDuration = 3 * cfg.pollingPeriod) →
        (first :: rest).flatMap LogFile.messages =
          (run cfg available latest startTime fetchers endTimes).localOutput writer →
        OutOfOrderBounded startTime (3 * cfg.pollingPeriod) ((first :: rest).flatMap LogFile.messages) ∧
          ((∀ f ∈ first :: rest, BootsKnown parts f.bootCounts f.messages) →
            ∃ sorted, LogPartsSorter.source.Delivers (LogPartsSorter.ofParts parts first rest) sorted ∧
              sorted.Pairwise fun a b => a.key < b.key) := by
  obtain ⟨synced, hinOrder⟩ : ∃ synced,
      InOrder cfg available startTime synced (run cfg available latest startTime fetchers endTimes) := by
    rw [run]
    induction endTimes using reverseRecOn with
    | nil => exact ⟨_, inOrder_startLogging hsorted hsent latest⟩
    | append_singleton endTimes endTime ih =>
      obtain ⟨synced, hbefore⟩ := ih
      rw [foldl_append]
      exact hbefore.doLogData endTime
  have hordered : WithinPeriod startTime cfg.pollingPeriod
      ((run cfg available latest startTime fetchers endTimes).localOutput writer) := by
    rw [WithinPeriod, localOutput, pairwise_map]
    apply List.Pairwise.imp_of_mem _ (hinOrder.ordered.filter _)
    intro a b ha hb horder
    have hlocal : ∀ x ∈ (run cfg available latest startTime fetchers endTimes).output.filter
        (fun x => x.isLocal && decide (x.writer = writer)), x.isLocal = true := by
      intro x hx
      exact (Bool.and_eq_true_iff.mp (mem_filter.mp hx).2).1
    exact horder (hlocal a ha) (hlocal b hb)
  refine ⟨hordered, ?_⟩
  intro parts first rest hstart hduration houtput
  have hbounded : OutOfOrderBounded startTime (3 * cfg.pollingPeriod) ((first :: rest).flatMap LogFile.messages) := by
    rw [houtput]
    exact hordered.outOfOrderBounded
  refine ⟨hbounded, ?_⟩
  intro hboots
  have hpos := cfg.pollingPeriod_pos
  obtain ⟨sorted, hdelivers, hsorted, -⟩ := LogPartsSorter.ofParts_delivers parts first rest (3 * cfg.pollingPeriod)
    hduration hboots (hstart ▸ hbounded) (by omega)
  exact ⟨sorted, hdelivers, hsorted⟩

/-! ### The end of a log -/

variable {t endTime : Int}

/-- Exactly the messages before the synchronization point were handed to their writers. -/
def Handed (cfg : LoggerConfig) (l : Logger) (f f' : FetcherStruct) : Prop :=
  ∃ done, f.pending = done ++ f'.pending ∧ write cfg f' = write cfg f ∧
    (∀ c ∈ done, c.monotonicEventTime < l.lastSynchronizedTime ∧ write cfg f c ⊆ l.output) ∧
    ∀ c ∈ f'.pending, l.lastSynchronizedTime ≤ c.monotonicEventTime

structure Synced (cfg : LoggerConfig) (available : Nat → Int → Nat → Nat) (l l' : Logger) : Prop where
  valid : ∀ f ∈ l'.fetchers, f.Valid
  sent : AllSent available l'.fetchers
  output : l.output ⊆ l'.output
  handed : ∀ i : Nat, Option.Rel (Handed cfg l') l.fetchers[i]? l'.fetchers[i]?

theorem Handed.trans {l' : Logger} {f f' f'' : FetcherStruct} (h : Handed cfg l f f') (h' : Handed cfg l' f' f'')
    (hle : l.lastSynchronizedTime ≤ l'.lastSynchronizedTime) (hout : l.output ⊆ l'.output) : Handed cfg l' f f'' := by
  obtain ⟨done, hpending, hwrite, hdone, -⟩ := h
  obtain ⟨done', hpending', hwrite', hdone', hrest⟩ := h'
  refine ⟨done ++ done', by rw [hpending, hpending', append_assoc], hwrite'.trans hwrite, ?_, hrest⟩
  intro c hc
  obtain hc | hc := mem_append.mp hc
  · exact ⟨(hdone c hc).1.trans_le hle, List.Subset.trans (hdone c hc).2 hout⟩
  · exact ⟨(hdone' c hc).1, hwrite ▸ (hdone' c hc).2⟩

theorem synced_logUntil (hvalid : ∀ f ∈ l.fetchers, f.Valid) (hsent : AllSent available l.fetchers) :
    Synced cfg available l (logUntil cfg available t l) := by
  obtain ⟨out, houtput, -, hvalid', hsent', hpending⟩ := logUntil_spec cfg t hvalid hsent
  refine ⟨hvalid', hsent', by rw [houtput]; exact subset_append_left _ _, fun i => ?_⟩
  have hget := getElem?_logUntil cfg available t l i
  cases hf : l.fetchers[i]? with
  | none => rw [hget, hf]; exact .none
  | some f =>
    rw [hf, Option.map_some] at hget
    obtain ⟨done, hdone, hlt, hout, hwrite⟩ := (hvalid f (mem_of_getElem? hf)).logUntil_done cfg _ _
    rw [hget]
    refine .some ⟨done, hdone, hwrite, fun c hc => ⟨hlt c hc, ?_⟩, fun c hc => (hpending _ (mem_of_getElem? hget) c hc).1⟩
    intro x hx
    refine mem_append_right _ (mem_flatMap.mpr ⟨_, ?_, hout ▸ mem_flatMap.mpr ⟨c, hc, hx⟩⟩)
    rw [mem_iff_getElem?]
    exact ⟨i, by rw [getElem?_mapIdx, hf, Option.map_some]⟩

theorem Synced.trans {l' l'' : Logger} (h : Synced cfg available l l') (h' : Synced cfg available l' l'')
    (hle : l'.lastSynchronizedTime ≤ l''.lastSynchronizedTime) : Synced cfg available l l'' := by
  refine ⟨h'.valid, h'.sent, List.Subset.trans h.output h'.output, fun i => ?_⟩
  have hi := h.handed i
  have hi' := h'.handed i
  generalize l.fetchers[i]? = f, l'.fetchers[i]? = f', l''.fetchers[i]? = f'' at hi hi' ⊢
  cases hi with
  | none => exact hi'
  | some hstep =>
    cases hi' with
    | some hstep' => exact .some (hstep.trans hstep' hle h'.output)

/-- Where `DoLogData` stops: at the end only if that is less than a polling period away. -/
def syncPoint (cfg : LoggerConfig) (last endTime : Int) : Int :=
  if endTime ≤ last + cfg.pollingPeriod then endTime
  else last + (endTime - last - 1) / cfg.pollingPeriod * cfg.pollingPeriod

theorem le_syncPoint {last : Int} (h : last ≤ endTime) : last ≤ syncPoint cfg last endTime := by
  rw [syncPoint]
  split
  · exact h
  · have := Int.ediv_nonneg (a := endTime - last - 1) (b := cfg.pollingPeriod) (by omega) (by omega)
    have := Int.mul_nonneg this (Int.natCast_nonneg cfg.pollingPeriod)
    omega

theorem syncPoint_le {last : Int} (h : last ≤ endTime) : syncPoint cfg last endTime ≤ endTime := by
  rw [syncPoint]
  split
  · exact le_rfl
  · have hpos := cfg.pollingPeriod_pos
    have := Int.ediv_mul_le (endTime - last - 1) (b := cfg.pollingPeriod) (by omega)
    omega

theorem syncPoint_next {last : Int} (h : last + cfg.pollingPeriod + cfg.pollingPeriod < endTime) :
    syncPoint cfg (last + cfg.pollingPeriod) endTime = syncPoint cfg last endTime := by
  have hpos := cfg.pollingPeriod_pos
  have hdiv : (endTime - (last + cfg.pollingPeriod) - 1) / (cfg.pollingPeriod : Int) =
      (endTime - last - 1) / cfg.pollingPeriod + -1 := by
    rw [← Int.add_mul_ediv_right _ _ (by omega)]
    congr 1
    omega
  rw [syncPoint, if_neg (by omega), syncPoint, if_neg (by omega), hdiv, Int.add_mul]
  omega

theorem syncPoint_last {last : Int} (h : endTime ≤ min (last + cfg.pollingPeriod) endTime + cfg.pollingPeriod) :
    min (last + cfg.pollingPeriod) endTime = syncPoint cfg last endTime := by
  rw [syncPoint]
  split
  · omega
  · have hdiv : (endTime - last - 1) / (cfg.pollingPeriod : Int) = 1 := by
      apply le_antisymm
      · exact Int.lt_add_one_iff.mp (Int.ediv_lt_of_lt_mul (by omega) (by omega))
      · exact Int.le_ediv_of_mul_le (by omega) (by omega)
    rw [hdiv]
    omega

theorem doLogData_spec (cfg : LoggerConfig) (hvalid : ∀ f ∈ l.fetchers, f.Valid) (hsent : AllSent available l.fetchers)
    (hle : l.lastSynchronizedTime ≤ endTime) : Synced cfg available l (doLogData cfg available endTime l) ∧
      (doLogData cfg available endTime l).lastSynchronizedTime = syncPoint cfg l.lastSynchronizedTime endTime := by
  fun_induction doLogData cfg available endTime l with
  | case1 l l' hmore ih =>
    have hfirst : Synced cfg available l l' := synced_logUntil hvalid hsent
    have hl' : l'.lastSynchronizedTime = min (l.lastSynchronizedTime + cfg.pollingPeriod) endTime := rfl
    obtain ⟨hrest, hsynced⟩ := ih hfirst.valid hfirst.sent (by omega)
    refine ⟨hfirst.trans hrest ?_, hsynced.trans ?_⟩
    · rw [hsynced]
      exact le_syncPoint (by omega)
    · rw [show l'.lastSynchronizedTime = l.lastSynchronizedTime + cfg.pollingPeriod by omega]
      exact syncPoint_next (by omega)
  | case2 l l' hlast => exact ⟨synced_logUntil hvalid hsent, syncPoint_last (not_lt.mp hlast)⟩

def Returnable (available : Nat → Int → Nat → Nat) (fetchers : List FetcherStruct) : Prop :=
  ∀ k t i f, fetchers[i]? = some f → f.messages.length ≤ available k t i

theorem stopLogging_handed (cfg : LoggerConfig) (hvalid : ∀ f ∈ l.fetchers, f.Valid) (hreturn : Returnable available l.fetchers)
    (hle : l.lastSynchronizedTime ≤ endTime) (i : Nat) :
    Option.Rel (fun f f' => ∃ done, f.pending = done ++ f'.pending ∧
      (∀ c ∈ done, c.monotonicEventTime < syncPoint cfg l.lastSynchronizedTime endTime ∧
        write cfg f c ⊆ (stopLogging cfg available endTime l).output) ∧
      ∀ c ∈ f'.pending, syncPoint cfg l.lastSynchronizedTime endTime ≤ c.monotonicEventTime)
      l.fetchers[i]? (stopLogging cfg available endTime l).fetchers[i]? := by
  rw [stopLogging]
  split
  · have hsent : AllSent available l.fetchers := by
      intro k t i f hf j c hc _
      exact (List.getElem?_eq_some_iff.mp hc).1.trans_le (hreturn k t i f hf)
    obtain ⟨hs, hlast⟩ := doLogData_spec cfg hvalid hsent hle
    have hi := hs.handed i
    rw [getElem?_map, ← hlast]
    generalize l.fetchers[i]? = f, (doLogData cfg available endTime l).fetchers[i]? = f' at hi ⊢
    cases hi with
    | none => exact .none
    | some h =>
      obtain ⟨done, hpending, -, hdone, hrest⟩ := h
      exact .some ⟨done, hpending, hdone, hrest⟩
  · rename_i hmin
    obtain rfl : endTime = minTime := by simpa using hmin
    rw [getElem?_map]
    cases l.fetchers[i]? with
    | none => exact .none
    | some f => exact .some ⟨[], rfl, by simp, fun c _ => (syncPoint_le hle).trans c.isTime.1⟩

/-- `StopLogging` hands the writers everything before the end time exactly if nothing lies between the last synchronization
point and the end. -/
theorem stopLogging_complete_iff (cfg : LoggerConfig) (available : Nat → Int → Nat → Nat) (endTime : Int) (l : Logger)
    (hvalid : ∀ f ∈ l.fetchers, f.Valid) (hreturn : Returnable available l.fetchers)
    (hle : l.lastSynchronizedTime ≤ endTime) : (∀ (i : Nat) (f f' : FetcherStruct), l.fetchers[i]? = some f →
      (stopLogging cfg available endTime l).fetchers[i]? = some f' → ∃ done, f.pending = done ++ f'.pending ∧
        ∀ c ∈ done, write cfg f c ⊆ (stopLogging cfg available endTime l).output) ∧
    ((∀ f ∈ (stopLogging cfg available endTime l).fetchers, ∀ c ∈ f.pending, endTime ≤ c.monotonicEventTime) ↔
      ∀ f ∈ l.fetchers, ∀ c ∈ f.pending, c.monotonicEventTime < endTime →
        c.monotonicEventTime < syncPoint cfg l.lastSynchronizedTime endTime) := by
  have hhanded := stopLogging_handed cfg hvalid hreturn hle
  constructor
  · intro i f f' hf hf'
    have hi := hhanded i
    rw [hf, hf'] at hi
    obtain ⟨done, hpending, hdone, -⟩ := Option.rel_some_some.mp hi
    exact ⟨done, hpending, fun c hc => (hdone c hc).2⟩
  constructor
  · intro hall f hf c hc hlt
    obtain ⟨i, hi⟩ := mem_iff_getElem?.mp hf
    have hrel := hhanded i
    cases hf' : (stopLogging cfg available endTime l).fetchers[i]? with
    | none => simp [hi, hf'] at hrel
    | some f' =>
      rw [hi, hf'] at hrel
      obtain ⟨done, hpending, hdone, -⟩ := Option.rel_some_some.mp hrel
      rw [hpending] at hc
      obtain hc | hc := mem_append.mp hc
      · exact (hdone c hc).1
      · exact absurd hlt (not_lt.mpr (hall f' (mem_of_getElem? hf') c hc))
  · intro hall f' hf' c hc
    obtain ⟨i, hi⟩ := mem_iff_getElem?.mp hf'
    have hrel := hhanded i
    cases hf : l.fetchers[i]? with
    | none => simp [hi, hf] at hrel
    | some f =>
      rw [hi, hf] at hrel
      obtain ⟨done, hpending, -, hrest⟩ := Option.rel_some_some.mp hrel
      by_contra hlt
      have hbefore := hall f (mem_of_getElem? hf) c (hpending ▸ mem_append_right _ hc) (not_le.mp hlt)
      exact absurd (hrest c hc) (not_le.mpr hbefore)

def lateLogger : Logger where
  fetchers := [{
    channelIndex := 0
    writer := some 0
    messages := [{ monotonicEventTime := 100, queueIndex := 0 }]
    written := true }]
  lastSynchronizedTime := 0

theorem lateLogger_valid : ∀ f ∈ lateLogger.fetchers, f.Valid := by
  intro f hf
  obtain rfl := mem_singleton.mp hf
  exact ⟨nofun, pairwise_singleton _ _⟩

theorem lateLogger_returnable : Returnable (fun _ _ _ => 1) lateLogger.fetchers := by
  intro k t i f hf
  obtain rfl := mem_singleton.mp (mem_of_getElem? hf)
  exact le_rfl

theorem stopLogging_complete_late : lateLogger.lastSynchronizedTime ≤ 150 ∧
    ∀ f ∈ (stopLogging ⟨60, by decide, id⟩ (fun _ _ _ => 1) 150 lateLogger).fetchers, ∀ c ∈ f.pending,
      150 ≤ c.monotonicEventTime :=
  ⟨by decide, (stopLogging_complete_iff ⟨60, by decide, id⟩ _ 150 lateLogger lateLogger_valid lateLogger_returnable
    (by decide)).2.mpr (by decide +kernel)⟩

/-- With a longer polling period the message is not written. -/
theorem stopLogging_loses_message :
    (∀ f ∈ lateLogger.fetchers, f.Valid) ∧ Returnable (fun _ _ _ => 1) lateLogger.fetchers ∧
      lateLogger.lastSynchronizedTime ≤ 150 ∧
      (stopLogging ⟨100, by decide, id⟩ (fun _ _ _ => 1) 150 lateLogger).output.length = 0 ∧
      ∃ f ∈ (stopLogging ⟨100, by decide, id⟩ (fun _ _ _ => 1) 150 lateLogger).fetchers, ∃ c ∈ f.pending,
        c.monotonicEventTime < 150 :=
  ⟨lateLogger_valid, lateLogger_returnable, by decide, by decide +kernel, by decide +kernel⟩

/-! Two channels that go to the same file. The message at 5 is not the latest of its channel at the start. -/

def contextAt (time queueIndex : Nat) (isTime : IsTime (time : Int) := by decide) : Context :=
  { monotonicEventTime := time, queueIndex, isTime, isRemoteTime := isTime }

def twoFetchers : List FetcherStruct := [
  { channelIndex := 0, writer := some 0
    messages := [contextAt 5 0, contextAt 95 1, contextAt 103 2, contextAt 117 3] },
  { channelIndex := 1, writer := some 0
    messages := [contextAt 90 0, contextAt 101 1, contextAt 108 2] }]

theorem output_within_polling_period_two_channels :
    ((run ⟨10, by decide, id⟩ (fun _ _ _ => 4) (fun i => 2 - i) 100 twoFetchers [112, 125]).localOutput 0).map
        UnpackedMessageHeader.monotonicSentTime = [95, 90, 103, 101, 108, 117] ∧
      WithinPeriod 100 10
        ((run ⟨10, by decide, id⟩ (fun _ _ _ => 4) (fun i => 2 - i) 100 twoFetchers [112, 125]).localOutput 0) := by
  have hsent : AllSent (fun _ _ _ => 4) twoFetchers := by
    intro k t i f hf j c hc _
    have hlength : ∀ f ∈ twoFetchers, f.messages.length ≤ 4 := by decide
    exact (List.getElem?_eq_some_iff.mp hc).1.trans_le (hlength f (List.mem_of_getElem? hf))
  exact ⟨by decide +kernel, (output_within_polling_period ⟨10, by decide, id⟩ (fun i => 2 - i) 100 twoFetchers
    [112, 125] 0 (by decide) hsent).1⟩

end Logger

end RobotCode.Logging
