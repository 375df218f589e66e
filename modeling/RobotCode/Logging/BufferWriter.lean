import RobotCode.Lib.Fallible
import RobotCode.Logging.Message

/-!
# Writing log files

A `DetachedBufferWriter` encodes buffers, queues what the encoder makes of them and writes the queue to a file
in batches. When the disk is full it stops for good, so that what is in the file is the beginning of what it
was given. Large buffers that need no encoding are written at once, after the queue. That write does not ask
whether the queue could be written.
-/

namespace RobotCode.Logging

open List

abbrev Bytes := List UInt8

/-- An encoder: what it adds to the end of its queue for each buffer, and when it is done. The queue is kept with
the writer. -/
structure DetachedBufferEncoder (σ : Type) where
  start : σ
  encode : σ → Bytes → σ × List Bytes
  finish : σ → σ × List Bytes
  mayBypass : Bool

/-- Queues the raw data as it is. -/
def dummyEncoder : DetachedBufferEncoder Unit where
  start := ()
  encode := fun e buffer => (e, [buffer])
  finish := fun e => (e, [])
  mayBypass := true

/-- What `write` and `writev` return: a count of bytes, or -1 with `errno`. -/
inductive WriteReturn
  | count (n : Nat)
  | noSpace
  | failed
  deriving DecidableEq, Repr

/-- A call of `write` or `writev`. -/
structure Write where
  data : Bytes
  returned : WriteReturn
  deriving DecidableEq, Repr

def Write.written (x : Write) : Bytes :=
  match x.returned with
  | .count n => x.data.take n
  | _ => []

def Write.IsComplete (x : Write) : Prop := ∃ n, x.returned = .count n ∧ x.data.length ≤ n

structure WriterConfig where
  flushSize : Nat := 128000
  /-- How long data may be queued, in nanoseconds. -/
  flushPeriod : Nat := 5000000000

/-- The most buffers of one `writev`. -/
def iovMax : Nat := 1024

structure DetachedBufferWriter (σ : Type) where
  encoder : σ
  queue : List Bytes := []
  isOpen : Bool
  ranOutOfSpace : Bool := false
  lastFlushTime : Int := minTime
  writes : List Write := []
  deriving DecidableEq

namespace DetachedBufferWriter

variable {σ : Type} (enc : DetachedBufferEncoder σ) (cfg : WriterConfig) (disk : Nat → WriteReturn)

def file (w : DetachedBufferWriter σ) : Bytes := w.writes.flatMap Write.written

/-- Any error but a full disk ends the program. A short count is taken for a full disk. -/
def handleWriteReturn (writeReturn : WriteReturn) (writeSize : Nat) (w : DetachedBufferWriter σ) :
    Except (DetachedBufferWriter σ) (DetachedBufferWriter σ) :=
  match writeReturn with
  | .noSpace => .ok { w with ranOutOfSpace := true }
  | .failed => .error w
  | .count n => if n < writeSize then .ok { w with ranOutOfSpace := true } else .ok w

/-- The `k`th write returns `disk k`, as long as the file is open. -/
def write (data : Bytes) (w : DetachedBufferWriter σ) : Except (DetachedBufferWriter σ) (DetachedBufferWriter σ) :=
  let returned := if w.isOpen then disk w.writes.length else .failed
  handleWriteReturn returned data.length { w with writes := w.writes ++ [⟨data, returned⟩] }

def clear (n : Nat) (w : DetachedBufferWriter σ) : DetachedBufferWriter σ := { w with queue := w.queue.drop n }

/-- A single `writev` with as much of the queue as possible. -/
def flush (w : DetachedBufferWriter σ) : Except (DetachedBufferWriter σ) (DetachedBufferWriter σ) :=
  if w.ranOutOfSpace then .ok (clear w.queue.length w)
  else if w.queue = [] then .ok w
  else
    let iovecSize := min w.queue.length iovMax
    (write disk (w.queue.take iovecSize).flatten w).map (clear iovecSize)

section

variable {disk} {w w' : DetachedBufferWriter σ}

theorem write_cases (disk : Nat → WriteReturn) (data : Bytes) (w : DetachedBufferWriter σ) :
    ∃ x : Write, x.data = data ∧ x.returned = (if w.isOpen then disk w.writes.length else .failed) ∧
      ((write disk data w = .error { w with writes := w.writes ++ [x] }) ∨
        (write disk data w = .ok { w with writes := w.writes ++ [x], ranOutOfSpace := true } ∧ ¬ x.IsComplete) ∨
        (write disk data w = .ok { w with writes := w.writes ++ [x] } ∧ x.IsComplete)) := by
  refine ⟨⟨data, if w.isOpen then disk w.writes.length else .failed⟩, rfl, rfl, ?_⟩
  rw [write]
  generalize (if w.isOpen then disk w.writes.length else .failed) = returned
  cases returned with
  | noSpace =>
    right; left
    exact ⟨rfl, by simp [Write.IsComplete]⟩
  | failed =>
    left
    rfl
  | count n =>
    right
    by_cases hn : n < data.length
    · left
      exact ⟨by simp [handleWriteReturn, hn], by simpa [Write.IsComplete] using hn⟩
    · right
      exact ⟨by simp [handleWriteReturn, hn], by simpa [Write.IsComplete] using hn⟩

theorem flush_of_ranOutOfSpace (h : w.ranOutOfSpace = true) : flush disk w = .ok (clear w.queue.length w) := by
  rw [flush, if_pos h]

theorem flush_of_queue_nil (h : w.queue = []) : flush disk w = .ok w := by
  rw [flush]
  split
  · rw [clear, h]
    exact congrArg Except.ok (by rw [drop_nil, ← h])
  · simp

theorem flush_of_queue (hspace : w.ranOutOfSpace = false) (hqueue : w.queue ≠ []) :
    flush disk w = (write disk (w.queue.take (min w.queue.length iovMax)).flatten w).map
      (clear (min w.queue.length iovMax)) := by
  rw [flush, if_neg (by simp [hspace]), if_neg hqueue]

theorem length_queue_of_flush (hqueue : w.queue ≠ []) (h : flush disk w = .ok w') :
    w'.queue.length < w.queue.length := by
  have hpos : 0 < w.queue.length := length_pos_of_ne_nil hqueue
  have hshorter : ∀ u : DetachedBufferWriter σ, u.queue = w.queue →
      (clear (min w.queue.length iovMax) u).queue.length < w.queue.length := by
    intro u hu
    have hiov : 0 < iovMax := by decide
    rw [clear, hu, length_drop]
    omega
  cases hspace : w.ranOutOfSpace with
  | true =>
    rw [flush_of_ranOutOfSpace hspace] at h
    cases h
    simpa [clear] using hpos
  | false =>
    rw [flush_of_queue hspace hqueue] at h
    obtain ⟨x, -, -, hwrite | ⟨hwrite, -⟩ | ⟨hwrite, -⟩⟩ :=
      write_cases disk (w.queue.take (min w.queue.length iovMax)).flatten w
    · rw [hwrite] at h
      cases h
    all_goals
      rw [hwrite] at h
      cases h
      exact hshorter _ rfl

end

def flushAll (w : DetachedBufferWriter σ) : Except (DetachedBufferWriter σ) (DetachedBufferWriter σ) :=
  if hqueue : w.queue = [] then .ok w
  else match h : flush disk w with
    | .error e => .error e
    | .ok w' => flushAll w'
termination_by w.queue.length
decreasing_by exact length_queue_of_flush hqueue h

def queuedBytes (w : DetachedBufferWriter σ) : Nat := (w.queue.map length).sum

/-- There is enough data, or as many buffers as a `writev` takes, or it has been long enough. -/
def WantsFlush (now : Int) (w : DetachedBufferWriter σ) : Prop :=
  w.queuedBytes > cfg.flushSize ∨ w.queue.length ≥ iovMax ∨ now > w.lastFlushTime + cfg.flushPeriod

instance (now : Int) (w : DetachedBufferWriter σ) : Decidable (WantsFlush cfg now w) :=
  inferInstanceAs (Decidable (_ ∨ _))

/-- The loop of `FlushAtThreshold`. -/
def flushWhile (now : Int) (w : DetachedBufferWriter σ) :
    Except (DetachedBufferWriter σ) (DetachedBufferWriter σ) :=
  if hwants : WantsFlush cfg now w then
    match h : flush disk { w with lastFlushTime := now } with
    | .error e => .error e
    | .ok w' => flushWhile now w'
  else .ok w
termination_by (w.queue.length, if now > w.lastFlushTime + cfg.flushPeriod then 1 else 0)
decreasing_by
  by_cases hqueue : w.queue = []
  · -- An empty queue is only flushed because of the time, which then counts from now.
    obtain rfl := Except.ok.inj ((flush_of_queue_nil (by exact hqueue)).symm.trans h)
    have hlate : now > w.lastFlushTime + cfg.flushPeriod := by
      simpa [WantsFlush, queuedBytes, hqueue, iovMax] using hwants
    have hnow : ¬ now > now + cfg.flushPeriod := by omega
    rw [if_pos hlate, if_neg hnow]
    exact Prod.Lex.right _ Nat.zero_lt_one
  · exact Prod.Lex.left _ _ (length_queue_of_flush (w := { w with lastFlushTime := now }) hqueue h)

def flushAtThreshold (now : Int) (w : DetachedBufferWriter σ) :
    Except (DetachedBufferWriter σ) (DetachedBufferWriter σ) :=
  if w.ranOutOfSpace then .ok (clear w.queue.length w)
  else flushWhile cfg disk now
    { w with lastFlushTime := if w.lastFlushTime = minTime then now else w.lastFlushTime }

def encode (buffer : Bytes) (w : DetachedBufferWriter σ) : DetachedBufferWriter σ :=
  { w with encoder := (enc.encode w.encoder buffer).1, queue := w.queue ++ (enc.encode w.encoder buffer).2 }

/-- `QueueSizedFlatbuffer`, with or without a flush at a time. -/
def queueSizedFlatbuffer (buffer : Bytes) (now : Option Int) (w : DetachedBufferWriter σ) :
    Except (DetachedBufferWriter σ) (DetachedBufferWriter σ) :=
  let w := if w.ranOutOfSpace then w else encode enc buffer w
  match now with
  | none => .ok w
  | some now => flushAtThreshold cfg disk now w

def Bypasses (span : Bytes) : Prop := enc.mayBypass = true ∧ span.length > 4096

instance (span : Bytes) : Decidable (Bypasses enc span) := inferInstanceAs (Decidable (_ ∧ _))

def queueSpan (span : Bytes) (now : Int) (w : DetachedBufferWriter σ) :
    Except (DetachedBufferWriter σ) (DetachedBufferWriter σ) :=
  if w.ranOutOfSpace then .ok w
  else if Bypasses enc span then do
    -- The queue goes first. That the disk may be full by now is not looked at.
    let w ← flushAll disk w
    let w ← write disk span w
    flushAtThreshold cfg disk now w
  else flushAtThreshold cfg disk now (encode enc span w)

/-- Writes everything and closes the file, where `full` says that `close` failed with a full disk. -/
def close (full : Bool) (w : DetachedBufferWriter σ) : Except (DetachedBufferWriter σ) (DetachedBufferWriter σ) :=
  if ¬ w.isOpen then .ok w
  else do
    let w ← flushAll disk { w with
      encoder := (enc.finish w.encoder).1
      queue := w.queue ++ (enc.finish w.encoder).2 }
    return { w with isOpen := false, ranOutOfSpace := w.ranOutOfSpace || full }

inductive Call
  | queueSizedFlatbuffer (buffer : Bytes) (now : Option Int)
  | queueSpan (span : Bytes) (now : Int)
  | flush
  | close (full : Bool)

def step (w : DetachedBufferWriter σ) : Call → Except (DetachedBufferWriter σ) (DetachedBufferWriter σ)
  | .queueSizedFlatbuffer buffer now => queueSizedFlatbuffer enc cfg disk buffer now w
  | .queueSpan span now => queueSpan enc cfg disk span now w
  | .flush => flush disk w
  | .close full => close enc disk full w

def run (w : DetachedBufferWriter σ) (calls : List Call) : Except (DetachedBufferWriter σ) (DetachedBufferWriter σ) :=
  calls.foldlM (step enc cfg disk) w

def create (full : Bool) : DetachedBufferWriter σ := { encoder := enc.start, isOpen := !full, ranOutOfSpace := full }

/-! ### What is handed to the writer -/

/-- What a call should add to the file, where `closed` says whether the file was closed before: the encoded
buffers. -/
def output (e : σ) (closed : Bool) : Call → Bytes × σ × Bool
  | .queueSizedFlatbuffer buffer _ => ((enc.encode e buffer).2.flatten, (enc.encode e buffer).1, closed)
  | .queueSpan span _ =>
    if Bypasses enc span then (span, e, closed)
    else ((enc.encode e span).2.flatten, (enc.encode e span).1, closed)
  | .flush => ([], e, closed)
  | .close _ => if closed then ([], e, closed) else ((enc.finish e).2.flatten, (enc.finish e).1, true)

/-- What the calls should put into the file, in their order. -/
def stream (e : σ) (closed : Bool) : List Call → Bytes
  | [] => []
  | call :: calls =>
    (output enc e closed call).1 ++ stream (output enc e closed call).2.1 (output enc e closed call).2.2 calls

def Call.data : Call → Bytes
  | .queueSizedFlatbuffer buffer _ => buffer
  | .queueSpan span _ => span
  | .flush => []
  | .close _ => []

theorem stream_dummyEncoder (closed : Bool) (calls : List Call) :
    stream dummyEncoder () closed calls = calls.flatMap Call.data := by
  have hdata : ∀ closed (call : Call), (output dummyEncoder () closed call).1 = call.data := by
    intro closed call
    cases call with
    | queueSizedFlatbuffer buffer now => simp [output, dummyEncoder, Call.data]
    | queueSpan | close =>
      rw [output]
      split <;> simp [dummyEncoder, Call.data]
    | flush => rfl
  induction calls generalizing closed with
  | nil => rfl
  | cons call calls ih => rw [stream, hdata, ih, flatMap_cons]

structure Stopped (stream : Bytes) (w : DetachedBufferWriter σ) : Prop where
  begins : w.writes.flatMap Write.data <+: stream
  last : ∀ x ∈ w.writes.dropLast, x.IsComplete

structure Holds (stream : Bytes) (e : σ) (closed : Bool) (w : DetachedBufferWriter σ) : Prop
    extends Stopped stream w where
  complete : w.ranOutOfSpace = false → ∀ x ∈ w.writes, x.IsComplete
  queued : w.ranOutOfSpace = false → w.writes.flatMap Write.data ++ w.queue.flatten = stream
  encoder : w.ranOutOfSpace = false → w.encoder = e
  isOpen : w.ranOutOfSpace = false → w.isOpen = !closed

section

variable {enc cfg disk} {w w' : DetachedBufferWriter σ} {past more data : Bytes} {e e' : σ} {closed closed' : Bool}

open Fallible (Ends)

theorem Stopped.append (h : Stopped past w) (more : Bytes) : Stopped (past ++ more) w :=
  ⟨h.begins.trans (prefix_append _ _), h.last⟩

theorem Holds.of_ranOutOfSpace (h : Stopped past w) (hspace : w.ranOutOfSpace = true) : Holds past e closed w where
  toStopped := h
  complete := by simp [hspace]
  queued := by simp [hspace]
  encoder := by simp [hspace]
  isOpen := by simp [hspace]

theorem write_ends (disk : Nat → WriteReturn) (hcomplete : ∀ x ∈ w.writes, x.IsComplete)
    (hdata : w.writes.flatMap Write.data ++ data <+: past) : Ends (Stopped past) (fun w' => Stopped past w' ∧
        (w'.ranOutOfSpace = false → ∀ x ∈ w'.writes, x.IsComplete) ∧
        w'.writes.flatMap Write.data = w.writes.flatMap Write.data ++ data ∧
        w'.queue = w.queue ∧ w'.encoder = w.encoder ∧ w'.isOpen = w.isOpen) (write disk data w) := by
  obtain ⟨x, rfl, -, hwrite⟩ := write_cases disk data w
  have hmap : (w.writes ++ [x]).flatMap Write.data = w.writes.flatMap Write.data ++ x.data := by simp
  have hstopped : ∀ full, Stopped past { w with writes := w.writes ++ [x], ranOutOfSpace := full } := by
    intro full
    constructor
    · rw [hmap]
      exact hdata
    · rw [dropLast_concat]
      exact hcomplete
  obtain hwrite | ⟨hwrite, -⟩ | ⟨hwrite, hx⟩ := hwrite
  · rw [hwrite]
    exact hstopped _
  · rw [hwrite]
    exact ⟨hstopped _, by simp, hmap, rfl, rfl, rfl⟩
  · rw [hwrite]
    exact ⟨hstopped _, fun _ => forall_mem_append.mpr ⟨hcomplete, forall_mem_singleton.mpr hx⟩, hmap, rfl, rfl, rfl⟩

theorem Holds.clear (h : Holds past e closed w) (hspace : w.ranOutOfSpace = true) (n : Nat) :
    Holds past e closed (clear n w) :=
  .of_ranOutOfSpace ⟨h.begins, h.last⟩ hspace

theorem Holds.flush (disk : Nat → WriteReturn) (h : Holds past e closed w) :
    Ends (Stopped past) (Holds past e closed) (flush disk w) := by
  cases hspace : w.ranOutOfSpace with
  | true =>
    rw [flush_of_ranOutOfSpace hspace]
    exact h.clear hspace _
  | false =>
    by_cases hqueue : w.queue = []
    · rw [flush_of_queue_nil hqueue]
      exact h
    · rw [flush_of_queue hspace hqueue]
      generalize min w.queue.length iovMax = iovecSize
      have hsplit : w.writes.flatMap Write.data ++ (w.queue.take iovecSize).flatten ++
          (w.queue.drop iovecSize).flatten = past := by
        rw [append_assoc, ← flatten_append, take_append_drop]
        exact h.queued hspace
      have hwrite := write_ends disk (h.complete hspace) ⟨_, hsplit⟩
      cases hresult : write disk (w.queue.take iovecSize).flatten w with
      | error u =>
        rw [hresult] at hwrite
        exact hwrite
      | ok u =>
        rw [hresult] at hwrite
        obtain ⟨hstopped, hcomplete, hdata, hsame, hencoder, hopen⟩ := hwrite
        exact { hstopped with
          complete := hcomplete
          queued := by
            intro _
            show u.writes.flatMap Write.data ++ (u.queue.drop iovecSize).flatten = past
            rw [hdata, hsame, hsplit]
          encoder := fun _ => hencoder.trans (h.encoder hspace)
          isOpen := fun _ => hopen.trans (h.isOpen hspace) }

theorem flushAll_eq (disk : Nat → WriteReturn) (w : DetachedBufferWriter σ) :
    flushAll disk w = if w.queue = [] then .ok w else flush disk w >>= flushAll disk := by
  rw [flushAll]
  split
  · rfl
  · split <;> simp_all [bind, Except.bind]

open DetachedBufferWriter

theorem Holds.flushAll (disk : Nat → WriteReturn) (h : Holds past e closed w) :
    Ends (Stopped past) (fun w' => Holds past e closed w' ∧ w'.queue = []) (flushAll disk w) := by
  induction hlength : w.queue.length using Nat.strongRecOn generalizing w with
  | ind k ih =>
    rw [flushAll_eq]
    split
    · next hqueue => exact ⟨h, hqueue⟩
    · next hqueue =>
      refine (h.flush disk).bind_eq (fun _ => id) fun u hresult hu => ?_
      have hlt := length_queue_of_flush hqueue hresult
      rw [hlength] at hlt
      exact ih _ hlt hu rfl

section

variable (h : Holds past e closed w)

include h

theorem Holds.flushWhile (now : Int) : Ends (Stopped past) (Holds past e closed) (flushWhile cfg disk now w) := by
  fun_induction DetachedBufferWriter.flushWhile cfg disk now w with
  | case1 w hwants u hflush =>
    have hends := (show Holds past e closed { w with lastFlushTime := now } from { h with }).flush disk
    rw [hflush] at hends
    exact hends
  | case2 w hwants u hflush ih =>
    have hends := (show Holds past e closed { w with lastFlushTime := now } from { h with }).flush disk
    rw [hflush] at hends
    exact ih hends
  | case3 w hwants => exact h

theorem Holds.flushAtThreshold (now : Int) :
    Ends (Stopped past) (Holds past e closed) (flushAtThreshold cfg disk now w) := by
  rw [DetachedBufferWriter.flushAtThreshold]
  split
  · next hspace => exact h.clear hspace _
  · apply flushWhile
    exact { h with }

theorem Holds.push (hspace : w.ranOutOfSpace = false) (f : σ → σ × List Bytes) :
    Holds (past ++ (f e).2.flatten) (f e).1 closed
      { w with encoder := (f w.encoder).1, queue := w.queue ++ (f w.encoder).2 } where
  __ := h
  toStopped := ⟨(h.toStopped.append _).begins, h.last⟩
  queued := by
    intro _
    rw [flatten_append, ← append_assoc, h.queued hspace, h.encoder hspace]
  encoder := by
    intro _
    rw [h.encoder hspace]

theorem Holds.encode (hspace : w.ranOutOfSpace = false) (buffer : Bytes) :
    Holds (past ++ (enc.encode e buffer).2.flatten) (enc.encode e buffer).1 closed (encode enc buffer w) :=
  h.push hspace (enc.encode · buffer)

theorem Holds.queueSizedFlatbuffer (hspace : w.ranOutOfSpace = false) (buffer : Bytes)
    (now : Option Int) : Ends (Stopped (past ++ (enc.encode e buffer).2.flatten))
      (Holds (past ++ (enc.encode e buffer).2.flatten) (enc.encode e buffer).1 closed)
      (queueSizedFlatbuffer enc cfg disk buffer now w) := by
  have hencoded : Holds _ _ _ (DetachedBufferWriter.encode enc buffer w) := h.encode hspace buffer
  unfold DetachedBufferWriter.queueSizedFlatbuffer
  rw [if_neg (by simp [hspace])]
  cases now with
  | none => exact hencoded
  | some now => exact hencoded.flushAtThreshold now

end

/-- Every `writev` that it takes to write the queue is complete. -/
def FlushesComplete (disk : Nat → WriteReturn) (w : DetachedBufferWriter σ) : Prop :=
  ∀ k, iovMax * k < w.queue.length →
    Write.IsComplete ⟨((w.queue.drop (iovMax * k)).take iovMax).flatten, disk (w.writes.length + k)⟩

theorem ranOutOfSpace_of_flushAll (hspace : w.ranOutOfSpace = false) (h : FlushesComplete disk w)
    (hw' : flushAll disk w = .ok w') : w'.ranOutOfSpace = false := by
  induction hlength : w.queue.length using Nat.strongRecOn generalizing w with
  | ind k ih =>
    rw [flushAll_eq] at hw'
    split at hw'
    · cases hw'
      exact hspace
    · next hqueue =>
      obtain ⟨u, hu, hw'⟩ := Fallible.bind_eq_ok.mp hw'
      have hlt := length_queue_of_flush hqueue hu
      rw [hlength] at hlt
      rw [flush_of_queue hspace hqueue, Fallible.map_eq_ok] at hu
      obtain ⟨v, hv, rfl⟩ := hu
      obtain ⟨x, hdata, hreturned, hwrite⟩ :=
        write_cases disk (w.queue.take (min w.queue.length iovMax)).flatten w
      have htake : w.queue.take (min w.queue.length iovMax) = w.queue.take iovMax := by
        rw [Nat.min_comm, ← take_take, take_length]
      have hdrop : w.queue.drop (min w.queue.length iovMax) = w.queue.drop iovMax := by
        rw [drop_eq_drop_iff]
        omega
      obtain hwrite | ⟨hwrite, hx⟩ | ⟨hwrite, -⟩ := hwrite
      · rw [hwrite] at hv
        cases hv
      · -- The first of the writes is complete, unless the file is closed and the program ends.
        have hfirst := h 0 (by simpa using length_pos_of_ne_nil hqueue)
        rw [Nat.mul_zero, drop_zero, Nat.add_zero, ← htake, ← hdata] at hfirst
        cases hopen : w.isOpen with
        | true =>
          rw [hopen, if_pos rfl] at hreturned
          rw [← hreturned] at hfirst
          exact absurd hfirst hx
        | false =>
          rw [write, hopen] at hwrite
          cases hwrite
      · obtain rfl := Except.ok.inj (hwrite.symm.trans hv)
        refine ih _ hlt (by exact hspace) ?_ hw' rfl
        intro j hj
        have hnext := h (j + 1) (by
          have hlen : iovMax * j < (w.queue.drop (min w.queue.length iovMax)).length := hj
          rw [length_drop] at hlen
          rw [Nat.mul_succ]
          omega)
        show Write.IsComplete ⟨(((w.queue.drop (min w.queue.length iovMax)).drop (iovMax * j)).take iovMax).flatten,
          disk ((w.writes ++ [x]).length + j)⟩
        rw [hdrop, drop_drop, length_append, length_singleton, Nat.add_assoc, Nat.add_comm 1,
          Nat.add_comm iovMax, ← Nat.mul_succ]
        exact hnext

theorem Holds.queueSpan (h : Holds past e closed w) (hspace : w.ranOutOfSpace = false) {span : Bytes}
    (hbypass : Bypasses enc span) (hflushes : FlushesComplete disk w) (now : Int) :
    Ends (Stopped (past ++ span)) (Holds (past ++ span) e closed) (queueSpan enc cfg disk span now w) := by
  rw [DetachedBufferWriter.queueSpan, if_neg (by simp [hspace]), if_pos hbypass]
  apply (h.flushAll disk).bind_eq fun u hu => hu.append span
  intro u hresult ⟨hu, hqueue⟩
  have huspace := ranOutOfSpace_of_flushAll hspace hflushes hresult
  have hwritten := hu.queued huspace
  rw [hqueue, flatten_nil, append_nil] at hwritten
  have hfits : u.writes.flatMap Write.data ++ span <+: past ++ span := by rw [hwritten]
  apply (write_ends disk (hu.complete huspace) hfits).bind
  intro v ⟨hstopped, hcomplete, hdata, hsame, hencoder, hopen⟩
  apply flushAtThreshold
  exact {
    toStopped := hstopped
    complete := hcomplete
    queued := by
      intro _
      rw [hdata, hsame, hqueue, hwritten, flatten_nil, append_nil]
    encoder := fun _ => hencoder.trans (hu.encoder huspace)
    isOpen := fun _ => hopen.trans (hu.isOpen huspace) }

/-! ### Whole runs -/

def SafeCall (enc : DetachedBufferEncoder σ) (disk : Nat → WriteReturn) (w : DetachedBufferWriter σ) : Call → Prop
  | .queueSpan span _ => Bypasses enc span → w.ranOutOfSpace = true ∨ FlushesComplete disk w
  | _ => True

def SafeRun (enc : DetachedBufferEncoder σ) (cfg : WriterConfig) (disk : Nat → WriteReturn) :
    DetachedBufferWriter σ → List Call → Prop
  | _, [] => True
  | w, call :: calls => SafeCall enc disk w call ∧
      ∀ w', step enc cfg disk w call = .ok w' → SafeRun enc cfg disk w' calls

theorem Holds.close (h : Holds past e closed w) (hspace : w.ranOutOfSpace = false) (hopen : w.isOpen = true)
    (full : Bool) : Ends (Stopped (past ++ (enc.finish e).2.flatten))
      (Holds (past ++ (enc.finish e).2.flatten) (enc.finish e).1 true) (close enc disk full w) := by
  rw [DetachedBufferWriter.close, if_neg (by simp [hopen])]
  apply ((h.push hspace enc.finish).flushAll disk).bind
  intro u ⟨hu, hqueue⟩
  have hbefore : (u.ranOutOfSpace || full) = false → u.ranOutOfSpace = false := by
    intro hspace
    exact (Bool.or_eq_false_iff.mp hspace).1
  exact {
    toStopped := ⟨hu.begins, hu.last⟩
    complete := fun hspace => hu.complete (hbefore hspace)
    queued := fun hspace => hu.queued (hbefore hspace)
    encoder := fun hspace => hu.encoder (hbefore hspace)
    isOpen := fun _ => rfl }

theorem step_of_ranOutOfSpace (enc : DetachedBufferEncoder σ) (cfg : WriterConfig) (disk : Nat → WriteReturn)
    (hspace : w.ranOutOfSpace = true) (call : Call) :
    ∃ w', step enc cfg disk w call = .ok w' ∧ w'.ranOutOfSpace = true ∧ w'.writes = w.writes := by
  cases call with
  | queueSizedFlatbuffer buffer now =>
    show ∃ w', queueSizedFlatbuffer enc cfg disk buffer now w = .ok w' ∧ _
    unfold queueSizedFlatbuffer
    rw [if_pos hspace]
    cases now with
    | none => exact ⟨w, rfl, hspace, rfl⟩
    | some now => exact ⟨_, if_pos hspace, hspace, rfl⟩
  | queueSpan span now => exact ⟨w, if_pos hspace, hspace, rfl⟩
  | flush => exact ⟨_, flush_of_ranOutOfSpace hspace, hspace, rfl⟩
  | close full =>
    rw [step, close]
    split
    · exact ⟨w, rfl, hspace, rfl⟩
    · have hflush : ∀ u : DetachedBufferWriter σ, u.ranOutOfSpace = true → u.writes = w.writes →
          ∃ w', flushAll disk u = .ok w' ∧ w'.ranOutOfSpace = true ∧ w'.writes = w.writes := by
        intro u huspace huwrites
        rw [flushAll_eq]
        split
        · exact ⟨u, rfl, huspace, huwrites⟩
        · rw [flush_of_ranOutOfSpace huspace]
          have hempty : (clear u.queue.length u).queue = [] := drop_length
          exact ⟨_, (flushAll_eq disk _).trans (if_pos hempty), huspace, huwrites⟩
      obtain ⟨w', hw', hspace', hwrites⟩ := hflush { w with
        encoder := (enc.finish w.encoder).1
        queue := w.queue ++ (enc.finish w.encoder).2 } hspace rfl
      rw [hw']
      exact ⟨_, rfl, by simp [hspace'], hwrites⟩

theorem Holds.step (cfg : WriterConfig) (h : Holds past e closed w) {call : Call} (hsafe : SafeCall enc disk w call) :
    Ends (Stopped (past ++ (output enc e closed call).1))
      (Holds (past ++ (output enc e closed call).1) (output enc e closed call).2.1 (output enc e closed call).2.2)
      (step enc cfg disk w call) := by
  cases hspace : w.ranOutOfSpace with
  | true =>
    obtain ⟨w', hstep, hspace', hwrites⟩ := step_of_ranOutOfSpace enc cfg disk hspace call
    have hstopped := h.toStopped.append (output enc e closed call).1
    rw [hstep]
    exact .of_ranOutOfSpace ⟨hwrites ▸ hstopped.begins, hwrites ▸ hstopped.last⟩ hspace'
  | false =>
    cases call with
    | queueSizedFlatbuffer buffer now => exact h.queueSizedFlatbuffer hspace buffer now
    | queueSpan span now =>
      rw [output]
      split
      · next hbypass =>
        exact h.queueSpan hspace hbypass ((hsafe hbypass).resolve_left (by simp [hspace])) now
      · next hbypass =>
        rw [DetachedBufferWriter.step, DetachedBufferWriter.queueSpan, if_neg (by simp [hspace]), if_neg hbypass]
        exact (h.encode hspace span).flushAtThreshold now
    | flush =>
      rw [output, append_nil]
      exact h.flush disk
    | close full =>
      have hopen := h.isOpen hspace
      cases closed with
      | false => exact h.close hspace hopen full
      | true =>
        rw [output, if_pos rfl, append_nil, DetachedBufferWriter.step, DetachedBufferWriter.close,
          if_pos (by simp [hopen])]
        exact h

theorem Holds.run (h : Holds past e closed w) {calls : List Call} (hsafe : SafeRun enc cfg disk w calls) :
    Ends (Stopped (past ++ stream enc e closed calls)) (Stopped (past ++ stream enc e closed calls))
      (run enc cfg disk w calls) := by
  induction calls generalizing past e closed w with
  | nil =>
    rw [stream, append_nil]
    exact h.toStopped
  | cons call calls ih =>
    rw [stream, ← append_assoc]
    apply (h.step cfg hsafe.1).bind_eq fun u hu => hu.append _
    exact fun u hresult hu => ih hu (hsafe.2 u hresult)

theorem Stopped.file_begins (h : Stopped past w) : w.file <+: past := by
  apply List.IsPrefix.trans _ h.begins
  obtain hnil | ⟨init, x, hconcat⟩ := w.writes.eq_nil_or_concat
  · rw [file, hnil]
    exact nil_prefix
  · have hlast := h.last
    rw [hconcat, concat_eq_append, dropLast_concat] at hlast
    have hinit : init.flatMap Write.written = init.flatMap Write.data := by
      apply flatMap_congr
      intro y hy
      obtain ⟨n, hreturned, hlength⟩ := hlast y hy
      rw [Write.written, hreturned]
      exact take_of_length_le hlength
    have hx : x.written <+: x.data := by
      rw [Write.written]
      split
      · exact take_prefix _ _
      · exact nil_prefix
    rw [file, hconcat, concat_eq_append, flatMap_append, flatMap_append, hinit,
      prefix_append_right_inj, flatMap_singleton, flatMap_singleton]
    exact hx

end

def atEnd : Except (DetachedBufferWriter σ) (DetachedBufferWriter σ) → DetachedBufferWriter σ
  | .ok w => w
  | .error w => w

theorem run_of_ranOutOfSpace {w : DetachedBufferWriter σ} (hspace : w.ranOutOfSpace = true) (calls : List Call) :
    ∃ w', run enc cfg disk w calls = .ok w' ∧ w'.writes = w.writes := by
  induction calls generalizing w with
  | nil => exact ⟨w, rfl, rfl⟩
  | cons call calls ih =>
    obtain ⟨u, hstep, huspace, hu⟩ := step_of_ranOutOfSpace enc cfg disk hspace call
    obtain ⟨w', hrun, hw'⟩ := ih huspace
    refine ⟨w', ?_, hw'.trans hu⟩
    rw [run, foldlM_cons, hstep]
    exact hrun

/-- Whatever the disk does, the file is the beginning of what was handed to the writer, and nothing is written after an
incomplete write or once there is no space. For that, each large span that is written directly has to find a queue that
can be written. -/
theorem file_begins_stream (full : Bool) (calls : List Call) (hsafe : SafeRun enc cfg disk (create enc full) calls) :
    (atEnd (run enc cfg disk (create enc full) calls)).file <+: stream enc enc.start false calls ∧
      (∀ before x after, (atEnd (run enc cfg disk (create enc full) calls)).writes = before ++ x :: after →
        ¬ x.IsComplete → after = []) ∧
      ∀ before after w, calls = before ++ after → run enc cfg disk (create enc full) before = .ok w →
        w.ranOutOfSpace = true → (atEnd (run enc cfg disk (create enc full) calls)).writes = w.writes := by
  have hstart : Holds [] enc.start false (create enc full) := {
    begins := nil_prefix
    last := by simp [create]
    complete := by simp [create]
    queued := fun _ => rfl
    encoder := fun _ => rfl
    isOpen := by
      intro hspace
      exact congrArg (!·) hspace }
  have hrun := hstart.run hsafe
  have hstopped : Stopped (stream enc enc.start false calls) (atEnd (run enc cfg disk (create enc full) calls)) := by
    cases hresult : run enc cfg disk (create enc full) calls with
    | ok | error =>
      rw [hresult] at hrun
      exact hrun
  refine ⟨hstopped.file_begins, ?_, ?_⟩
  · intro before x after hwrites hx
    by_contra hafter
    obtain ⟨init, y, hconcat⟩ := after.eq_nil_or_concat.resolve_left hafter
    have hlast := hstopped.last
    rw [hwrites, hconcat, concat_eq_append, ← cons_append, ← append_assoc, dropLast_concat] at hlast
    exact hx (hlast x (by simp))
  · intro before after w hcalls hbefore hspace
    obtain ⟨w', hafter, hw'⟩ := run_of_ranOutOfSpace enc cfg disk hspace after
    rw [hcalls, run, foldlM_append, show before.foldlM _ _ = _ from hbefore]
    show (atEnd (run enc cfg disk w after)).writes = w.writes
    rw [hafter]
    exact hw'

/-! A buffer, and then a span that is large enough to be written directly. -/

def largeSpan : Bytes := replicate 4097 2

theorem file_begins_stream_short_write :
    (atEnd (run dummyEncoder {} (fun k => if k = 0 then .count 4097 else .count 2) (create dummyEncoder false)
        [.queueSpan largeSpan 0, .queueSizedFlatbuffer [1, 3, 5] none, .flush, .close false])).file <+:
      largeSpan ++ [1, 3, 5] := by
  have hsafe : SafeRun dummyEncoder {} (fun k => if k = 0 then .count 4097 else .count 2) (create dummyEncoder false)
      [.queueSpan largeSpan 0, .queueSizedFlatbuffer [1, 3, 5] none, .flush, .close false] := by
    refine ⟨?_, fun _ _ => ⟨trivial, fun _ _ => ⟨trivial, fun _ _ => ⟨trivial, fun _ _ => trivial⟩⟩⟩⟩
    intro _
    right
    intro k hk
    cases hk
  have hbegins := (file_begins_stream dummyEncoder {} _ false _ hsafe).1
  rw [show dummyEncoder.start = () from rfl, stream_dummyEncoder] at hbegins
  exact hbegins

theorem run_span_after_noSpace {span : Bytes} (hlength : span.length = 4097) :
    run dummyEncoder {} (fun k => if k = 0 then .noSpace else .count 4097) (create dummyEncoder false)
        [.queueSizedFlatbuffer [1] none, .queueSpan span 0] =
      .ok { encoder := (), isOpen := true, ranOutOfSpace := true,
            writes := [⟨[1], .noSpace⟩, ⟨span, .count 4097⟩] } := by
  have hbypass : Bypasses dummyEncoder span := ⟨rfl, by rw [hlength]; decide⟩
  have hflush : flushAll (fun k => if k = 0 then .noSpace else .count 4097)
      { encoder := (), queue := [[1]], isOpen := true } =
        .ok { encoder := (), isOpen := true, ranOutOfSpace := true, writes := [⟨[1], .noSpace⟩] } := by
    rw [flushAll_eq, if_neg (by simp), flush_of_queue rfl (by simp)]
    show flushAll _ _ = _
    rw [flushAll_eq]
    rfl
  show queueSpan dummyEncoder {} _ span 0 { encoder := (), queue := [[1]], isOpen := true } >>= pure = _
  rw [bind_pure, queueSpan, if_neg (by simp), if_pos hbypass, hflush]
  simp [bind, Except.bind, write, handleWriteReturn, hlength, flushAtThreshold, clear]

/-- The disk is full only when the queued buffer is written. It is dropped and the span is written. -/
theorem span_written_after_dropped_buffer :
    ∃ w, run dummyEncoder {} (fun k => if k = 0 then .noSpace else .count 4097) (create dummyEncoder false)
        [.queueSizedFlatbuffer [1] none, .queueSpan largeSpan 0] = .ok w ∧
      w.writes = [⟨[1], .noSpace⟩, ⟨largeSpan, .count 4097⟩] ∧ w.file = largeSpan ∧
      ¬ w.file <+: [1] ++ largeSpan := by
  have hlength : largeSpan.length = 4097 := length_replicate
  have hwritten : take 4097 largeSpan = largeSpan := take_of_length_le hlength.le
  have hhead : largeSpan = 2 :: replicate 4096 2 := replicate_succ
  refine ⟨_, run_span_after_noSpace hlength, rfl, ?_, ?_⟩
  · simp [file, Write.written, hwritten]
  · intro hbegins
    have hfile : largeSpan <+: 1 :: largeSpan := by simpa [file, Write.written, hwritten] using hbegins
    rw [hhead, cons_prefix_cons] at hfile
    exact absurd hfile.1 (by decide)

end DetachedBufferWriter

end RobotCode.Logging
