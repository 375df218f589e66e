import RobotCode.Logging.BufferWriter
import RobotCode.Logging.SpanReader

/-!
# Reading back what was written

A file of `DetachedBufferWriter`, read by `SpanReader`. The disk may have taken any part of the last write, so that
the file can end inside a message.
-/

namespace RobotCode.Logging

open List SpanReader

/-- The message in which a stream was cut off is not complete. -/
theorem framed_of_prefix {messages : List Bytes} {stream : Bytes} (hcomplete : ∀ m ∈ messages, Complete m)
    (h : stream <+: messages.flatten) : ∃ k rest, Framed stream (messages.take k) rest := by
  induction messages generalizing stream with
  | nil =>
    obtain rfl := prefix_nil.mp h
    refine ⟨0, [], rfl, hcomplete, fun m after heq hm => ?_⟩
    obtain ⟨rfl, -⟩ := append_eq_nil_iff.mp heq.symm
    exact absurd hm.2 (by simp)
  | cons m messages ih =>
    obtain ⟨hm, hmessages⟩ := forall_mem_cons.mp hcomplete
    rw [flatten_cons] at h
    by_cases hwhole : m <+: stream
    · obtain ⟨stream, rfl⟩ := hwhole
      obtain ⟨k, rest, hframed⟩ := ih hmessages ((prefix_append_right_inj m).mp h)
      refine ⟨k + 1, rest, ?_, fun a ha => hcomplete a (mem_of_mem_take ha), hframed.maximal⟩
      rw [take_succ_cons, flatten_cons, append_assoc, ← hframed.stream_eq]
    · obtain ⟨cut, rfl⟩ := ( prefix_or_prefix_of_prefix h (prefix_append m _)).resolve_right hwhole
      refine ⟨0, stream, rfl, by simp, fun a after heq ha => hwhole ?_⟩
      have hfirst := firstMessage_append hm []
      rw [append_nil, heq, append_assoc, firstMessage_append ha] at hfirst
      obtain ⟨-, rfl⟩ := append_eq_nil_iff.mp (self_eq_append_right.mp hfirst)
      rw [append_nil]

/-- The reader returns these messages one after the other, and then nothing. -/
def Returns {D : DataDecoder} (decoder : D.State) (messages : List Bytes) : Prop :=
  ∀ calls, ∃ results r, (make decoder).run calls = .ok (results, r) ∧ results.length = calls.length ∧
    ∀ k < calls.length, results[k]? = some (messages.getD ((calls.take k).count .readMessage) [])

namespace DetachedBufferWriter

def queued (calls : List Call) : List Bytes := (calls.map Call.data).filter fun data => !data.isEmpty

/-- Whatever the disk does, even when the writer aborts, reading the file returns the messages that are whole in it, and they
are the first ones that were queued. -/
theorem file_reads_back (cfg : WriterConfig) (disk : Nat → WriteReturn) (full : Bool) (calls : List Call)
    (hsafe : SafeRun dummyEncoder cfg disk (create dummyEncoder full) calls) (hcomplete : ∀ m ∈ queued calls, Complete m) :
    ∃ file k rest, file = (atEnd (run dummyEncoder cfg disk (create dummyEncoder full) calls)).file ∧
      Framed file ((queued calls).take k) rest ∧ Returns (D := dummyDecoder) ⟨file, false⟩ ((queued calls).take k) := by
  have hstart : Holds [] () false (create dummyEncoder full) :=
    ⟨⟨ nil_prefix, by simp [create]⟩, by simp [create], fun _ => rfl, fun _ => rfl, congrArg (!·)⟩
  -- The invariant of the writer, also in the state in which a failed check leaves it.
  have hbegins : (atEnd (run dummyEncoder cfg disk (create dummyEncoder full) calls)).file <+: (queued calls).flatten := by
    have hrun := hstart.run hsafe
    rw [nil_append, stream_dummyEncoder] at hrun
    rw [queued, flatten_filter_not_isEmpty]
    revert hrun
    cases run dummyEncoder cfg disk (create dummyEncoder full) calls <;> exact Stopped.file_begins
  obtain ⟨k, rest, hframed⟩ := framed_of_prefix hcomplete hbegins
  exact ⟨_, k, rest, rfl, hframed, Valid.run (r := make _) le_rfl hframed⟩

/-- The disk takes seven of the ten bytes. -/
theorem cut_file_reads_back :
    let calls := [.queueSizedFlatbuffer [1, 0, 0, 0, 7] none, .queueSizedFlatbuffer [1, 0, 0, 0, 8] none, .flush]
    ∃ file k rest, file = (atEnd (run dummyEncoder {} (fun _ => .count 7) (create dummyEncoder false) calls)).file ∧
      Framed file ((queued calls).take k) rest ∧ Returns (D := dummyDecoder) ⟨file, false⟩ ((queued calls).take k) :=
  file_reads_back {} _ false _ (by simp [SafeRun, SafeCall]) (by unfold Complete; decide)

end DetachedBufferWriter

end RobotCode.Logging
