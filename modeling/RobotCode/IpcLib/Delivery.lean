import RobotCode.IpcLib.Contents
import RobotCode.IpcLib.TotalOrder

/-!
# A read returns what was sent

`Read` copies a message that senders may recycle under its hands and looks only at the header before
and after. That is enough: once a message has left the queue it never carries its old number again, so
a header that still reads the wanted index at the end did so all along, and all that was copied in
between is what was published under that number.
-/

namespace RobotCode.IpcLib

variable {c : Configuration} {s s' : State} {i : Nat}

/-- The order of the source text of `Read`. -/
instance : Preorder ReadPc := Preorder.lift ReadPc.ctorIdx

instance (a b : ReadPc) : Decidable (a < b) := inferInstanceAs (Decidable (a.ctorIdx < b.ctorIdx))

instance (a b : ReadPc) : Decidable (a ≤ b) := inferInstanceAs (Decidable (a.ctorIdx ≤ b.ctorIdx))

/-- What was copied so far agrees with the message `x`. -/
structure ReaderProc.Copied (c : Configuration) (p : ReaderProc) (x : Message) : Prop where
  monotonicSentTime : .readMonotonicSentTime < p.pc → p.out.monotonicSentTime = x.monotonicSentTime
  realtimeSentTime : .readRealtimeSentTime < p.pc → p.out.realtimeSentTime = x.realtimeSentTime
  tested : p.pc = .readRemoteQueueIndex → x.remoteQueueIndex ≠ 0xffffffff
  remoteQueueIndex : .readRemoteQueueIndex < p.pc → p.out.remoteQueueIndex =
    if x.remoteQueueIndex = 0xffffffff then p.queueIndex.index else x.remoteQueueIndex
  monotonicRemoteTime : .readMonotonicRemoteTime < p.pc → p.out.monotonicRemoteTime = x.monotonicRemoteTime
  realtimeRemoteTime : .readRealtimeRemoteTime < p.pc → p.out.realtimeRemoteTime = x.realtimeRemoteTime
  sourceBootUuid : .readSourceBootUuid < p.pc → p.out.sourceBootUuid = x.sourceBootUuid
  copying : p.pc = .readData → ∀ k < p.copied, p.out.data k = x.data k
  data : .readData < p.pc → p.wantData = true → ∀ k < c.messageDataSize, p.out.data k = x.data k
  length : .readLength < p.pc → p.out.length = x.length

/-- What a reader knows about the message it looks at and about what it copied from it. -/
structure ReaderSees (c : Configuration) (s : State) (p : ReaderProc) : Prop where
  regs : p.pc ≠ .idle → 0 < c.queueSize ∧ p.queueIndex.index = p.request % c.maxIndex ∧
    p.queueIndex.count = c.queueSize ∧ p.startedAt ≤ s.history.sent.length
  seen : .loadIndex < p.pc → Seen c s p.request p.startedAt p.dueSeen p.message
  copied : .reloadMessage < p.pc → p.pc ≤ .loadFinalQueueIndex → c.queueSize ≤ p.dueSeen →
    s.history.number p.message = some (p.dueSeen - c.queueSize) →
    ∀ r, s.history.sent[p.dueSeen - c.queueSize]? = some r → p.Copied c r.message
  good : p.pc = .done → p.result = .good → p.request < p.startedAt + c.queueSize →
    p.request < c.maxIndex ∧ ∃ r, s.history.sent[p.request]? = some r ∧ p.Copied c r.message

theorem ReaderSees.step_other {a : Action} {p : ReaderProc} (h : ReaderSees c s p) (hsound : Sound c s)
    (hok : InOrder c s a) (hstep : step c s a = some s') : ReaderSees c s' p where
  regs hpc := by
    obtain ⟨hsize, hindex, hcount, hstarted⟩ := h.regs hpc
    exact ⟨hsize, hindex, hcount, hstarted.trans (step_extends_sent hstep).length_le⟩
  seen hpc := by
    have hsize := (h.regs (by rintro heq; exact absurd (heq ▸ hpc) (by decide))).1
    exact (h.seen hpc).step hsound hsize hok hstep
  copied hpc hpc' hle hnumber r hr := by
    have hseen := h.seen (lt_trans (by decide) hpc)
    have hsize := (h.regs (by rintro heq; exact absurd (heq ▸ hpc) (by decide))).1
    obtain ⟨r', hr', -⟩ := hseen.record hle
    obtain rfl : r' = r := by
      rw [getElem?_of_extends (step_extends_sent hstep) hr', Option.some.injEq] at hr
      exact hr
    exact h.copied hpc hpc' hle (hseen.number_of_step hsound hsize hstep (Nat.sub_le _ _) hnumber) r' hr'
  good hpc hresult hstart := by
    obtain ⟨hlt, r, hr, hcopied⟩ := h.good hpc hresult hstart
    exact ⟨hlt, r, getElem?_of_extends (step_extends_sent hstep) hr, hcopied⟩

/-! ### The reader moves -/

section

variable {p p' : ReaderProc}

theorem ReaderSees.load (hsound : Sound c s) (h : ReaderSees c s p) (hpc : p.pc ≠ .idle) :
    ReaderSees c s { p with
      message := (s.memory.queue p.queueIndex.wrapped).messageIndex
      dueSeen := s.history.due p.queueIndex.wrapped
      pc := .loadStartingQueueIndex } := by
  obtain ⟨hsize, hindex, hcount, hstarted⟩ := h.regs hpc
  have hwrapped : p.queueIndex.wrapped = p.request % c.queueSize := by
    rw [QueueIndex.wrapped, hindex, hcount, Nat.mod_mod_of_dvd _ Configuration.queueSize_dvd_maxIndex]
  rw [hwrapped]
  exact ⟨fun _ => ⟨hsize, hindex, hcount, hstarted⟩, fun _ => Seen.load hsound hsize hstarted,
    fun hlate => absurd hlate (by dsimp only; decide), fun hdone => absurd hdone (by simp)⟩

theorem ReaderSees.move (h : ReaderSees c s p) (hlate : .loadIndex < p.pc)
    (hregs : p'.request = p.request ∧ p'.queueIndex = p.queueIndex ∧ p'.message = p.message ∧
      p'.startedAt = p.startedAt ∧ p'.dueSeen = p.dueSeen)
    (hcopied : .reloadMessage < p'.pc → p'.pc ≤ .loadFinalQueueIndex → c.queueSize ≤ p.dueSeen →
      s.history.number p.message = some (p.dueSeen - c.queueSize) →
      ∀ r, s.history.sent[p.dueSeen - c.queueSize]? = some r → p'.Copied c r.message)
    (hgood : p'.pc = .done → p'.result = .good → p.request < p.startedAt + c.queueSize →
      p.request < c.maxIndex ∧ ∃ r, s.history.sent[p.request]? = some r ∧ p'.Copied c r.message) :
    ReaderSees c s p' := by
  obtain ⟨hrequest, hindex, hmessage, hstarted, hdue⟩ := hregs
  have hidle : p.pc ≠ .idle := by
    intro heq
    exact absurd (heq ▸ hlate) (by decide)
  refine ⟨fun _ => ?_, fun _ => ?_, ?_, ?_⟩
  · rw [hindex, hrequest, hstarted]
    exact h.regs hidle
  · rw [hrequest, hstarted, hdue, hmessage]
    exact h.seen hlate
  · rw [hmessage, hdue]
    exact hcopied
  · rw [hrequest, hstarted]
    exact hgood

theorem ReaderProc.Copied.next {y : Message} (h : p.Copied c y) (hbody : (s.memory.messages p.message).body = y.body)
    (hlate : .reloadMessage < p.pc) (hnext : readerNext c s p = some p') (hpc' : p'.pc ≤ .loadFinalQueueIndex) :
    p'.Copied c y := by
  simp only [Message.body, Message.mk.injEq] at hbody
  obtain ⟨-, b1, b2, b3, b4, b5, b6, b7, b8, -⟩ := hbody
  obtain ⟨h1, h2, h3, h4, h5, h6, h7, h8, h9, h10⟩ := h
  cases heq : p.pc <;> simp only [readerNext, heq] at hnext <;>
    simp +decide only [heq, forall_const] at h1 h2 h3 h4 h5 h6 h7 h8 h9 h10 hlate
  case readData =>
    split at hnext
    · cases hnext
      refine ⟨fun _ => h1, fun _ => h2, by simp, fun _ => h4, fun _ => h5, fun _ => h6, fun _ => h7, fun _ k hk => ?_,
        fun hpc => absurd hpc (by dsimp only; decide), fun hpc => absurd hpc (by dsimp only; decide)⟩
      dsimp only at hk ⊢
      by_cases hlast : k = p.copied
      · rw [hlast, Function.update_self, b8]
      · rw [Function.update_of_ne hlast]
        exact h8 k (by omega)
    · rename_i hend
      cases hnext
      exact ⟨fun _ => h1, fun _ => h2, by simp, fun _ => h4, fun _ => h5, fun _ => h6, fun _ => h7, by simp,
        fun _ _ k hk => h8 k (by omega), fun hpc => absurd hpc (by dsimp only; decide)⟩
  all_goals
    repeat' split at hnext
    all_goals cases hnext <;> first
      | exact absurd hpc' (by dsimp only; decide)
      | constructor <;> first | (simp +decide [*]; done) | simp_all +decide

theorem readerNext_reading (hpc : .reloadMessage < p.pc) (hnext : readerNext c s p = some p') :
    (p'.request = p.request ∧ p'.queueIndex = p.queueIndex ∧ p'.message = p.message ∧
      p'.startedAt = p.startedAt ∧ p'.dueSeen = p.dueSeen) ∧
    ((p.pc ≤ .loadFinalQueueIndex ∧ p'.pc ≤ .loadFinalQueueIndex ∧ p'.pc ≠ .done) ∨
      p.pc = .loadFinalQueueIndex ∧ p' = { p with
        result := if (s.memory.messages p.message).queueIndex ≠ p.queueIndex.index then .overwrote else .good
        pc := .done }) := by
  cases heq : p.pc <;> simp only [readerNext, heq] at hnext
  all_goals
    repeat' split at hnext
    all_goals cases hnext <;> first
      | exact absurd (heq ▸ hpc) (by decide)
      | simp +decide [*]

theorem ReaderSees.finish (hmax : c.Indexable) (hsound : Sound c s) (hfew : Few c s)
    (h : ReaderSees c s p) (hpc : p.pc = .loadFinalQueueIndex)
    (hheader : (s.memory.messages p.message).queueIndex = p.queueIndex.index)
    (hstart : p.request < p.startedAt + c.queueSize) :
    p.request < c.maxIndex ∧ ∃ r, s.history.sent[p.request]? = some r ∧
      { p with result := .good, pc := .done }.Copied c r.message := by
  have hlate : .loadIndex < p.pc := by rw [hpc]; decide
  obtain ⟨hsize, hindex, -, hstarted⟩ := h.regs (by simp [hpc])
  have hseen := h.seen hlate
  obtain ⟨hlt, hdue, hnumber⟩ :=
    hseen.number_of_header hmax hsound hfew hsize hstarted hstart (hheader.trans hindex)
  have hle : c.queueSize ≤ p.dueSeen := by omega
  have hn : p.dueSeen - c.queueSize = p.request := by omega
  obtain ⟨r, hr, -⟩ := hseen.record hle
  have hcopied := h.copied (by rw [hpc]; decide) hpc.le hle (by rw [hn, hnumber]) r hr
  rw [hn] at hr
  refine ⟨hlt, r, hr, ?_⟩
  obtain ⟨h1, h2, -, h4, h5, h6, h7, -, h9, h10⟩ := hcopied
  rw [hpc] at h1 h2 h4 h5 h6 h7 h9 h10
  exact ⟨fun _ => h1 (by decide), fun _ => h2 (by decide), by simp, fun _ => h4 (by decide), fun _ => h5 (by decide),
    fun _ => h6 (by decide), fun _ => h7 (by decide), by simp, fun _ => h9 (by decide), fun _ => h10 (by decide)⟩

theorem ReaderSees.next (hmax : c.Indexable) (hsound : Sound c s) (hcontents : Contents c s)
    (hfew : Few c s) (h : ReaderSees c s p) (hnext : readerNext c s p = some p') : ReaderSees c s p' := by
  by_cases hreading : .reloadMessage < p.pc
  · have hlate : .loadIndex < p.pc := lt_trans (by decide) hreading
    obtain ⟨hregs, ⟨hpc, hpc', hdone⟩ | ⟨hpc, rfl⟩⟩ := readerNext_reading hreading hnext
    · refine h.move hlate hregs (fun _ _ hle hnumber r hr => ?_) fun hd => absurd hd hdone
      exact (h.copied hreading hpc hle hnumber r hr).next ((h.seen hlate).body hcontents hle hnumber hr) hreading hnext hpc'
    · refine h.move hlate hregs (fun _ hd => absurd hd (by dsimp only; decide)) fun _ hgood hstart => ?_
      by_cases hheader : (s.memory.messages p.message).queueIndex = p.queueIndex.index
      · simpa [hheader] using h.finish hmax hsound hfew hpc hheader hstart
      · simp [hheader] at hgood
  · cases heq : p.pc <;> simp only [readerNext, heq] at hnext
    case loadIndex =>
      cases hnext
      exact h.load hsound (by simp [heq])
    case loadStartingQueueIndex =>
      have hlate : .loadIndex < p.pc := by rw [heq]; decide
      repeat' split at hnext
      all_goals cases hnext
      · exact h.move hlate ⟨rfl, rfl, rfl, rfl, rfl⟩ (fun _ hpc => absurd hpc (by dsimp only; decide)) (by simp)
      · exact h.move hlate ⟨rfl, rfl, rfl, rfl, rfl⟩ (fun hpc => absurd hpc (by dsimp only; decide)) (by simp)
      · refine h.move hlate ⟨rfl, rfl, rfl, rfl, rfl⟩ (fun _ _ _ _ r _ => ?_) (by simp)
        constructor <;> simp +decide
    case reloadMessage =>
      have hlate : .loadIndex < p.pc := by rw [heq]; decide
      repeat' split at hnext
      all_goals cases hnext
      · exact h.load hsound (by simp [heq])
      all_goals
        exact h.move hlate ⟨rfl, rfl, rfl, rfl, rfl⟩ (fun _ hpc => absurd hpc (by dsimp only; decide)) (by simp)
    case idle => cases hnext
    all_goals exact absurd (by rw [heq]; decide) hreading

end

/-! ### Runs -/

def ReadersSee (c : Configuration) (s : State) : Prop := ∀ i, ReaderSees c s (s.reader i)

theorem readersSee_initial : ReadersSee c (initialState c) := fun _ => by
  constructor <;> simp +decide [initialState, initialReader]

theorem ReaderSees.call {p : ReaderProc} {queueIndex : Nat} (hmax : c.Indexable)
    (hword : queueIndex < 2 ^ 32) (hsize : 0 < c.queueSize) (wantData : Bool) :
    ReaderSees c s { p with
      request := queueIndex
      wantData := wantData
      queueIndex := (QueueIndex.zero c.queueSize).incrementBy queueIndex
      startedAt := s.history.sent.length
      pc := .loadIndex } := by
  refine ⟨fun _ => ⟨hsize, ?_, ?_, le_rfl⟩, fun hpc => ?_, fun hpc => ?_, by simp⟩
  · have hindex := Configuration.incrementBy_index hword (Configuration.maxIndex_pos hmax hsize)
    rwa [Nat.zero_add] at hindex
  · rw [QueueIndex.incrementBy_count, QueueIndex.zero]
  all_goals exact absurd hpc (by dsimp only; decide)

theorem ReadersSee.step {a : Action} (hmax : c.Indexable) (h : ReadersSee c s)
    (hsound : Sound c s) (hcontents : Contents c s) (hok : InOrder c s a) (hstep : step c s a = some s')
    (hfew : Few c s') : ReadersSee c s' := by
  intro k
  have hother := (h k).step_other hsound hok hstep
  cases step_move hstep with
  | read i queueIndex wantData hword hsize =>
    by_cases hki : k = i
    · subst hki
      rw [State.setReader_reader, Function.update_self]
      exact ReaderSees.call hmax hword hsize wantData
    · simpa [hki] using hother
  | reader i p hnext =>
    by_cases hki : k = i
    · subst hki
      have hsees : ReaderSees c s p := (h k).next hmax hsound hcontents (hfew.of_step hstep) hnext
      simpa using hsees.step_other hsound hok hstep
    · simpa [hki] using hother
  | sender | fill => simpa using hother
  | _ => exact hother

theorem Run.readersSee (hmax : c.Indexable) (h : Run c IndexNotReused (initialState c) s)
    (hfew : Few c s) : Sound c s ∧ Contents c s ∧ ReadersSee c s :=
  h.invariant_until (P := fun u => Sound c u ∧ Contents c u ∧ ReadersSee c u) (Q := Few c)
    (fun _ _ _ hstep hv => hv.of_step hstep)
    (fun _ _ _ hu hok hstep hv => by
      have hinOrder := inOrder_of_few hu.1.numbered hok hstep hv
      exact ⟨hu.1.step hmax hinOrder hstep, hu.2.1.step hu.1 hstep,
        hu.2.2.step hmax hu.1 hu.2.1 hinOrder hstep hv⟩)
    ⟨sound_initial hmax, contents_initial, readersSee_initial⟩ hfew

/-- What `Read` hands out for the message of the record `r`, which it takes for a message of this queue when the remote
index is the reserved value. -/
structure ReaderProc.Delivers (c : Configuration) (p : ReaderProc) (r : SendRecord) : Prop where
  length : p.out.length = r.args.length
  data : p.wantData = true → ∀ k < c.messageDataSize, p.out.data k = r.payload k
  monotonicRemoteTime : p.out.monotonicRemoteTime = r.args.monotonicRemoteTime
  realtimeRemoteTime : p.out.realtimeRemoteTime = r.args.realtimeRemoteTime
  sourceBootUuid : p.out.sourceBootUuid = r.args.sourceBootUuid
  remoteQueueIndex : p.out.remoteQueueIndex =
    if r.args.remoteQueueIndex = 0xffffffff then p.request else r.args.remoteQueueIndex

/-- A successful read returns the arguments and the payload of the one send that has that index. -/
theorem read_delivers (hmax : c.numMessages ≤ Index.maxMessages) (hrun : Run c IndexNotReused (initialState c) s)
    (hfew : Few c s) (hdone : (s.reader i).pc = .done) (hgood : (s.reader i).result = .good)
    (hstart : (s.reader i).request < (s.reader i).startedAt + c.queueSize) :
    ∃ r, s.history.sent[(s.reader i).request]? = some r ∧ r.queueIndex = (s.reader i).request ∧
      (∀ n r', s.history.sent[n]? = some r' → r'.queueIndex = (s.reader i).request → n = (s.reader i).request) ∧
      (s.reader i).Delivers c r := by
  obtain ⟨hsound, hcontents, hreaders⟩ := Run.readersSee hmax hrun hfew
  obtain ⟨hlt, r, hr, hcopied⟩ := (hreaders i).good hdone hgood hstart
  obtain ⟨-, hindex, -, -⟩ := (hreaders i).regs (by simp [hdone])
  have hcarries := (hcontents.records _ r hr).1
  have hqueueIndex : ∀ n (r' : SendRecord), s.history.sent[n]? = some r' → r'.queueIndex = n := by
    intro n r' hr'
    have hn := (List.getElem?_eq_some_iff.mp hr').1
    rw [(hsound.numbered.records n r' hr').1, Nat.mod_eq_of_lt (hn.trans hfew.1)]
  refine ⟨r, hr, hqueueIndex _ r hr, fun n r' hr' heq => (hqueueIndex n r' hr').symm.trans heq, ?_⟩
  obtain ⟨-, -, -, hremote, hmonotonic, hrealtime, huuid, -, hdata, hlength⟩ := hcopied
  rw [hdone] at hremote hmonotonic hrealtime huuid hdata hlength
  refine ⟨(hlength (by decide)).trans hcarries.length, fun hwant k hk => ?_,
    (hmonotonic (by decide)).trans hcarries.monotonicRemoteTime,
    (hrealtime (by decide)).trans hcarries.realtimeRemoteTime,
    (huuid (by decide)).trans hcarries.sourceBootUuid, ?_⟩
  · rw [hdata (by decide) hwant k hk, hcarries.data]
  · rw [hremote (by decide), hcarries.remoteQueueIndex, hindex, Nat.mod_eq_of_lt hlt]

def oneSlot : Configuration := ⟨1, 0, 1, 2⟩

/-- The labels of a call of `Send` on a message with one byte written, read back by a reader. -/
private def sendAndRead (remoteQueueIndex readSteps : Nat) : List Action :=
  [.makeSender 0, .data 0, .writeData 0 1 42, .send 0 ⟨2, 5, 6, remoteQueueIndex, Vector.replicate 16 9⟩] ++
    List.replicate 18 (.sender 0) ++ [.read 0 0 true] ++ List.replicate readSteps (.reader 0)

theorem read_delivers_byte : ∃ (s : State) (r : SendRecord), s.history.sent[0]? = some r ∧ r.queueIndex = 0 ∧
    (s.reader 0).out.data 1 = 42 ∧ (s.reader 0).Delivers oneSlot r := by
  have hexec : ∃ s, Run oneSlot IndexNotReused (initialState oneSlot) s ∧ (Few oneSlot s ∧
      (s.reader 0).pc = .done ∧ (s.reader 0).result = .good ∧ (s.reader 0).request = 0 ∧ (s.reader 0).startedAt = 1 ∧
      (s.reader 0).out.data 1 = 42) :=
    Transition.Run.exists_of_exec (sendAndRead 7 14) (by decide +kernel)
  obtain ⟨s, hrun, hfew, hdone, hgood, hrequest, hstarted, hdata⟩ := hexec
  obtain ⟨r, hr, hindex, -, hdelivers⟩ := read_delivers (i := 0) (by decide) hrun hfew hdone hgood
    (by rw [hrequest, hstarted]; decide)
  rw [hrequest] at hr hindex
  exact ⟨s, r, hr, hindex, hdata, hdelivers⟩

/-- Two ways in which a read differs from the send with its index. The reserved remote index reads as the local one, and a
sender that slept through all but two of the queue indices sends with an index a second time. -/
theorem read_differs_from_send :
    (∃ (s : State) (r : SendRecord), Run oneSlot IndexNotReused (initialState oneSlot) s ∧
      s.history.sent.length < oneSlot.maxIndex ∧ (s.reader 0).pc = .done ∧ (s.reader 0).result = .good ∧
      (s.reader 0).request < (s.reader 0).startedAt + oneSlot.queueSize ∧
      s.history.sent[(s.reader 0).request]? = some r ∧ r.queueIndex = (s.reader 0).request ∧
      (s.reader 0).out.remoteQueueIndex ≠ r.args.remoteQueueIndex) ∧
    ∃ (s : State) (n n' : Nat) (r r' : SendRecord), Run threeSlots IndexNotReused (initialState threeSlots) s ∧
      s.history.sent.length < threeSlots.maxIndex ∧ (s.reader 0).pc = .done ∧ (s.reader 0).result = .good ∧
      (s.reader 0).request < (s.reader 0).startedAt + threeSlots.queueSize ∧
      s.history.sent[n]? = some r ∧ s.history.sent[n']? = some r' ∧ n ≠ n' ∧
      r.queueIndex = (s.reader 0).request ∧ r'.queueIndex = (s.reader 0).request := by
  refine ⟨?_, ?_⟩
  · simp only [exists_and_left, ← Option.mem_def]
    exact Transition.Run.exists_of_exec (sendAndRead 0xffffffff 13) (by decide +kernel)
  · obtain ⟨s, first, last, hrun, hlength, hfirst, hfirstIndex, hlast, hlastIndex, hheader, hidle⟩ := lapped_run
    obtain ⟨s', hrun', hdone, hgood, hrequest, hstarted, hhistory⟩ :=
      undisturbed_read_completes (c := threeSlots) (i := 0) (q := 0) (by decide) (by decide) (by decide) false hidle
        hheader
    refine ⟨s', 0, 4294967293, first, last, hrun.trans hrun', ?_, hdone, hgood, ?_, ?_, ?_, by decide, ?_, ?_⟩
    · rw [hhistory, hlength, threeSlots_maxIndex]
      decide
    · rw [hrequest, hstarted]
      exact Nat.lt_add_left _ (by decide)
    · rw [hhistory, hfirst]
    · rw [hhistory, hlast]
    · rw [hrequest, hfirstIndex]
    · rw [hrequest, hlastIndex]

def State.inSlot (s : State) (j : Nat) : Message := s.memory.messages (s.memory.queue j).messageIndex

/-- The queue is a window of the history: each of the last `queueSize` messages is in its slot, with its index and with what
`Send` was called with, and no other slot has a message. -/
theorem queue_is_window (hmax : c.numMessages ≤ Index.maxMessages) (hrun : Run c (InOrder c) (initialState c) s) :
    (∀ n r, s.history.sent[n]? = some r → s.history.sent.length ≤ n + c.queueSize →
      (s.inSlot (n % c.queueSize)).queueIndex = n % c.maxIndex ∧ (s.inSlot (n % c.queueSize)).body = r.message.body ∧
        r.message.Carries r.args r.payload) ∧
    ∀ j < c.queueSize, s.history.sent.length ≤ j → (s.inSlot j).queueIndex = QueueIndex.invalid.index := by
  have hnumbered := (Run.sound hmax hrun).numbered
  have hcontents : Contents c s :=
    hrun.invariant_of_run (fun _ _ _ hrun hu _ hstep => hu.step (Run.sound hmax hrun) hstep) contents_initial
  refine ⟨fun n r hr hlast => ?_, fun j hj hnew => ?_⟩
  · have hn := (List.getElem?_eq_some_iff.mp hr).1
    have hj : n % c.queueSize < c.queueSize := Nat.mod_lt n (hnumbered.nonempty (by omega))
    obtain ⟨-, hround, hmod⟩ := hnumbered.ring _ hj
    obtain ⟨hdue, hslot⟩ := (hnumbered.records n r hr).2.resolve_right fun ⟨hlater, _⟩ => by
      have := Ring.add_le_of_mod_eq ((Nat.add_mod_right n _).trans hmod.symm) hlater
      omega
    have hnumber := hnumbered.number _ hj
    rw [hdue, if_pos (Nat.le_add_left _ n), Nat.add_sub_cancel] at hnumber
    obtain ⟨hcarries, hbody⟩ := hcontents.records n r hr
    refine ⟨?_, ?_, hcarries⟩
    · rw [State.inSlot, hnumbered.header, hnumber]
      rfl
    · rw [State.inSlot, hslot]
      exact hbody (hslot ▸ hnumber)
  · obtain ⟨-, hround, hmod⟩ := hnumbered.ring j hj
    have hnone : ¬ c.queueSize ≤ s.history.due j := by
      intro hle
      rw [Nat.mod_eq_sub_mod hle, Nat.mod_eq_of_lt (by omega)] at hmod
      omega
    rw [State.inSlot, hnumbered.header, hnumbered.number j hj, if_neg hnone]
    rfl

theorem sent_byte_is_in_window : ∃ (s : State) (r : SendRecord), s.history.sent[0]? = some r ∧
    (s.inSlot 0).queueIndex = 0 ∧ (s.inSlot 0).body = r.message.body ∧ r.message.Carries r.args r.payload := by
  obtain ⟨s, hrun, hlength⟩ : ∃ s, Run oneSlot (InOrder oneSlot) (initialState oneSlot) s ∧ s.history.sent.length = 1 :=
    Transition.Run.exists_of_exec (sendAndRead 7 0) (by decide +kernel)
  have hr := List.getElem?_eq_getElem (l := s.history.sent) (i := 0) (by omega)
  exact ⟨s, _, hr, (queue_is_window (by decide) hrun).1 0 _ hr (by rw [hlength]; decide)⟩

end RobotCode.IpcLib
