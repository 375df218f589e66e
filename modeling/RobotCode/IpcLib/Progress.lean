import RobotCode.IpcLib.Numbering

/-!
# A send that nobody disturbs completes

When the counter is up to date, nothing is pinned and no other process moves, `Send` goes straight
through: the slot it picks waits for its number, the exchange succeeds and the popped message is its new
scratch message. Everybody else may have stopped anywhere. So one sender alone sends as many messages
as it likes, which is what the runs in which another sender sleeps for a very long time are made of.
-/

namespace RobotCode.IpcLib

variable {c : Configuration} {s s' : State} {i n : Nat}

/-- Where an undisturbed sender of message number `n` can be, and what it has seen. -/
def SenderProc.OnCourse (n : Nat) (h : History) (p : SenderProc) : Prop :=
  match p.pc with
  | .loadScratch | .checkRedzones | .storeLength | .storeRemoteQueueIndex | .storeSourceBootUuid
  | .storeMonotonicRemoteTime | .storeRealtimeRemoteTime | .loadNextQueueIndex => h.sent.length = n ∧ h.hint = n
  | .loadToReplace => h.sent.length = n ∧ h.hint = n ∧ p.hintSeen = n
  | .loadPreviousIndex | .storeMonotonicSentTime | .storeRealtimeSentTime | .loadMonotonicSentTime
  | .loadRealtimeSentTime | .storeScratchIndex | .storeQueueIndex | .storeToReplace | .exchange =>
    h.sent.length = n ∧ h.hint = n ∧ p.hintSeen = n ∧ h.due p.slot = p.dueSeen ∧ p.sentSeen = n
  | .advanceNextQueueIndex => h.sent.length = n + 1 ∧ h.hint = n ∧ p.hintSeen = n
  | .adoptScratch | .clearToReplace | .swapLoadQueueIndex | .invalidateQueueIndex | .idle =>
    h.sent.length = n + 1 ∧ h.hint = n + 1
  | .swapScan => h.sent.length = n + 1 ∧ h.hint = n + 1 ∧ p.wanted ≠ QueueIndex.invalid.index
  | _ => False

/-- An upper bound on the steps an undisturbed sender still takes. -/
def SenderProc.remaining (c : Configuration) (p : SenderProc) : Nat :=
  match p.pc with
  | .idle => 0
  | .swapScan => c.numPinners + 2 - p.scan + (36 - p.pc.ctorIdx) * (c.numPinners + 3)
  | pc => (36 - pc.ctorIdx) * (c.numPinners + 3)

/-- Nobody holds a pin and nobody wrote outside a buffer. -/
structure Quiet (c : Configuration) (s : State) : Prop where
  unpinned : ∀ q < c.numPinners, (s.memory.pinners q).pinned = QueueIndex.invalid.index
  clean : ∀ k < c.numMessages, (s.memory.messages k).redzonesCorrupt = false

section

variable (hmax : c.numMessages ≤ Index.maxMessages) (hsize : 0 < c.queueSize) (hsound : Sound c s)
  (hquiet : Quiet c s) (hi : i < c.numSenders)

include hmax hsize hsound hi

open SenderProc Configuration

theorem plausible_of_due (hpc : (s.sender i).pc = .loadToReplace)
    (hdue : s.history.due (s.sender i).slot % c.maxIndex = (s.sender i).hintSeen % c.maxIndex) :
    (s.memory.queue (s.sender i).slot).IsPlausible (s.sender i).decrementedQueueIndex := by
  have hagrees := (hsound.agree i hi).1
  simp only [SenderProc.Agrees, hpc] at hagrees
  obtain ⟨hactual, -⟩ := (hsound.numbered.senders i hi).hint (by rw [hpc]; decide)
  have hlt := queueSize_lt_maxIndex hmax hsize
  rw [isPlausible_iff hmax hsize hagrees.2.2 hactual, hsound.numbered.low _ (slot_lt hagrees.2.2 hsize)]
  rw [Nat.add_sub_assoc hlt.le, Nat.add_sub_assoc hlt.le, Nat.add_mod, hdue, ← Nat.add_mod]

theorem previous_of_due (hpc : (s.sender i).pc = .loadPreviousIndex)
    (hstill : s.history.due (s.sender i).slot = (s.sender i).dueSeen)
    (hdue : s.history.due (s.sender i).slot % c.maxIndex = (s.sender i).hintSeen % c.maxIndex) :
    ¬ ((s.memory.messages (s.sender i).toReplace.messageIndex).queueIndex ≠ (s.sender i).decrementedQueueIndex.index ∧
      (s.memory.messages (s.sender i).toReplace.messageIndex).queueIndex ≠ QueueIndex.invalid.index) := by
  have hagrees := (hsound.agree i hi).1
  have hcounts := hsound.numbered.senders i hi
  simp only [SenderProc.Agrees, hpc] at hagrees
  obtain ⟨-, -, hcount, -⟩ := hagrees
  obtain ⟨hactual, -⟩ := hcounts.hint (by rw [hpc]; decide)
  obtain ⟨-, -, hsame, -⟩ := hcounts.slot (by rw [hpc]; decide) (by rw [hpc]; decide)
  have hnumber := hsound.numbered.number _ (slot_lt hcount hsize)
  rw [hsame hstill] at hnumber
  rw [hsound.numbered.header, hnumber, decrementedQueueIndex_index hmax hsize hcount hactual]
  have hlt := queueSize_lt_maxIndex hmax hsize
  split
  · rename_i hle
    rintro ⟨hne, -⟩
    apply hne
    change (s.history.due (s.sender i).slot - c.queueSize) % c.maxIndex = _
    rw [← Nat.add_mod_right, ← Nat.sub_add_comm hle, Nat.add_sub_assoc hlt.le, Nat.add_sub_assoc hlt.le,
      Nat.add_mod, hdue, ← Nat.add_mod]
  · exact fun hne => hne.2 rfl

include hquiet

open QueueIndex

attribute [local simp] InOrder IndexNotReused NextNotReused NotLapped SenderProc.remaining SendPc.ctorIdx

theorem OnCourse.next (hcourse : (s.sender i).OnCourse n s.history) (hbusy : (s.sender i).pc ≠ .idle) :
    ∃ p w, senderNext c s i = some (p, w) ∧ p.OnCourse n (s.store c i w).history ∧
      p.remaining c < (s.sender i).remaining c ∧ InOrder c s (.sender i) := by
  have hagrees := (hsound.agree i hi).1
  have hcounts := hsound.numbered.senders i hi
  have hdue : ∀ hpc : .loadNextQueueIndex < (s.sender i).pc, (s.sender i).actual.count = c.queueSize →
      s.history.sent.length = (s.sender i).hintSeen → s.history.due (s.sender i).slot = (s.sender i).hintSeen := by
    intro hpc hcount hseen
    rw [slot_eq hmax hsize hcount (hcounts.hint hpc).1, ← hseen]
    exact hsound.numbered.ring.due_mod hsize
  cases hpc : (s.sender i).pc <;> simp only [SenderProc.OnCourse, hpc] at hcourse
  case idle => exact absurd hpc hbusy
  case checkRedzones =>
    have hclean := hquiet.clean _ (hsound.owned.lt (.hand ⟨i, hi⟩))
    simp only [State.owned, hagrees.hand_scratch (by rw [hpc]; decide) (by rw [hpc]; decide)] at hclean
    refine ⟨_, _, by simp only [senderNext, hpc, hclean]; rfl, ?_, ?_, ?_⟩
    · exact hcourse
    · simp [hpc]
    · simp [hpc]
  case loadNextQueueIndex =>
    refine ⟨_, _, by simp only [senderNext, hpc]; rfl, ?_, ?_, ?_⟩
    · exact ⟨hcourse.1, hcourse.2, hcourse.2⟩
    · simp [hpc]
    · simp [hpc]
  case loadToReplace =>
    simp only [SenderProc.Agrees, hpc] at hagrees
    obtain ⟨hsent, hhint, hseen⟩ := hcourse
    have hwaits := hdue (by rw [hpc]; decide) hagrees.2.2 (hsent.trans hseen.symm)
    have hcond := plausible_of_due hmax hsize hsound hi hpc (by rw [hwaits])
    refine ⟨_, _, by simp only [senderNext, hpc, if_neg hsize.ne', if_pos hcond]; rfl, ?_, ?_, ?_⟩
    · exact ⟨hsent, hhint, hseen, rfl, hsent⟩
    · simp [hpc]
    · simp [hpc]
  case loadPreviousIndex =>
    simp only [SenderProc.Agrees, hpc] at hagrees
    have hwaits := hdue (by rw [hpc]; decide) hagrees.2.2.1 (hcourse.1.trans hcourse.2.2.1.symm)
    have hcond := previous_of_due hmax hsize hsound hi hpc hcourse.2.2.2.1 (by rw [hwaits])
    refine ⟨_, _, by simp only [senderNext, hpc, if_neg hcond]; rfl, ?_, ?_, ?_⟩
    · exact hcourse
    · simp [hpc]
    · simp [hpc]
  case exchange =>
    obtain ⟨hsent, hhint, hseen, hstill, hsentSeen⟩ := hcourse
    obtain ⟨-, -, hsame, -⟩ := hcounts.slot (by rw [hpc]; decide) hpc.le
    have hlt := queueSize_lt_maxIndex hmax hsize
    refine ⟨_, _, by simp only [senderNext, hpc, if_pos (hsame hstill)]; rfl, ?_, ?_, ?_⟩
    · exact ⟨by simp [State.store, hsent], hhint, hseen⟩
    · simp [hpc]
    · refine ⟨by simp [IndexNotReused, hpc, hstill], by simp [NextNotReused, hpc], fun _ _ => ?_⟩
      omega
  case advanceNextQueueIndex =>
    obtain ⟨hsent, hhint, hseen⟩ := hcourse
    obtain ⟨hactual, -⟩ := hcounts.hint (by rw [hpc]; decide)
    have hsame : s.memory.nextQueueIndex = (s.sender i).actual.index := by
      rw [hsound.numbered.next, hactual, hhint, hseen]
    refine ⟨_, _, by simp only [senderNext, hpc, if_pos hsame]; rfl, ?_, ?_, ?_⟩
    · exact ⟨hsent, congrArg Nat.succ hhint⟩
    · simp [hpc]
    · exact ⟨by simp [IndexNotReused, hpc], fun _ _ => hhint.trans hseen.symm, by simp [NotLapped, hpc]⟩
  case swapLoadQueueIndex =>
    by_cases hinvalid : (s.memory.messages (s.sender i).toReplace.messageIndex).queueIndex = invalid.index
    · refine ⟨_, _, by simp only [senderNext, hpc, if_pos hinvalid]; rfl, ?_, ?_, ?_⟩
      · exact hcourse
      · simp [hpc]
      · simp [hpc]
    · refine ⟨_, _, by simp only [senderNext, hpc, if_neg hinvalid]; rfl, ?_, ?_, ?_⟩
      · exact ⟨hcourse.1, hcourse.2, hinvalid⟩
      · simp only [remaining, hpc, SendPc.ctorIdx]
        omega
      · simp [hpc]
  case swapScan =>
    obtain ⟨hsent, hhint, hwanted⟩ := hcourse
    by_cases hscan : (s.sender i).scan < c.numPinners
    · have hpinned : (s.memory.pinners (s.sender i).scan).pinned ≠ (s.sender i).wanted := by
        rw [hquiet.unpinned _ hscan]
        exact hwanted.symm
      refine ⟨_, _, by simp only [senderNext, hpc, if_pos hscan, if_neg hpinned]; rfl, ?_, ?_, ?_⟩
      · simpa only [SenderProc.OnCourse, hpc] using ⟨hsent, hhint, hwanted⟩
      · simp only [remaining, hpc]
        omega
      · simp [hpc]
    · refine ⟨_, _, by simp only [senderNext, hpc, if_neg hscan]; rfl, ?_, ?_, ?_⟩
      · exact ⟨hsent, hhint⟩
      · simp only [remaining, hpc, SendPc.ctorIdx]
        omega
      · simp [hpc]
  -- The remaining steps of the source take no decision.
  all_goals
    refine ⟨_, _, by simp only [senderNext, hpc]; rfl, ?_, ?_, ?_⟩
    · exact hcourse
    · simp [hpc]
    · simp [hpc]

end

theorem Quiet.sender {p : SenderProc} {w : Write} (h : Quiet c s) (hnext : senderNext c s i = some (p, w)) :
    Quiet c ((s.store c i w).setSender i p) := by
  refine ⟨fun q hq => by simpa using h.unpinned q hq, fun k hlt => ?_⟩
  cases w with
  | field k' store =>
    obtain ⟨-, hstore, -⟩ := senderNext_field hnext
    by_cases hk : k = k'
    · subst hk
      simpa [Write.onMessages, (hstore _).2] using h.clean k hlt
    · simpa [Write.onMessages, hk] using h.clean k hlt
  | queueIndex k' value =>
    by_cases hk : k = k'
    · subst hk
      simpa [Write.onMessages] using h.clean k hlt
    · simpa [Write.onMessages, hk] using h.clean k hlt
  | _ => exact h.clean k hlt

/-- All but sender `i` are where they were. -/
structure SameElse (i : Nat) (s s' : State) : Prop where
  sender : ∀ k ≠ i, s'.sender k = s.sender k
  slot : ∀ k ≠ i, s'.memory.senders k = s.memory.senders k
  reader : s'.reader = s.reader

theorem SameElse.refl (i : Nat) (s : State) : SameElse i s s := ⟨fun _ _ => rfl, fun _ _ => rfl, rfl⟩

theorem SameElse.trans {s'' : State} (h : SameElse i s s') (h' : SameElse i s' s'') : SameElse i s s'' :=
  ⟨fun k hk => (h'.sender k hk).trans (h.sender k hk), fun k hk => (h'.slot k hk).trans (h.slot k hk),
    h'.reader.trans h.reader⟩

theorem SameElse.step (p : SenderProc) (w : Write) : SameElse i s ((s.store c i w).setSender i p) :=
  ⟨fun k hk => by simp [hk], fun k hk => by simp [hk], by simp⟩

/-- Sender `i` may call `Send` and everything is up to date. -/
structure Ready (c : Configuration) (i : Nat) (s : State) : Prop where
  sound : Sound c s
  quiet : Quiet c s
  idle : (s.sender i).pc = .idle
  held : (s.memory.senders i).tid = .held
  current : s.history.hint = s.history.sent.length

section

variable (hmax : c.numMessages ≤ Index.maxMessages) (hsize : 0 < c.queueSize) (hi : i < c.numSenders)

include hmax hsize hi

private theorem OnCourse.completes (hsound : Sound c s) (hquiet : Quiet c s)
    (hheld : (s.memory.senders i).tid = .held) (hcourse : (s.sender i).OnCourse n s.history) :
    ∃ s', Run c (InOrder c) s s' ∧ Ready c i s' ∧ s'.history.sent.length = n + 1 ∧ SameElse i s s' := by
  induction hfuel : (s.sender i).remaining c using Nat.strong_induction_on generalizing s with
  | _ fuel ih =>
    by_cases hidle : (s.sender i).pc = .idle
    · simp only [SenderProc.OnCourse, hidle] at hcourse
      exact ⟨s, .refl, ⟨hsound, hquiet, hidle, hheld, by omega⟩, hcourse.1, .refl i s⟩
    · obtain ⟨p, w, hnext, hcourse', hless, hok⟩ := next hmax hsize hsound hquiet hi hcourse hidle
      have hstep : step c s (.sender i) = some ((s.store c i w).setSender i p) := by
        simp [step, hi, hheld, senderStep, hnext]
      obtain ⟨s', hrun, hready, hlen, hsame⟩ := ih (p.remaining c) (hfuel ▸ hless) (hsound.step hmax hok hstep)
        (hquiet.sender hnext) (by simpa using hheld) (by simpa using hcourse') (by simp)
      exact ⟨s', (Transition.Run.single _ hok hstep).trans hrun, hready, hlen, (SameElse.step p w).trans hsame⟩

theorem undisturbed_send_completes (h : Ready c i s) (args : SendArgs) (hargs : args.length ≤ c.messageDataSize) :
    ∃ s', Run c (InOrder c) s s' ∧ Ready c i s' ∧ s'.history.sent.length = s.history.sent.length + 1 ∧
      SameElse i s s' := by
  obtain ⟨s1, hstep, hsame, hhistory, hmemory, hpc⟩ : ∃ s1, step c s (.send i args) = some s1 ∧ SameElse i s s1 ∧
      s1.history = s.history ∧ s1.memory = s.memory ∧ (s1.sender i).pc = .loadScratch := by
    have houtside : (s.sender i).pc.Outside := .inl h.idle
    refine ⟨_, by simp only [step, hi, h.held, hargs, houtside, and_self, if_true]; rfl, ?_, ?_, ?_, ?_⟩
    · exact ⟨fun k hk => by simp [hk], fun _ _ => rfl, rfl⟩
    · rfl
    · rfl
    · simp
  have hok : InOrder c s (.send i args) := ⟨trivial, trivial, trivial⟩
  have hcourse : (s1.sender i).OnCourse s.history.sent.length s1.history := by
    simp [SenderProc.OnCourse, hpc, hhistory, h.current, and_self]
  obtain ⟨s', hrun, hready, hlen, hsame'⟩ := OnCourse.completes hmax hsize hi (h.sound.step hmax hok hstep)
    ⟨hmemory ▸ h.quiet.unpinned, hmemory ▸ h.quiet.clean⟩ (hmemory ▸ h.held) hcourse
  exact ⟨s', (Transition.Run.single _ hok hstep).trans hrun, hready, hlen, hsame.trans hsame'⟩

theorem undisturbed_sends_complete (h : Ready c i s) (count : Nat) :
    ∃ s', Run c (InOrder c) s s' ∧ Ready c i s' ∧ s'.history.sent.length = s.history.sent.length + count ∧
      SameElse i s s' := by
  induction count with
  | zero => exact ⟨s, .refl, h, rfl, .refl i s⟩
  | succ count ih =>
    obtain ⟨s1, hrun, hready, hlen, hsame⟩ := ih
    obtain ⟨s', hrun', hready', hlen', hsame'⟩ := undisturbed_send_completes hmax hsize hi hready
      ⟨0, 0, 0, 0, Vector.replicate 16 0⟩ (Nat.zero_le _)
    exact ⟨s', hrun.trans hrun', hready', by omega, hsame.trans hsame'⟩

end

/-- A sender with the number `n` whose slot has come to wait for the number one round of queue indices
later. -/
def SenderProc.Lapped (c : Configuration) (n : Nat) (h : History) (p : SenderProc) : Prop :=
  match p.pc with
  | .loadToReplace => p.hintSeen = n ∧ h.due p.slot = n + c.maxIndex
  | .loadPreviousIndex | .storeMonotonicSentTime | .storeRealtimeSentTime | .loadMonotonicSentTime
  | .loadRealtimeSentTime | .storeScratchIndex | .storeQueueIndex | .storeToReplace | .exchange =>
    p.hintSeen = n ∧ h.due p.slot = n + c.maxIndex ∧ p.dueSeen = n + c.maxIndex
  | _ => False

section

variable (hmax : c.numMessages ≤ Index.maxMessages) (hsize : 0 < c.queueSize) (hsound : Sound c s)
  (hi : i < c.numSenders)

include hmax hsize hsound hi

attribute [local simp] InOrder IndexNotReused NextNotReused NotLapped SenderProc.remaining SendPc.ctorIdx in
theorem Lapped.next (hlapped : (s.sender i).Lapped c n s.history) (hpc : (s.sender i).pc ≠ .exchange) :
    ∃ p w, senderNext c s i = some (p, w) ∧ p.Lapped c n (s.store c i w).history ∧
      (s.store c i w).history.sent = s.history.sent ∧ p.remaining c < (s.sender i).remaining c ∧
      InOrder c s (.sender i) := by
  cases heq : (s.sender i).pc <;> simp only [SenderProc.Lapped, heq] at hlapped
  case exchange => exact absurd heq hpc
  case loadToReplace =>
    have hcond := plausible_of_due hmax hsize hsound hi heq (by rw [hlapped.1, hlapped.2, Nat.add_mod_right])
    refine ⟨_, _, by simp only [senderNext, heq, if_neg hsize.ne', if_pos hcond]; rfl, ?_, rfl, ?_, ?_⟩
    · exact ⟨hlapped.1, hlapped.2, hlapped.2⟩
    · simp [heq]
    · simp [heq]
  case loadPreviousIndex =>
    have hcond := previous_of_due hmax hsize hsound hi heq (hlapped.2.1.trans hlapped.2.2.symm)
      (by rw [hlapped.1, hlapped.2.1, Nat.add_mod_right])
    refine ⟨_, _, by simp only [senderNext, heq, if_neg hcond]; rfl, ?_, rfl, ?_, ?_⟩
    · exact hlapped
    · simp [heq]
    · simp [heq]
  all_goals
    refine ⟨_, _, by simp only [senderNext, heq]; rfl, ?_, rfl, ?_, ?_⟩
    · exact hlapped
    · simp [heq]
    · simp [heq]

theorem Lapped.exchanges (hheld : (s.memory.senders i).tid = .held) (hlapped : (s.sender i).Lapped c n s.history) :
    ∃ s' r, Run c IndexNotReused s s' ∧ s'.history.sent = s.history.sent ++ [r] ∧ r.queueIndex = n % c.maxIndex ∧
      (s'.memory.messages (s'.memory.queue (n % c.queueSize)).messageIndex).queueIndex = n % c.maxIndex ∧
      s'.reader = s.reader := by
  induction hfuel : (s.sender i).remaining c using Nat.strong_induction_on generalizing s with
  | _ fuel ih =>
    by_cases hpc : (s.sender i).pc = .exchange
    · have hagrees := (hsound.agree i hi).1
      have hcounts := hsound.numbered.senders i hi
      have hstamp := hcounts.stamped (by rw [hpc]; decide) hpc.le
      rw [hagrees.hand_scratch (by rw [hpc]; decide) (by rw [hpc]; decide)] at hstamp
      obtain ⟨hactual, -⟩ := hcounts.hint (by rw [hpc]; decide)
      obtain ⟨-, -, hsame, -⟩ := hcounts.slot (by rw [hpc]; decide) hpc.le
      simp only [SenderProc.Lapped, hpc] at hlapped
      obtain ⟨hseen, hdue, hdueSeen⟩ := hlapped
      simp only [SenderProc.Agrees, hpc] at hagrees
      have hslot := SenderProc.slot_eq hmax hsize hagrees.2.2.1 hactual
      rw [hseen] at hslot hactual hstamp
      have hstill := hdue.trans hdueSeen.symm
      have hstep : step c s (.sender i) = some ((s.store c i (.slot (s.sender i).slot (s.sender i).indexToWrite)).setSender i
          { s.sender i with pc := .advanceNextQueueIndex }) := by
        simp [step, hi, hheld, senderStep, senderNext, hpc, hsame hstill]
      refine ⟨_, _, Transition.Run.single (.sender i) ⟨fun _ _ => hstill, by simp [hpc]⟩ hstep, rfl, ?_, ?_, by simp⟩
      · exact SenderProc.nextQueueIndex_index hmax hsize hactual
      · rw [← hslot]
        simp only [State.setSender_memory, store_queue, store_messages, Write.onQueue, Write.onMessages, Function.update_self,
          SenderProc.messageIndex_indexToWrite, hsound.numbered.header, hstamp]
        rfl
    · obtain ⟨p, w, hnext, hlapped', hsent, hless, hok⟩ := next hmax hsize hsound hi hlapped hpc
      have hstep : step c s (.sender i) = some ((s.store c i w).setSender i p) := by
        simp [step, hi, hheld, senderStep, hnext]
      obtain ⟨s', r, hrun, hsent', hr, hheader, hreader⟩ := ih (p.remaining c) (hfuel ▸ hless) (hsound.step hmax hok hstep)
        (by simpa using hheld) (by simpa using hlapped') (by simp)
      refine ⟨s', r, (Transition.Run.single _ hok.1 hstep).trans hrun, ?_, hr, hheader, by simpa using hreader⟩
      rw [hsent', State.setSender_history, hsent]

end

/-! ### A read that nobody disturbs -/

def ReaderProc.Finds (m : Memory) (p : ReaderProc) : Prop :=
  (m.messages p.message).queueIndex = p.queueIndex.index ∧
    match p.pc with
    | .idle | .loadIndex | .reloadMessage => False
    | .done => p.result = .good
    | _ => True

/-- An upper bound on the steps the reader still takes. -/
def ReaderProc.remaining (c : Configuration) (p : ReaderProc) : Nat :=
  match p.pc with
  | .done => 0
  | .readData => c.messageDataSize - p.copied + (14 - p.pc.ctorIdx) * (c.messageDataSize + 1)
  | pc => (14 - pc.ctorIdx) * (c.messageDataSize + 1)

attribute [local simp] ReaderProc.remaining ReadPc.ctorIdx in
theorem ReaderProc.Finds.next {p : ReaderProc} (h : p.Finds s.memory) (hpc : p.pc ≠ .done) :
    ∃ p', readerNext c s p = some p' ∧ p'.Finds s.memory ∧ p'.remaining c < p.remaining c ∧
      p'.request = p.request ∧ p'.startedAt = p.startedAt := by
  obtain ⟨hheader, hplace⟩ := h
  cases heq : p.pc <;> simp only [heq] at hplace
  case done => exact absurd heq hpc
  case loadStartingQueueIndex =>
    refine ⟨_, by simp only [readerNext, heq, hheader, ne_eq, not_true_eq_false, if_false]; rfl, ?_, ?_, ?_⟩
    · exact ⟨hheader, trivial⟩
    · simp [heq]
    · exact ⟨rfl, rfl⟩
  case testRemoteQueueIndex =>
    by_cases hremote : (s.memory.messages p.message).remoteQueueIndex = 0xffffffff
    · refine ⟨_, by simp only [readerNext, heq, if_pos hremote]; rfl, ?_, ?_, ?_⟩
      · exact ⟨hheader, trivial⟩
      · simp [heq]
      · exact ⟨rfl, rfl⟩
    · refine ⟨_, by simp only [readerNext, heq, if_neg hremote]; rfl, ?_, ?_, ?_⟩
      · exact ⟨hheader, trivial⟩
      · simp [heq]
      · exact ⟨rfl, rfl⟩
  case readSourceBootUuid =>
    cases hwant : p.wantData
    · refine ⟨_, by simp only [readerNext, heq, hwant, Bool.false_eq_true, if_false]; rfl, ?_, ?_, ?_⟩
      · exact ⟨hheader, trivial⟩
      · simp [heq]
      · exact ⟨rfl, rfl⟩
    · refine ⟨_, by simp only [readerNext, heq, hwant, if_true]; rfl, ?_, ?_, ?_⟩
      · exact ⟨hheader, trivial⟩
      · simp only [remaining, heq, ReadPc.ctorIdx]
        omega
      · exact ⟨rfl, rfl⟩
  case readData =>
    by_cases hcopied : p.copied < c.messageDataSize
    · refine ⟨_, by simp only [readerNext, heq, if_pos hcopied]; rfl, ?_, ?_, ?_⟩
      · exact ⟨hheader, by simp only⟩
      · simp only [remaining, heq]
        omega
      · exact ⟨rfl, rfl⟩
    · refine ⟨_, by simp only [readerNext, heq, if_neg hcopied]; rfl, ?_, ?_, ?_⟩
      · exact ⟨hheader, trivial⟩
      · simp only [remaining, heq, ReadPc.ctorIdx]
        omega
      · exact ⟨rfl, rfl⟩
  case loadFinalQueueIndex =>
    refine ⟨_, by simp only [readerNext, heq, hheader, ne_eq, not_true_eq_false, if_false]; rfl, ?_, ?_, ?_⟩
    · exact ⟨hheader, rfl⟩
    · simp [heq]
    · exact ⟨rfl, rfl⟩
  all_goals
    refine ⟨_, by simp only [readerNext, heq]; rfl, ?_, ?_, ?_⟩
    · exact ⟨hheader, trivial⟩
    · simp [heq]
    · exact ⟨rfl, rfl⟩

private theorem ReaderProc.Finds.completes (h : (s.reader i).Finds s.memory) :
    ∃ s', Run c IndexNotReused s s' ∧ (s'.reader i).pc = .done ∧ (s'.reader i).result = .good ∧
      (s'.reader i).request = (s.reader i).request ∧ (s'.reader i).startedAt = (s.reader i).startedAt ∧
      s'.history = s.history := by
  induction hfuel : (s.reader i).remaining c using Nat.strong_induction_on generalizing s with
  | _ fuel ih =>
    by_cases hdone : (s.reader i).pc = .done
    · obtain ⟨-, hplace⟩ := h
      simp only [hdone] at hplace
      exact ⟨s, .refl, hdone, hplace, rfl, rfl, rfl⟩
    · obtain ⟨p, hnext, hfinds, hless, hrequest, hstarted⟩ := h.next (c := c) hdone
      have hstep : step c s (.reader i) = some (s.setReader i p) := by simp [step, hnext]
      obtain ⟨s', hrun, hpc, hgood, hrequest', hstarted', hhistory⟩ := ih (p.remaining c) (hfuel ▸ hless)
        (s := s.setReader i p) (by simpa using hfinds) (by simp)
      refine ⟨s', (Transition.Run.single (.reader i) trivial hstep).trans hrun, hpc, hgood, ?_, ?_, hhistory⟩
      · simpa [hrequest] using hrequest'
      · simpa [hstarted] using hstarted'

theorem undisturbed_read_completes (hmax : c.Indexable) (hsize : 0 < c.queueSize) {q : Nat}
    (hword : q < 2 ^ 32) (wantData : Bool) (hidle : (s.reader i).pc = .idle)
    (hheader : (s.memory.messages (s.memory.queue (q % c.queueSize)).messageIndex).queueIndex = q % c.maxIndex) :
    ∃ s', Run c IndexNotReused s s' ∧ (s'.reader i).pc = .done ∧ (s'.reader i).result = .good ∧
      (s'.reader i).request = q ∧ (s'.reader i).startedAt = s.history.sent.length ∧ s'.history = s.history := by
  have hindex : ((QueueIndex.zero c.queueSize).incrementBy q).index = q % c.maxIndex := by
    have hincrement := Configuration.incrementBy_index hword (Configuration.maxIndex_pos hmax hsize)
    rwa [Nat.zero_add] at hincrement
  have hwrapped : ((QueueIndex.zero c.queueSize).incrementBy q).wrapped = q % c.queueSize := by
    rw [QueueIndex.wrapped, hindex, QueueIndex.incrementBy_count]
    exact Nat.mod_mod_of_dvd _ Configuration.queueSize_dvd_maxIndex
  obtain ⟨s1, hcall, hreader, hmemory, hhistory⟩ : ∃ s1, step c s (.read i q wantData) = some s1 ∧
      s1.reader i = { s.reader i with
        request := q
        wantData := wantData
        queueIndex := (QueueIndex.zero c.queueSize).incrementBy q
        startedAt := s.history.sent.length
        pc := .loadIndex } ∧ s1.memory = s.memory ∧ s1.history = s.history := by
    refine ⟨_, by simp only [step, hword, hsize, hidle, true_or, and_self, if_true]; rfl, ?_, ?_, ?_⟩
    · simp
    · rfl
    · rfl
  obtain ⟨s2, hload, hfinds, hreader2, hhistory2⟩ : ∃ s2, step c s1 (.reader i) = some s2 ∧
      (s2.reader i).Finds s2.memory ∧
      ((s2.reader i).request = q ∧ (s2.reader i).startedAt = s.history.sent.length) ∧ s2.history = s.history := by
    refine ⟨_, by simp only [step, readerNext, hreader]; rfl, ?_, ?_, ?_⟩
    · simp only [State.setReader_reader, State.setReader_memory, Function.update_self, hmemory]
      refine ⟨?_, trivial⟩
      rw [hwrapped, hheader, hindex]
    · simp
    · exact hhistory
  obtain ⟨s', hrun, hpc, hgood, hrequest, hstarted, hhistory'⟩ := ReaderProc.Finds.completes (c := c) hfinds
  refine ⟨s', ((Transition.Run.single _ trivial hcall).trans (.single _ trivial hload)).trans hrun, hpc, hgood, ?_, ?_,
    hhistory'.trans hhistory2⟩
  · rw [hrequest, hreader2.1]
  · rw [hstarted, hreader2.2]

end RobotCode.IpcLib
