import RobotCode.IpcLib.Progress

/-!
# Messages are numbered in the order they were sent

The exchanges into the queue carry the queue indices in order, the counter follows them and the times
do not go backwards. All of this rests on nobody being lapped: `lapped_run` and `passed_run` are what a
sender can do that slept through a whole round of queue indices.
-/

namespace RobotCode.IpcLib

open List Function State Transition.Run

variable {c : Configuration} {s s' : State} {i : Nat}

/-! ### Times -/

/-- A sender samples the clock after it saw the counter, so its message is not older than any message
with a smaller number. -/
structure Timed (c : Configuration) (s : State) : Prop where
  past : ∀ r ∈ s.history.sent, r.message.monotonicSentTime ≤ s.monotonicNow
  sorted : s.history.sent.Pairwise fun r r' => r.message.monotonicSentTime ≤ r'.message.monotonicSentTime
  sampled : ∀ i < c.numSenders, .storeMonotonicSentTime < (s.sender i).pc → (s.sender i).pc ≤ .exchange →
    (s.memory.messages (s.hand i).messageIndex).monotonicSentTime ≤ s.monotonicNow ∧
      ∀ n < (s.sender i).hintSeen, ∀ r, s.history.sent[n]? = some r →
        r.message.monotonicSentTime ≤ (s.memory.messages (s.hand i).messageIndex).monotonicSentTime

variable {p : SenderProc}

theorem senderNext_sampled {w : Write} (hagrees : (s.sender i).Agrees c (s.memory.senders i))
    (hnext : senderNext c s i = some (p, w)) (hpc : .storeMonotonicSentTime < p.pc) (hpc' : p.pc ≤ .exchange) :
    p.hintSeen = (s.sender i).hintSeen ∧ (∀ j value, w ≠ .slot j value) ∧ ((s.sender i).pc = .storeMonotonicSentTime ∧
          (w.onMessages s.memory.messages (s.hand i).messageIndex).monotonicSentTime = s.monotonicNow ∨
        .storeMonotonicSentTime < (s.sender i).pc ∧ (s.sender i).pc ≤ .exchange ∧
          (w.onMessages s.memory.messages (s.hand i).messageIndex).monotonicSentTime =
            (s.memory.messages (s.hand i).messageIndex).monotonicSentTime) := by
  have hhand : .storeMonotonicSentTime ≤ (s.sender i).pc → (s.sender i).pc ≤ .exchange →
      (s.hand i).messageIndex = (s.sender i).scratch.messageIndex := fun h1 h2 =>
    hagrees.hand_scratch (lt_of_lt_of_le (by decide) h1) (h2.trans (by decide))
  cases heq : (s.sender i).pc <;> simp only [senderNext, heq] at hnext
  all_goals
    repeat' split at hnext
    all_goals cases hnext <;> first
      | exact absurd hpc (by dsimp only; decide)
      | exact absurd hpc' (by dsimp only; decide)
      | (rw [hhand (by rw [heq] <;> decide) (by rw [heq]; decide)]
         simp +decide [Write.onMessages])

theorem timed_initial : Timed c (initialState c) where
  past _ hr := nomatch hr
  sorted := .nil
  sampled _ _ hpc := absurd (show SendPc.storeMonotonicSentTime < SendPc.idle from hpc) (by decide)

theorem Timed.congr (h : Timed c s) (hsent : s'.history.sent = s.history.sent)
    (hnow : s.monotonicNow ≤ s'.monotonicNow)
    (hsampled : ∀ i < c.numSenders, .storeMonotonicSentTime < (s'.sender i).pc → (s'.sender i).pc ≤ .exchange →
      .storeMonotonicSentTime < (s.sender i).pc ∧ (s.sender i).pc ≤ .exchange ∧
        (s'.sender i).hintSeen = (s.sender i).hintSeen ∧
        (s'.memory.messages (s'.hand i).messageIndex).monotonicSentTime =
          (s.memory.messages (s.hand i).messageIndex).monotonicSentTime) : Timed c s' where
  past r hr := (h.past r (hsent ▸ hr)).trans hnow
  sorted := hsent ▸ h.sorted
  sampled i hi hpc hpc' := by
    obtain ⟨h1, h2, hseen, htime⟩ := hsampled i hi hpc hpc'
    obtain ⟨hle, hall⟩ := h.sampled i hi h1 h2
    rw [hsent, hseen, htime]
    exact ⟨hle.trans hnow, hall⟩

theorem Timed.sender {w : Write} (h : Timed c s) (hsound : Sound c s) (hi : i < c.numSenders)
    (hnext : senderNext c s i = some (p, w)) (hw : ∀ j value, w ≠ .slot j value) :
    Timed c ((s.store c i w).setSender i p) := by
  have hagrees := (hsound.agree i hi).1
  have hsent : ((s.store c i w).setSender i p).history.sent = s.history.sent := by
    cases w with
    | slot j value => exact absurd rfl (hw j value)
    | _ => rfl
  refine ⟨?_, ?_, fun k hk hpc hpc' => ?_⟩
  · rw [hsent]
    simpa [setSender] using h.past
  · rw [hsent]
    exact h.sorted
  by_cases hki : k = i
  · subst hki
    simp only [setSender_sender, update_self] at hpc hpc' ⊢
    obtain ⟨hseen, -, hcase⟩ := senderNext_sampled hagrees hnext hpc hpc'
    have hhand : (((s.store c k w).setSender k p).hand k).messageIndex = (s.hand k).messageIndex := by
      rw [hand_store_self]
      have htrade := senderNext_trades hagrees hnext
      cases w with
      | slot j value => exact absurd rfl (hw j value)
      | pinnerScratch q value =>
        obtain ⟨-, -, -, -, rfl⟩ := senderNext_pinnerScratch hnext
        exact absurd hpc' (by dsimp only; decide)
      | _ => exact htrade
    rw [hsent, hhand, hseen, setSender_memory, store_messages]
    change _ ≤ (s.store c k w).monotonicNow ∧ _
    rw [store_monotonicNow]
    rcases hcase with ⟨-, htime⟩ | ⟨h1, h2, htime⟩
    · rw [htime]
      exact ⟨le_rfl, fun n _ r hr => h.past r (mem_of_getElem? hr)⟩
    · rw [htime]
      exact h.sampled k hk h1 h2
  · have hmessage := senderNext_messages_of_ne hagrees hnext (hsound.owned.hand_ne_hand hi hk hki)
    rw [hsent, hand_store_of_ne hki, setSender_memory, store_messages, hmessage]
    simp only [setSender_sender, update_of_ne hki, store_sender] at hpc hpc' ⊢
    simpa [setSender] using h.sampled k hk hpc hpc'

theorem Timed.exchange {j : Nat} {value : Index} (h : Timed c s) (hsound : Sound c s)
    (hi : i < c.numSenders) (hnext : senderNext c s i = some (p, .slot j value))
    (hok : InOrder c s (.sender i)) : Timed c ((s.store c i (.slot j value)).setSender i p) := by
  have hagrees := (hsound.agree i hi).1
  obtain ⟨hpc, rfl, rfl, hsame, rfl⟩ := senderNext_slot hnext
  obtain ⟨hhint, hseen, -⟩ := hsound.numbered.exchange_number hi hagrees hpc hsame hok.1 hok.2.2
  obtain ⟨hnow, hall⟩ := h.sampled i hi (by rw [hpc]; decide) hpc.le
  rw [hagrees.hand_scratch (by rw [hpc]; decide) (by rw [hpc]; decide)] at hnow hall
  refine ⟨forall_mem_append.mpr ⟨h.past, forall_mem_singleton.mpr hnow⟩, ?_, fun k hk hlate hearly => ?_⟩
  · refine pairwise_append.mpr ⟨h.sorted, pairwise_singleton _ _, fun r hr => forall_mem_singleton.mpr ?_⟩
    obtain ⟨n, hn⟩ := mem_iff_getElem?.mp hr
    exact hall n (hseen ▸ (List.getElem?_eq_some_iff.mp hn).1) r hn
  · by_cases hki : k = i
    · subst hki
      simp only [setSender_sender, update_self] at hearly
      exact absurd hearly (by decide)
    · rw [hand_store_of_ne hki]
      simp only [setSender_sender, update_of_ne hki, store_sender] at hlate hearly ⊢
      obtain ⟨hnow', hall'⟩ := h.sampled k hk hlate hearly
      refine ⟨hnow', fun n hn r hr => hall' n hn r ?_⟩
      have hle := ((hsound.numbered.senders k hk).hint (lt_trans (by decide) hlate)).2
      have hlt : n < s.history.sent.length := by omega
      exact (getElem?_append_left hlt).symm.trans hr

theorem Timed.step {a : Action} (h : Timed c s) (hsound : Sound c s) (hok : InOrder c s a)
    (hstep : step c s a = some s') : Timed c s' := by
  cases step_move hstep with
  | sender i p w ha hi hheld hnext =>
    subst ha
    cases w with
    | slot j value => exact h.exchange hsound hi hnext hok
    | _ => exact h.sender hsound hi hnext (by simp)
  | fill i offset byte hi hheld hpc =>
    refine h.congr rfl le_rfl fun k hk hlate hearly => ⟨hlate, hearly, rfl, ?_⟩
    change (update s.memory.messages (s.sender i).data _ (s.hand k).messageIndex).monotonicSentTime = _
    by_cases hdata : (s.hand k).messageIndex = (s.sender i).data
    · rw [hdata, update_self]
    · rw [update_of_ne hdata]
  | enter i t p hi hold hnew htid hdied =>
    have hpc : (s.sender i).pc.Outside := hold.elim id fun ht => .inl ((hsound.agree i hi).2 ht)
    refine h.congr rfl le_rfl fun k hk hlate hearly => ?_
    by_cases hki : k = i
    · subst hki
      simp only [setSender_sender, update_self] at hlate
      rcases hnew with hnew | ⟨hnew, -⟩ | ⟨hnew, -⟩ <;> exact absurd (hnew ▸ hlate) (by decide)
    · have hhand : ((s.setTid i t).setSender i p).hand k = s.hand k := by simp [hand, hki]
      rw [hhand]
      simp only [setSender_sender, update_of_ne hki] at hlate hearly ⊢
      exact ⟨hlate, hearly, rfl, rfl⟩
  | kill i hi hheld =>
    refine h.congr rfl le_rfl fun k hk hlate hearly => ⟨hlate, hearly, rfl, ?_⟩
    rw [hand_kill]
    rfl
  | pinner | read | reader => exact h.congr rfl le_rfl fun k hk hlate hearly => ⟨hlate, hearly, rfl, rfl⟩
  | clock now realtime hnow => exact h.congr rfl hnow fun k hk hlate hearly => ⟨hlate, hearly, rfl, rfl⟩
  | overrun k' =>
    refine h.congr rfl le_rfl fun k hk hlate hearly => ⟨hlate, hearly, rfl, ?_⟩
    change (update s.memory.messages k' _ (s.hand k).messageIndex).monotonicSentTime = _
    by_cases hk' : (s.hand k).messageIndex = k'
    · rw [hk', update_self]
    · rw [update_of_ne hk']

theorem Run.timed (hmax : c.Indexable) (h : Run c (InOrder c) (initialState c) s) : Timed c s :=
  h.invariant_of_run (fun _ _ _ hrun hu hok hstep => hu.step (sound hmax hrun) hok hstep) timed_initial

theorem step_hint_le {a : Action} (hstep : step c s a = some s') : s.history.hint ≤ s'.history.hint := by
  cases step_move hstep with
  | sender i p w ha hi hheld hnext =>
    cases w with
    | nextQueueIndex value => exact Nat.le_succ _
    | _ => exact le_rfl
  | _ => exact le_rfl

/-- The exchanges into the queue carry the queue indices in order and times that do not decrease, and the counter goes
through the same indices without passing the next one to be sent. -/
theorem sends_totally_ordered (hmax : c.numMessages ≤ Index.maxMessages)
    (hrun : Run c (InOrder c) (initialState c) s) (hlater : Run c (InOrder c) s s') :
    s.history.sent <+: s'.history.sent ∧
    (∀ n r, s'.history.sent[n]? = some r → r.queueIndex = n % c.maxIndex) ∧
    s'.history.sent.Pairwise (fun r r' => r.message.monotonicSentTime ≤ r'.message.monotonicSentTime) ∧
    ∃ k k', s.memory.nextQueueIndex = hintIndex c k ∧ s'.memory.nextQueueIndex = hintIndex c k' ∧ k ≤ k' ∧
      s.history.sent.length ≤ k + 1 ∧ k ≤ s.history.sent.length ∧
      s'.history.sent.length ≤ k' + 1 ∧ k' ≤ s'.history.sent.length := by
  have hrun' := hrun.trans hlater
  have hsound := Run.sound hmax hrun
  have hsound' := Run.sound hmax hrun'
  refine ⟨Run.extends_sent hlater, fun n r hr => (hsound'.numbered.records n r hr).1, (Run.timed hmax hrun').sorted,
    s.history.hint, s'.history.hint, hsound.numbered.next, hsound'.numbered.next, ?_, hsound.numbered.le_hint,
    hsound.numbered.hint_le, hsound'.numbered.le_hint, hsound'.numbered.hint_le⟩
  exact hlater.invariant (P := fun u => s.history.hint ≤ u.history.hint)
    (fun _ _ _ hu _ hstep => hu.trans (step_hint_le hstep)) le_rfl

def threeSlots : Configuration := ⟨2, 0, 3, 8⟩

/-- The second sender loads the counter before the first one has moved it on, and has to try again. -/
private def plainArgs : SendArgs := ⟨8, 0, 0, 0, Vector.replicate 16 0⟩

theorem sends_totally_ordered_two : ∃ s : State, s.history.sent.map (·.queueIndex) = [0, 1] ∧
    (∀ n r, s.history.sent[n]? = some r → r.queueIndex = n % threeSlots.maxIndex) ∧
    s.history.sent.Pairwise fun r r' => r.message.monotonicSentTime ≤ r'.message.monotonicSentTime := by
  have hexec : ∃ s, Run threeSlots (InOrder threeSlots) (initialState threeSlots) s ∧
      s.history.sent.map (·.queueIndex) = [0, 1] :=
    exists_of_exec ([.makeSender 0, .makeSender 1, .send 0 plainArgs, .send 1 plainArgs] ++
      replicate 18 (.sender 0) ++ [.tick 5] ++ replicate 21 (.sender 1)) (by decide +kernel)
  obtain ⟨s, hrun, hindices⟩ := hexec
  obtain ⟨-, hrecords, hsorted, -⟩ := sends_totally_ordered (by decide) hrun .refl
  exact ⟨s, hindices, hrecords, hsorted⟩

theorem threeSlots_maxIndex : threeSlots.maxIndex = 4294967295 := by decide

private theorem threeSlots_fits : threeSlots.numMessages ≤ Index.maxMessages := by decide

private theorem ready_of_run (hrun : Run threeSlots (InOrder threeSlots) (initialState threeSlots) s)
    (hidle : (s.sender 1).pc = .idle) (hheld : (s.memory.senders 1).tid = .held)
    (hcurrent : s.history.hint = s.history.sent.length)
    (hclean : ∀ k < 5, (s.memory.messages k).redzonesCorrupt = false) : Ready threeSlots 1 s :=
  ⟨Run.sound threeSlots_fits hrun, ⟨fun q hq => absurd hq (Nat.not_lt_zero q), hclean⟩, hidle, hheld, hcurrent⟩

/-- Sender 0 loads the counter, sleeps while sender 1 sends all but two of the queue indices, and then sends with the index it
loaded. Every compare-exchange is of an `Index` that never left its place. -/
theorem lapped_run : ∃ s first last, Run threeSlots IndexNotReused (initialState threeSlots) s ∧
    s.history.sent.length = 4294967294 ∧ s.history.sent[0]? = some first ∧ first.queueIndex = 0 ∧
    s.history.sent[4294967293]? = some last ∧ last.queueIndex = 0 ∧
    (s.memory.messages (s.memory.queue 0).messageIndex).queueIndex = 0 ∧ (s.reader 0).pc = .idle := by
  have hprefix : ∃ s, Run threeSlots (InOrder threeSlots) (initialState threeSlots) s ∧
      ((s.sender 0).pc = .loadToReplace ∧ (s.sender 0).hintSeen = 0 ∧ (s.memory.senders 0).tid = .held) ∧
      ((s.sender 1).pc = .idle ∧ (s.memory.senders 1).tid = .held) ∧
      s.history.sent.length = 0 ∧ s.history.hint = 0 ∧
      (∀ k < 5, (s.memory.messages k).redzonesCorrupt = false) ∧ (s.reader 0).pc = .idle :=
    exists_of_exec ([.makeSender 0, .makeSender 1, .send 0 plainArgs] ++ replicate 8 (.sender 0))
      (by decide +kernel)
  obtain ⟨s, hrun, ⟨hpc, hseen, hheld⟩, ⟨hidle, hheld1⟩, hsent, hhint, hclean, hreader⟩ := hprefix
  have hready := ready_of_run hrun hidle hheld1 (by omega) hclean
  obtain ⟨s1, hrun1, hready1, hlen, hsame⟩ :=
    undisturbed_sends_complete threeSlots_fits (by decide) (by decide) hready 4294967293
  have hsender := hsame.sender 0 (by decide)
  have hslot : (s1.sender 0).slot = 0 := by
    have hagrees := (hready1.sound.agree 0 (by decide)).1
    have hcounts := hready1.sound.numbered.senders 0 (by decide)
    rw [hsender] at hagrees hcounts ⊢
    simp only [SenderProc.Agrees, hpc] at hagrees
    obtain ⟨hactual, -⟩ := hcounts.hint (by rw [hpc]; decide)
    rw [SenderProc.slot_eq threeSlots_fits (by decide) hagrees.2.2 hactual, hseen, Nat.zero_mod]
  have hlapped : (s1.sender 0).Lapped threeSlots 0 s1.history := by
    obtain ⟨hdue, hround, hmod⟩ := hready1.sound.numbered.ring 0 (by decide)
    have hpc1 : (s1.sender 0).pc = .loadToReplace := by rw [hsender, hpc]
    simp only [SenderProc.Lapped, hpc1, hslot, threeSlots_maxIndex]
    rw [show threeSlots.queueSize = 3 from rfl] at hround hmod
    exact ⟨by rw [hsender, hseen], by omega⟩
  obtain ⟨s2, last, hrun2, hsent2, hlast, hheader, hreader2⟩ := Lapped.exchanges threeSlots_fits (by decide)
    hready1.sound (by decide) (by rw [hsame.slot 0 (by decide), hheld]) hlapped
  have hlt : 0 < s1.history.sent.length := by omega
  obtain ⟨first, hfirst⟩ : ∃ first, s1.history.sent[0]? = some first := ⟨_, getElem?_eq_getElem hlt⟩
  refine ⟨s2, first, last, ((hrun.trans hrun1).mono fun _ _ hok => hok.1).trans hrun2, ?_, ?_, ?_, ?_, ?_, ?_, ?_⟩
  · rw [hsent2, length_append, hlen, hsent]
    rfl
  · rw [hsent2, getElem?_append_left hlt, hfirst]
  · exact (hready1.sound.numbered.records 0 first hfirst).1
  · rw [hsent2, show 4294967293 = s1.history.sent.length by omega, getElem?_concat_length]
  · exact hlast
  · exact hheader
  · rw [hreader2, hsame.reader, hreader]

/-- Sender 0 sleeps after its exchange. When the counter comes around to the value it loaded, it moves it past the index that
is to be sent next. -/
theorem passed_run : ∃ s, Run threeSlots IndexNotReused (initialState threeSlots) s ∧
    s.history.sent.length % threeSlots.maxIndex = 1 ∧ s.memory.nextQueueIndex = 2 := by
  have hprefix : ∃ s, Run threeSlots (InOrder threeSlots) (initialState threeSlots) s ∧
      ((s.sender 0).pc = .advanceNextQueueIndex ∧ (s.sender 0).actual = ⟨1, 3⟩ ∧ (s.memory.senders 0).tid = .held) ∧
      ((s.sender 1).pc = .idle ∧ (s.memory.senders 1).tid = .held) ∧
      s.history.sent.length = 3 ∧ s.history.hint = 3 ∧
      (∀ k < 5, (s.memory.messages k).redzonesCorrupt = false) :=
    exists_of_exec ([.makeSender 0, .makeSender 1, .send 0 plainArgs] ++ replicate 23 (.sender 0) ++
      .send 0 plainArgs :: replicate 18 (.sender 0) ++ .send 1 plainArgs :: replicate 26 (.sender 1))
      (by decide +kernel)
  obtain ⟨s, hrun, ⟨hpc, hactual, hheld⟩, ⟨hidle, hheld1⟩, hsent, hhint, hclean⟩ := hprefix
  have hready := ready_of_run hrun hidle hheld1 (by omega) hclean
  obtain ⟨s1, hrun1, hready1, hlen, hsame⟩ :=
    undisturbed_sends_complete threeSlots_fits (by decide) (by decide) hready 4294967293
  have hsender := hsame.sender 0 (by decide)
  have hnext : s1.memory.nextQueueIndex = (s1.sender 0).actual.index := by
    have hlength : s1.history.sent.length = 4294967296 := by omega
    rw [hready1.sound.numbered.next, hready1.current, hlength, hsender, hactual, hintIndex, threeSlots_maxIndex]
    rfl
  have hstep : step threeSlots s1 (.sender 0) =
      some ((s1.store threeSlots 0 (.nextQueueIndex (s1.sender 0).nextQueueIndex.increment.index)).setSender 0
        { s1.sender 0 with pc := .adoptScratch }) := by
    have hpc1 : (s1.sender 0).pc = .advanceNextQueueIndex := by rw [hsender, hpc]
    have hheld₁ : (s1.memory.senders 0).tid = .held := by rw [hsame.slot 0 (by decide), hheld]
    simp [step, threeSlots, hheld₁, senderStep, senderNext, hpc1, hnext]
  refine ⟨_, ((hrun.trans hrun1).mono fun _ _ hok => hok.1).trans (single _ ?_ hstep), ?_, ?_⟩
  · simp [IndexNotReused, hsender, hpc]
  · change s1.history.sent.length % threeSlots.maxIndex = 1
    rw [hlen, hsent, threeSlots_maxIndex]
  · change (s1.sender 0).nextQueueIndex.increment.index = 2
    rw [hsender, SenderProc.nextQueueIndex, hactual]
    decide

/-- Both halves fail once a sender sleeps through a round of queue indices: an index is repeated, and the counter passes the
index after the last exchange. -/
theorem lapped_sender_breaks_order :
    (∃ s n r, Run threeSlots IndexNotReused (initialState threeSlots) s ∧ s.history.sent[n]? = some r ∧
      r.queueIndex ≠ n % threeSlots.maxIndex) ∧
    ∃ s, Run threeSlots IndexNotReused (initialState threeSlots) s ∧
      s.memory.nextQueueIndex = (s.history.sent.length + 1) % threeSlots.maxIndex := by
  refine ⟨?_, ?_⟩
  · obtain ⟨s, first, last, hrun, -, -, -, hlast, hindex, -⟩ := lapped_run
    refine ⟨s, 4294967293, last, hrun, hlast, ?_⟩
    rw [hindex, threeSlots_maxIndex]
    decide
  · obtain ⟨s, hrun, hlength, hnext⟩ := passed_run
    refine ⟨s, hrun, ?_⟩
    rw [hnext, Nat.add_mod, hlength, threeSlots_maxIndex]

end RobotCode.IpcLib
