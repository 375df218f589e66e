import RobotCode.IpcLib.Pinning
import RobotCode.IpcLib.Recovery

/-!
# Senders that die

In every run each sender mentions at most two messages: the one it owns, and one that it has given away
or has seen where it wants to put its own. The second one may belong to another sender by now, but then that
one got it by a later exchange. So a memory that dead senders leave behind is recoverable.
-/

namespace RobotCode.IpcLib

open Function QueueIndex Transition.Run

variable {c : Configuration} {s s' : State} {i : Nat}

/-! ### The other message of a sender -/

/-- The message that a sender wants to trade for its own, or has given away and not yet forgotten. -/
def SenderProc.other (p : SenderProc) (x : Sender) : Option Nat :=
  match p.pc with
  | .fixNextQueueIndex | .loadPreviousIndex | .storeMonotonicSentTime | .storeRealtimeSentTime
  | .loadMonotonicSentTime | .loadRealtimeSentTime | .storeScratchIndex | .storeQueueIndex | .storeToReplace
  | .exchange | .abandonExchange => some p.toReplace.messageIndex
  | .swapLoadPinnerQueueIndex | .swapPinnerScan | .swapStoreToReplace | .swapExchange | .swapAbandonExchange =>
    some p.pinnerScratch.messageIndex
  | .advanceNextQueueIndex | .adoptScratch | .swapAdoptScratch => some x.scratchIndex.messageIndex
  | _ => none

def State.other (s : State) (i : Nat) : Option Nat := (s.sender i).other (s.memory.senders i)

variable {ok : State → Action → Prop} {p : SenderProc}

theorem senderNext_other {w : Write} {a : Nat} (hnext : senderNext c s i = some (p, w))
    (hslot : ∀ j value, w ≠ .slot j value) (hscratch : ∀ j value, w ≠ .pinnerScratch j value)
    (hother : p.other (w.onSender (s.memory.senders i)) = some a) :
    s.other i = some a ∨ ((s.sender i).pc = .loadToReplace ∧ a = (s.memory.queue (s.sender i).slot).messageIndex) ∨
      ((s.sender i).pc = .swapLoadPinnerScratch ∧
        a = (s.memory.pinners (s.sender i).pinnerIndex).scratchIndex.messageIndex) := by
  cases hpc : (s.sender i).pc <;> simp only [senderNext, hpc] at hnext
  all_goals
    simp only [State.other, SenderProc.other, hpc]
    repeat' split at hnext
    all_goals cases hnext <;> simp_all [SenderProc.other, Write.onSender]

/-- Who owns the other message of a sender got it after that sender got its own. -/
structure HandsOrdered (c : Configuration) (s : State) : Prop where
  acquired : ∀ i < c.numSenders, s.history.acquired i ≤ s.history.exchanges
  other : ∀ i < c.numSenders, ∀ a, s.other i = some a → a < c.numMessages ∧ a ≠ (s.hand i).messageIndex ∧
    ∀ k < c.numSenders, (s.hand k).messageIndex = a → s.history.acquired i < s.history.acquired k

theorem handsOrdered_initial : HandsOrdered c (initialState c) := ⟨fun _ _ => le_rfl, fun _ _ _ h => nomatch h⟩

theorem HandsOrdered.congr (h : HandsOrdered c s) (hhistory : s'.history = s.history)
    (hhand : ∀ k < c.numSenders, (s'.hand k).messageIndex = (s.hand k).messageIndex)
    (hother : ∀ k < c.numSenders, ∀ a, s'.other k = some a → s.other k = some a) : HandsOrdered c s' := by
  refine ⟨?_, fun i hi a ha => ?_⟩
  · rw [hhistory]
    exact h.acquired
  · obtain ⟨hlt, hne, horder⟩ := h.other i hi a (hother i hi a ha)
    rw [hhistory, hhand i hi]
    exact ⟨hlt, hne, fun k hk heq => horder k hk (by rw [← hhand k hk, heq])⟩

section Moves

variable {p : SenderProc} {w : Write}

theorem other_store_self : ((s.store c i w).setSender i p).other i = p.other (w.onSender (s.memory.senders i)) := by
  simp [State.other]

theorem other_store_of_ne {k : Nat} (hk : k ≠ i) : ((s.store c i w).setSender i p).other k = s.other k := by
  simp [State.other, hk]

theorem HandsOrdered.exchange (h : HandsOrdered c s) (howned : Owned c s) (hi : i < c.numSenders)
    (hexchanges : (s.store c i w).history.exchanges = s.history.exchanges + 1)
    (hacquired : (s.store c i w).history.acquired = update s.history.acquired i (s.history.exchanges + 1))
    (hother : p.other (w.onSender (s.memory.senders i)) = some (s.hand i).messageIndex)
    (hhand : (p.hand (w.onSender (s.memory.senders i))).messageIndex ≠ (s.hand i).messageIndex) :
    HandsOrdered c ((s.store c i w).setSender i p) := by
  refine ⟨fun k hk => ?_, fun k hk a ha => ?_⟩
  · have hle := h.acquired k hk
    rw [State.setSender_history, hexchanges, hacquired]
    by_cases hki : k = i
    · rw [hki, update_self]
    · rw [update_of_ne hki]
      omega
  · rw [State.setSender_history, hacquired]
    by_cases hki : k = i
    · subst hki
      rw [other_store_self, hother, Option.some.injEq] at ha
      subst ha
      rw [hand_store_self]
      refine ⟨howned.lt (.hand ⟨k, hk⟩), Ne.symm hhand, fun k' hk' heq => ?_⟩
      by_cases hkk : k' = k
      · subst hkk
        rw [hand_store_self] at heq
        exact absurd heq hhand
      · rw [hand_store_of_ne hkk] at heq
        exact absurd heq (howned.hand_ne_hand hk hk' hkk)
    · rw [other_store_of_ne hki] at ha
      obtain ⟨hlt, hne, horder⟩ := h.other k hk a ha
      rw [hand_store_of_ne hki, update_of_ne hki]
      refine ⟨hlt, hne, fun k' hk' heq => ?_⟩
      by_cases hkk : k' = i
      · subst hkk
        have hle := h.acquired k hk
        rw [update_self]
        omega
      · rw [update_of_ne hkk]
        exact horder k' hk' (by rw [← heq, hand_store_of_ne hkk])

theorem Owned.other_of_place (howned : Owned c s) (hi : i < c.numSenders) {a : Nat} (place : Place c)
    (hplace : s.owned place = a) (hhand : ∀ k, place ≠ .hand k) :
    a < c.numMessages ∧ a ≠ (s.hand i).messageIndex ∧ ∀ k < c.numSenders, (s.hand k).messageIndex ≠ a := by
  subst hplace
  have hne : ∀ k < c.numSenders, (s.hand k).messageIndex ≠ s.owned place := fun k hk heq =>
    hhand ⟨k, hk⟩ (howned.injective (p := place) (q := .hand ⟨k, hk⟩) heq.symm)
  exact ⟨howned.lt place, (hne i hi).symm, hne⟩

section

variable (h : HandsOrdered c s) (hagrees : (s.sender i).Agrees c (s.memory.senders i)) (howned : Owned c s) (hi : i < c.numSenders) (hnext : senderNext c s i = some (p, w))

include h hagrees howned hi hnext

theorem HandsOrdered.quiet (hslot : ∀ j value, w ≠ .slot j value) (hscratch : ∀ j value, w ≠ .pinnerScratch j value) :
    HandsOrdered c ((s.store c i w).setSender i p) := by
  obtain ⟨hacquired, hexchanges, hself⟩ : (s.store c i w).history.acquired = s.history.acquired ∧
      (s.store c i w).history.exchanges = s.history.exchanges ∧
      (p.hand (w.onSender (s.memory.senders i))).messageIndex = (s.hand i).messageIndex := by
    have htrades := senderNext_trades hagrees hnext
    cases w with
    | slot j value => exact absurd rfl (hslot j value)
    | pinnerScratch j value => exact absurd rfl (hscratch j value)
    | _ => exact ⟨rfl, rfl, htrades⟩
  have hhand (k : Nat) : (((s.store c i w).setSender i p).hand k).messageIndex = (s.hand k).messageIndex := by
    by_cases hki : k = i
    · rwa [hki, hand_store_self]
    · rw [hand_store_of_ne hki]
  have hkept : ∀ k < c.numSenders, ∀ a, ((s.store c i w).setSender i p).other k = some a → a < c.numMessages ∧
      a ≠ (s.hand k).messageIndex ∧
        ∀ k' < c.numSenders, (s.hand k').messageIndex = a → s.history.acquired k < s.history.acquired k' := by
    intro k hk a ha
    by_cases hki : k = i
    · subst hki
      rw [other_store_self] at ha
      rcases senderNext_other hnext hslot hscratch ha with hold | ⟨hpc, hload⟩ | ⟨hpc, hload⟩
      · exact h.other k hk a hold
      · have hlt : (s.sender k).slot < c.queueSize := by
          simp only [SenderProc.Agrees, hpc] at hagrees
          refine SenderProc.slot_lt hagrees.2.2 (Nat.pos_of_ne_zero fun hempty => ?_)
          simp [senderNext, hpc, hempty] at hnext
        obtain ⟨hlt', hne, hnone⟩ := howned.other_of_place hk (.slot ⟨_, hlt⟩) hload.symm (by simp)
        exact ⟨hlt', hne, fun k' hk' heq => absurd heq (hnone k' hk')⟩
      · simp only [SenderProc.Agrees, hpc] at hagrees
        obtain ⟨hlt', hne, hnone⟩ := howned.other_of_place hk (.pinner ⟨_, hagrees.2.2⟩) hload.symm (by simp)
        exact ⟨hlt', hne, fun k' hk' heq => absurd heq (hnone k' hk')⟩
    · rw [other_store_of_ne hki] at ha
      exact h.other k hk a ha
  refine ⟨?_, fun k hk a ha => ?_⟩
  · rw [State.setSender_history, hacquired, hexchanges]
    exact h.acquired
  · obtain ⟨hlt, hne, horder⟩ := hkept k hk a ha
    rw [State.setSender_history, hacquired, hhand k]
    exact ⟨hlt, hne, fun k' hk' heq => horder k' hk' (by rw [← heq, hhand k'])⟩

theorem HandsOrdered.sender : HandsOrdered c ((s.store c i w).setSender i p) := by
  have htrades := senderNext_trades hagrees hnext
  cases w with
  | slot j value =>
    obtain ⟨hpc, -, -, -, rfl⟩ := senderNext_slot hnext
    refine h.exchange howned hi rfl rfl ?_ ?_
    · simp [SenderProc.other, State.hand, SenderProc.hand, SendPc.Exchanged, hpc, Write.onSender]
    · rw [← htrades.2.1]
      exact howned.slot_ne_hand htrades.1 hi
  | pinnerScratch j value =>
    obtain ⟨hpc, -, -, -, rfl⟩ := senderNext_pinnerScratch hnext
    refine h.exchange howned hi rfl rfl ?_ ?_
    · simp [SenderProc.other, State.hand, SenderProc.hand, SendPc.Exchanged, hpc, Write.onSender]
    · rw [← htrades.2.1]
      exact howned.pinner_ne_hand htrades.1 hi
  | _ => exact h.quiet hagrees howned hi hnext (by simp) (by simp)

end

end Moves

theorem SenderProc.Entered.other (h : p.Entered s i) (x : Sender) : p.other x = none := by
  rcases h with h | ⟨h, -⟩ | ⟨h, -⟩ <;> simp [SenderProc.other, h]

theorem HandsOrdered.step {a : Action} (h : HandsOrdered c s) (hagree : SendersAgree c s) (howned : Owned c s)
    (hstep : step c s a = some s') : HandsOrdered c s' := by
  cases step_move hstep with
  | sender i p w ha hi hheld hnext => exact h.sender (hagree i hi).1 howned hi hnext
  | enter i t p hi hold hnew hfree hdied =>
    have hout : (s.sender i).pc.Outside := hold.elim id fun ht => .inl ((hagree i hi).2 ht)
    refine h.congr rfl (fun k _ => by rw [hand_enter hout.not_exchanged hnew.not_exchanged])
      fun k hk a ha => ?_
    by_cases hki : k = i
    · subst hki
      simp [State.other, hnew.other] at ha
    · simpa [State.other, hki] using ha
  | kill i hi hheld =>
    refine h.congr rfl (fun k _ => by rw [hand_kill]) fun k _ a ha => ?_
    by_cases hki : k = i
    · subst hki
      simpa [State.other, SenderProc.other] using ha
    · simpa [State.other, hki] using ha
  | _ => exact h.congr rfl (fun _ _ => rfl) fun _ _ _ ha => ha

theorem Run.handsOrdered (hmax : c.Indexable) (h : Run c ok (initialState c) s) : HandsOrdered c s :=
  h.invariant_of_run (fun _ _ _ hrun hu _ hstep => hu.step (sendersAgree hrun) (owned hmax hrun) hstep)
    handsOrdered_initial

theorem not_valid_invalid : ¬ Index.Valid .invalid := fun h => h rfl

theorem SenderProc.Agrees.left (hmax : c.Indexable)
    (hagrees : (s.sender i).Agrees c (s.memory.senders i)) (howned : (s.hand i).messageIndex < c.numMessages)
    (hother : ∀ a, s.other i = some a → a < c.numMessages ∧ a ≠ (s.hand i).messageIndex) :
    (s.memory.senders i).Left c (s.hand i).messageIndex ((s.other i).getD c.numMessages) := by
  have hvalid : ∀ {x : Index}, x.messageIndex < c.numMessages → x.Valid := fun hlt =>
    Index.valid_of_messageIndex_lt (hlt.trans_le (hmax.trans (by decide)))
  have hne : ∀ {x y : Index}, x.messageIndex ≠ y.messageIndex → x ≠ y := fun h heq => h (heq ▸ rfl)
  cases hpc : (s.sender i).pc <;> simp only [SenderProc.Agrees, hpc] at hagrees <;>
    simp only [State.other, other, State.hand, hand, SendPc.Exchanged, hpc, reduceCtorEq, or_self,
      or_false, or_true, if_true, if_false, Option.some.injEq, forall_eq', Option.getD_some] at howned hother ⊢
  case exchange | abandonExchange | swapExchange | swapAbandonExchange =>
    refine .inr (.inr ⟨?_, ?_, hother.2, hother.1, .inl ⟨rfl, by rw [hagrees.1]⟩⟩)
    · rw [hagrees.1]
      exact hvalid hother.1
    · rw [hagrees.1]
      exact hne hother.2
  case advanceNextQueueIndex | adoptScratch | swapAdoptScratch =>
    exact .inr (.inr ⟨hvalid howned, hne hother.2.symm, hother.2, hother.1, .inr ⟨rfl, rfl⟩⟩)
  case clearToReplace | swapClearToReplace =>
    have heq := hagrees.1.trans hagrees.2.symm
    exact .inr (.inl ⟨by rw [heq]; exact hvalid howned, heq, rfl⟩)
  all_goals
    refine .inl ⟨?_, rfl⟩
    first
      | rw [hagrees.1]
        exact not_valid_invalid
      | rw [hagrees]
        exact not_valid_invalid

theorem Run.recoverable (hmax : c.Indexable) (hrun : Run c ok (initialState c) s)
    (halive : ∀ i < c.numSenders, ¬ s.memory.Dead i → ¬ (s.sender i).pc.Exchanged) :
    Recoverable c s.memory (fun i => (s.hand i).messageIndex) (fun i => (s.other i).getD c.numMessages) s.history.acquired := by
  have hagree := sendersAgree hrun
  have howned := owned hmax hrun
  have hordered := handsOrdered hmax hrun
  refine ⟨?_, fun i hi ha => ?_, fun i hi hdead => ?_, fun i hi hdead htorn k hk _ _ heq => ?_⟩
  · obtain ⟨e, he⟩ := howned
    exact ⟨e, fun place => by rw [← he]; cases place <;> rfl⟩
  · rw [State.hand, SenderProc.hand, if_neg (halive i hi ha)]
  · refine (hagree i hi).1.left hmax (howned.lt (.hand ⟨i, hi⟩)) fun a ha => ?_
    obtain ⟨hlt, hne, -⟩ := hordered.other i hi a ha
    exact ⟨hlt, hne⟩
  · cases hother : s.other i with
    | none =>
      have hlt := htorn.alt_lt
      simp [hother] at hlt
    | some a =>
      rw [hother, Option.getD_some] at heq
      exact (hordered.other i hi a hother).2.2 k hk heq

/-- All senders are in order again, and every message is in one place. -/
structure Repaired (c : Configuration) (m₀ m : Memory) : Prop where
  tid : ∀ i < c.numSenders, (m.senders i).tid = if m₀.Dead i then .free else (m₀.senders i).tid
  toReplace : ∀ i < c.numSenders, (m.senders i).toReplace = .invalid
  owned : ∀ message < c.numMessages,
    ∃! place : Place c, m.place (fun i => (m.senders i).scratchIndex.messageIndex) place = message

theorem CleanedUp.repaired {m₀ m : Memory} {hand0 hand : Nat → Nat} (h : CleanedUp c m₀ hand0 m hand)
    (hidle : ∀ i < c.numSenders, ¬ m₀.Dead i → (m₀.senders i).toReplace = .invalid) : Repaired c m₀ m := by
  have hplace : ∀ place : Place c, m.place (fun i => (m.senders i).scratchIndex.messageIndex) place = m.place hand place := by
    intro place
    cases place with
    | hand i => exact (h.settled i i.isLt).2
    | _ => rfl
  refine ⟨fun i hi => ?_, fun i hi => ?_, fun message hmessage => ?_⟩
  · split
    · rename_i hdead
      exact (h.cleaned.freed i hdead (h.settled i hi).1).1
    · rename_i halive
      rw [h.cleaned.alive i halive]
  · by_cases hdead : m₀.Dead i
    · exact (h.cleaned.freed i hdead (h.settled i hi).1).2
    · rw [h.cleaned.alive i hdead]
      exact hidle i hi hdead
  · simp only [hplace]
    exact h.owned.existsUnique hmessage

/-- With all living senders outside of `Send`, `DoCleanup` passes its checks, returns true and repairs the memory exactly
if the swap code has a pinner to trade with when it needs one. -/
theorem recovery_repairs_iff {ok : State → Action → Prop} (hmax : c.numMessages ≤ Index.maxMessages)
    (hrun : Run c ok (initialState c) s)
    (hidle : ∀ i < c.numSenders, ¬ s.memory.Dead i → (s.sender i).pc.Outside) :
    ((∀ fuel which, doCleanup c fuel s.memory ≠ .error (.check which)) ∧
      ∃ fuel m, doCleanup c fuel s.memory = .ok (true, m) ∧ Repaired c s.memory m) ↔ Unblocked c s.memory := by
  have hagree := Run.sendersAgree hrun
  have hrecoverable := Run.recoverable hmax hrun fun i hi halive => (hidle i hi halive).not_exchanged
  have hmeets := doCleanup_meets hmax hrecoverable
  have hnone : ∀ i < c.numSenders, ¬ s.memory.Dead i → (s.memory.senders i).toReplace = .invalid := by
    intro i hi halive
    have hagrees := (hagree i hi).1
    rcases hidle i hi halive with hpc | hpc <;> simp only [SenderProc.Agrees, hpc] at hagrees
    · exact hagrees
    · exact hagrees.1
  constructor
  · rintro ⟨-, fuel, m, hok, -⟩
    have hdone := hmeets fuel
    rw [hok] at hdone
    exact hdone.2.1
  · intro hunblocked
    refine ⟨fun fuel which herror => ?_, c.numMessages + 2, ?_⟩
    · cases (hmeets fuel).error_eq herror
    obtain ⟨⟨returned, m⟩, hok, rfl, -, hand, hclean⟩ :=
      (hmeets (c.numMessages + 2)).exists_ok ⟨hunblocked, by omega⟩
    exact ⟨m, hok, hclean.repaired hnone⟩

private def quickArgs : SendArgs := ⟨8, 0, 0, 0, Vector.replicate 16 0⟩

private def dieAfterExchange : List Action :=
  [.makeSender 0, .makeSender 1, .makePinner 0, .send 0 quickArgs] ++ List.replicate 23 (.sender 0) ++
    .send 1 quickArgs :: List.replicate 19 (.sender 1) ++ [.pinIndex 0 1, .pinner 0, .pinner 0, .pinner 0, .killSender 1]

theorem recovery_repairs_torn_sender : ∃ (s : State) (fuel : Nat) (m : Memory), (s.sender 1).pc = .adoptScratch ∧
    doCleanup onePinner fuel s.memory = .ok (true, m) ∧ Repaired onePinner s.memory m := by
  have hexec : ∃ s, Run onePinner IndexNotReused (initialState onePinner) s ∧ ((s.sender 1).pc = .adoptScratch ∧
      (∀ i < onePinner.numSenders, ¬ s.memory.Dead i → (s.sender i).pc.Outside) ∧ Unblocked onePinner s.memory) :=
    exists_of_exec dieAfterExchange (by decide +kernel)
  obtain ⟨s, hrun, hpc, hidle, hunblocked⟩ := hexec
  obtain ⟨-, fuel, m, hok, hrepaired⟩ := (recovery_repairs_iff (by decide) hrun hidle).mpr hunblocked
  exact ⟨s, fuel, m, hpc, hok, hrepaired⟩

/-- A sender died when it had just marked its message with an index that another sender then used for a message that is
pinned and parked with the only pinner. The cleanup looks for another pinner forever. -/
theorem recovery_never_ends : ∃ s, Run onePinner IndexNotReused (initialState onePinner) s ∧
    (∀ i < onePinner.numSenders, ¬ s.memory.Dead i → (s.sender i).pc.Outside) ∧
    ∀ fuel m, doCleanup onePinner fuel s.memory ≠ .ok (true, m) := by
  have hexec : ∃ s, Run onePinner IndexNotReused (initialState onePinner) s ∧
      ((∀ i < onePinner.numSenders, ¬ s.memory.Dead i → (s.sender i).pc.Outside) ∧ ¬ Unblocked onePinner s.memory) :=
    exists_of_exec
      ([.makeSender 0, .makeSender 1, .makePinner 0, .send 1 quickArgs] ++ List.replicate 16 (.sender 1) ++
        .send 0 quickArgs :: List.replicate 23 (.sender 0) ++
        [.pinIndex 0 0, .pinner 0, .pinner 0, .pinner 0, .send 0 quickArgs] ++ List.replicate 30 (.sender 0) ++
        [.killSender 1]) (by decide +kernel)
  obtain ⟨s, hrun, hidle, hblocked⟩ := hexec
  refine ⟨s, hrun, hidle, fun fuel m hok => hblocked ?_⟩
  have hmeets := doCleanup_meets (by decide)
    (Run.recoverable (by decide) hrun fun i hi halive => (hidle i hi halive).not_exchanged) fuel
  rw [hok] at hmeets
  exact hmeets.2.1

/-! ### Recovery and pins -/

/-- Before `Send` marks it, the message in a sender's hand is unused. -/
def HandsUnused (c : Configuration) (s : State) : Prop :=
  ∀ i < c.numSenders, (s.sender i).pc ≤ .storeRealtimeRemoteTime →
    (s.memory.messages (s.hand i).messageIndex).queueIndex = invalid.index

theorem senderNext_unused {w : Write} (hnext : senderNext c s i = some (p, w))
    (hpc : p.pc ≤ .storeRealtimeRemoteTime) :
    ((s.sender i).pc ≤ .storeRealtimeRemoteTime ∧ ∀ k value, w ≠ .queueIndex k value) ∨
      ∃ k, w = .queueIndex k invalid.index := by
  cases hold : (s.sender i).pc <;> simp only [senderNext, hold] at hnext
  all_goals
    repeat' split at hnext
    all_goals cases hnext <;> first
      | exact absurd hpc (by dsimp only; decide)
      | exact .inl ⟨by decide, by simp⟩
      | exact .inr ⟨_, rfl⟩

theorem HandsUnused.sender {w : Write} (h : HandsUnused c s)
    (hagree : SendersAgree c s) (howned : Owned c s) (hi : i < c.numSenders) (hnext : senderNext c s i = some (p, w)) :
    HandsUnused c ((s.store c i w).setSender i p) := by
  have hagrees := (hagree i hi).1
  intro k hk hpc
  by_cases hki : k = i
  · subst hki
    simp only [State.setSender_sender, update_self] at hpc
    have htrades := senderNext_trades hagrees hnext
    have hhand : (p.hand (w.onSender (s.memory.senders k))).messageIndex = (s.hand k).messageIndex := by
      cases w with
      | slot j value =>
        obtain ⟨-, -, -, -, rfl⟩ := senderNext_slot hnext
        exact absurd hpc (by dsimp only; decide)
      | pinnerScratch j value =>
        obtain ⟨-, -, -, -, rfl⟩ := senderNext_pinnerScratch hnext
        exact absurd hpc (by dsimp only; decide)
      | _ => exact htrades
    rw [hand_store_self, hhand, State.setSender_memory, store_messages]
    rcases senderNext_unused hnext hpc with ⟨hold, hw⟩ | ⟨k', rfl⟩
    · have hunused := h k hk hold
      cases w with
      | queueIndex k' value => exact absurd rfl (hw k' value)
      | field k' store =>
        obtain ⟨-, hstore, -⟩ := senderNext_field hnext
        rw [senderNext_field_hand hagrees hnext, Write.onMessages, update_self, (hstore _).1, hunused]
      | _ => exact hunused
    · rw [senderNext_queueIndex_hand hagrees hnext, Write.onMessages, update_self]
  · simp only [State.setSender_sender, store_sender, update_of_ne hki] at hpc
    rw [hand_store_of_ne hki, State.setSender_memory, store_messages,
      senderNext_messages_of_ne hagrees hnext (howned.hand_ne_hand hi hk hki), h k hk hpc]

theorem HandsUnused.congr (h : HandsUnused c s)
    (hpc : ∀ k < c.numSenders, (s'.sender k).pc ≤ .storeRealtimeRemoteTime → (s.sender k).pc ≤ .storeRealtimeRemoteTime)
    (hhand : ∀ k < c.numSenders, (s'.hand k).messageIndex = (s.hand k).messageIndex)
    (hheader : ∀ n, (s'.memory.messages n).queueIndex = (s.memory.messages n).queueIndex) : HandsUnused c s' :=
  fun k hk hpc' => by rw [hheader, hhand k hk, h k hk (hpc k hk hpc')]

theorem HandsUnused.step {a : Action} (h : HandsUnused c s) (hagree : SendersAgree c s) (howned : Owned c s)
    (hstep : step c s a = some s') : HandsUnused c s' := by
  cases step_move hstep with
  | sender i p w ha hi hheld hnext => exact h.sender hagree howned hi hnext
  | fill i offset byte hi hheld hpc =>
    refine h.congr (fun _ _ => id) (fun _ _ => rfl) fun n => ?_
    by_cases hn : n = (s.sender i).data <;> simp [Write.onMessages, hn]
  | enter i t p hi hold hnew hfree hdied =>
    have hout : (s.sender i).pc.Outside := hold.elim id fun ht => .inl ((hagree i hi).2 ht)
    refine h.congr (fun k hk hpc => ?_)
      (fun k _ => by rw [hand_enter hout.not_exchanged hnew.not_exchanged]) fun _ => rfl
    by_cases hki : k = i
    · subst hki
      rcases hout with hout | hout <;> rw [hout] <;> decide
    · simpa [hki] using hpc
  | kill i hi hheld => exact h.congr (fun _ _ => id) (fun k _ => by rw [hand_kill]) fun _ => rfl
  | overrun k =>
    refine h.congr (fun _ _ => id) (fun _ _ => rfl) fun n => ?_
    by_cases hn : n = k <;> simp [Memory.setMessage, hn]
  | _ => exact h

theorem Run.handsUnused (hmax : c.Indexable) (h : Run c ok (initialState c) s) : HandsUnused c s :=
  h.invariant_of_run (fun _ _ _ hrun hu _ hstep => hu.step (sendersAgree hrun) (owned hmax hrun) hstep)
    fun _ _ _ => rfl

/-- A living pinner that `PinIndex` has returned a message to. -/
def State.Pins (s : State) (j b : Nat) : Prop :=
  (s.memory.pinners j).tid = .held ∧ (s.pinner j).pc = .held ∧ (s.pinner j).result = b

instance {s : State} {j b : Nat} : Decidable (s.Pins j b) := inferInstanceAs (Decidable (_ ∧ _ ∧ _))

end RobotCode.IpcLib
