import RobotCode.IpcLib.Delivery

/-!
# A pinned message is left alone

`PinIndex` publishes the index it wants before it looks for the message. A sender that pops the message
afterwards scans the pinned indices before it reuses it, so it meets the pin and parks the message with
a pinner; and a message parked there is scanned for again before anybody takes it out. So a pin that
was published before the message left its slot keeps the message from being written, however long it
lasts.
-/

namespace RobotCode.IpcLib

open List Function State QueueIndex Configuration Transition.Run

variable {c : Configuration} {s s' : State} {i : Nat}

/-! ### What a pin asks of one sender -/

/-- Sender `i` respects the pin of message `b`, which carries the queue index `q`, by pinner `j`. It may hold the message only
between popping it and parking it, and take it out of a pinner's scratch index only while it has not passed this pin in its
scan; a plan based on an old value of the scratch index does not count. -/
structure SparesPinned (s : State) (i j b q : Nat) : Prop where
  holds : (s.hand i).messageIndex = b →
    .advanceNextQueueIndex ≤ (s.sender i).pc ∧ (s.sender i).pc ≤ .swapAbandonExchange ∧
      ((s.sender i).pc = .swapScan → (s.sender i).wanted = q ∧ (s.sender i).scan ≤ j)
  plans : .swapLoadPinnerQueueIndex ≤ (s.sender i).pc → (s.sender i).pc ≤ .swapExchange →
    (s.sender i).pinnerScratch.messageIndex = b →
    (s.memory.pinners (s.sender i).pinnerIndex).scratchIndex = (s.sender i).pinnerScratch →
    s.history.swaps (s.sender i).pinnerIndex = (s.sender i).swapsSeen →
    (s.sender i).pc = .swapLoadPinnerQueueIndex ∨
      (s.sender i).pc = .swapPinnerScan ∧ (s.sender i).wanted = q ∧ (s.sender i).scan ≤ j

variable {j : Nat} {a : Action}

theorem SparesPinned.congr {b q : Nat} (h : SparesPinned s i j b q) (hsender : s'.sender i = s.sender i)
    (hhand : s'.hand i = s.hand i)
    (hscratch : ∀ k, (s'.memory.pinners k).scratchIndex = (s.memory.pinners k).scratchIndex)
    (hswaps : s'.history.swaps = s.history.swaps) : SparesPinned s' i j b q := by
  refine ⟨?_, ?_⟩
  · rw [hsender, hhand]
    exact h.holds
  · rw [hsender, hscratch, hswaps]
    exact h.plans

section Next

variable {p : SenderProc} {w : Write} {j b q : Nat}

private theorem scan_lt {k : Nat} (hpinned : (s.memory.pinners j).pinned = q)
    (hk : (s.memory.pinners k).pinned ≠ q) (hle : k ≤ j) : k + 1 ≤ j := by
  have hne : k ≠ j := fun heq => hk (heq ▸ hpinned)
  omega

theorem SparesPinned.holds_next (hagrees : (s.sender i).Agrees c (s.memory.senders i))
    (hj : j < c.numPinners) (hpinned : (s.memory.pinners j).pinned = q) (hvalid : q ≠ invalid.index)
    (hheader : (s.memory.messages (s.hand i).messageIndex).queueIndex = q)
    (hlo : .advanceNextQueueIndex ≤ (s.sender i).pc) (hhi : (s.sender i).pc ≤ .swapAbandonExchange)
    (hscan : (s.sender i).pc = .swapScan → (s.sender i).wanted = q ∧ (s.sender i).scan ≤ j)
    (hnext : senderNext c s i = some (p, w)) (hw : ∀ k value, w ≠ .pinnerScratch k value) :
    .advanceNextQueueIndex ≤ p.pc ∧ p.pc ≤ .swapAbandonExchange ∧ (p.pc = .swapScan → p.wanted = q ∧ p.scan ≤ j) := by
  cases hpc : (s.sender i).pc <;> simp only [senderNext, hpc] at hnext <;>
    simp only [SenderProc.Agrees, hpc] at hagrees
  case swapLoadQueueIndex =>
    have hhand : s.hand i = (s.sender i).toReplace := by
      simp [hand, SenderProc.hand, SendPc.Exchanged, hpc, hagrees]
    rw [← hhand, hheader, if_neg hvalid] at hnext
    cases hnext
    exact ⟨by dsimp only; decide, by dsimp only; decide, fun _ => ⟨rfl, Nat.zero_le _⟩⟩
  case swapScan =>
    obtain ⟨hwanted, hle⟩ := hscan hpc
    rw [if_pos (hle.trans_lt hj), hwanted] at hnext
    split at hnext
    · cases hnext
      exact ⟨by dsimp only; decide, by dsimp only; decide, by simp⟩
    · rename_i hne
      cases hnext
      exact ⟨by dsimp only; decide, by dsimp only; decide, fun _ => ⟨rfl, scan_lt hpinned hne hle⟩⟩
  case swapExchange =>
    split at hnext
    · cases hnext
      exact absurd rfl (hw _ _)
    · cases hnext
      exact ⟨by dsimp only; decide, by dsimp only; decide, by simp⟩
  all_goals first
    | exact absurd (hpc ▸ hlo) (by decide)
    | exact absurd (hpc ▸ hhi) (by decide)
    | skip
  all_goals
    repeat' split at hnext
    all_goals cases hnext <;> exact ⟨by dsimp only; decide, by dsimp only; decide, by simp⟩

theorem SparesPinned.plans_next (hj : j < c.numPinners) (hpinned : (s.memory.pinners j).pinned = q)
    (hvalid : q ≠ invalid.index) (hheader : (s.memory.messages p.pinnerScratch.messageIndex).queueIndex = q)
    (hplan : .swapLoadPinnerQueueIndex ≤ (s.sender i).pc → (s.sender i).pc ≤ .swapExchange →
      (s.sender i).pc = .swapLoadPinnerQueueIndex ∨
        (s.sender i).pc = .swapPinnerScan ∧ (s.sender i).wanted = q ∧ (s.sender i).scan ≤ j)
    (hlo : .swapLoadPinnerQueueIndex ≤ p.pc) (hhi : p.pc ≤ .swapExchange) (hnext : senderNext c s i = some (p, w)) :
    p.pc = .swapLoadPinnerQueueIndex ∨ p.pc = .swapPinnerScan ∧ p.wanted = q ∧ p.scan ≤ j := by
  cases hpc : (s.sender i).pc <;> simp only [senderNext, hpc] at hnext
  case swapLoadPinnerScratch =>
    split at hnext <;> cases hnext
    exact .inl rfl
  case swapLoadPinnerQueueIndex =>
    split at hnext <;> cases hnext
    · rename_i heq
      exact absurd (hheader.symm.trans heq) hvalid
    · exact .inr ⟨rfl, hheader, Nat.zero_le _⟩
  case swapPinnerScan =>
    obtain ⟨-, hwanted, hle⟩ := (hplan (by rw [hpc]; decide) (by rw [hpc]; decide)).resolve_left (by simp [hpc])
    rw [if_pos (hle.trans_lt hj), hwanted] at hnext
    split at hnext
    · cases hnext
      exact absurd hlo (by dsimp only; decide)
    · rename_i hne
      cases hnext
      exact .inr ⟨rfl, rfl, scan_lt hpinned hne hle⟩
  case swapStoreToReplace =>
    rcases hplan (by rw [hpc]; decide) (by rw [hpc]; decide) with h | ⟨h, -⟩ <;> simp [hpc] at h
  all_goals
    repeat' split at hnext
    all_goals cases hnext <;> first
      | exact absurd hlo (by dsimp only; decide)
      | exact absurd hhi (by dsimp only; decide)

theorem senderNext_pinnerIndex (hlo : .swapLoadPinnerQueueIndex < p.pc) (hhi : p.pc ≤ .swapExchange)
    (hnext : senderNext c s i = some (p, w)) :
    p.pinnerIndex = (s.sender i).pinnerIndex ∧ p.pinnerScratch = (s.sender i).pinnerScratch ∧
      p.swapsSeen = (s.sender i).swapsSeen ∧ .swapLoadPinnerQueueIndex ≤ (s.sender i).pc ∧
      (s.sender i).pc ≤ .swapExchange := by
  cases hpc : (s.sender i).pc <;> simp only [senderNext, hpc] at hnext
  all_goals
    repeat' split at hnext
    all_goals cases hnext <;> first
      | exact absurd hlo (by dsimp only; decide)
      | exact absurd hhi (by dsimp only; decide)
      | exact ⟨rfl, rfl, rfl, by decide, by decide⟩

theorem senderNext_swapsSeen (hpc : p.pc = .swapLoadPinnerQueueIndex) (hnext : senderNext c s i = some (p, w)) :
    p.swapsSeen = s.history.swaps p.pinnerIndex ∧ w = .none := by
  cases hold : (s.sender i).pc <;> simp only [senderNext, hold] at hnext
  all_goals
    repeat' split at hnext
    all_goals cases hnext <;> first
      | exact ⟨rfl, rfl⟩
      | exact absurd hpc (by dsimp only; decide)

end Next

theorem le_store_swaps (w : Write) (k : Nat) : s.history.swaps k ≤ (s.store c i w).history.swaps k := by
  cases w with
  | pinnerScratch k' value =>
    by_cases hk : k = k'
    · subst hk
      simp [store]
    · simp [store, hk]
  | _ => exact le_rfl

theorem store_swaps (w : Write) (k : Nat) : (s.store c i w).history.swaps k = s.history.swaps k ∧
        (s.store c i w).memory.pinners k = s.memory.pinners k ∨
      (s.store c i w).history.swaps k = s.history.swaps k + 1 ∧ ∃ value, w = .pinnerScratch k value := by
  cases w with
  | pinnerScratch k' value =>
    by_cases hk : k = k'
    · subst hk
      exact .inr ⟨by simp [store], value, rfl⟩
    · exact .inl ⟨by simp [store, hk], by simp [Write.onPinners, hk]⟩
  | _ => exact .inl ⟨rfl, rfl⟩

def SwapsSeen (c : Configuration) (s : State) : Prop :=
  ∀ i < c.numSenders, .swapLoadPinnerQueueIndex ≤ (s.sender i).pc → (s.sender i).pc ≤ .swapExchange →
    (s.sender i).swapsSeen ≤ s.history.swaps (s.sender i).pinnerIndex

theorem swapsSeen_initial : SwapsSeen c (initialState c) :=
  fun _ _ hpc => absurd hpc (by simp only [initialState, initialSender]; decide)

theorem SenderProc.Entered.pc_le {p : SenderProc} (h : p.Entered s i) : p.pc ≤ .loadScratch := by
  rcases h with h | ⟨h, -⟩ | ⟨h, -⟩ <;> rw [h] <;> decide

theorem SwapsSeen.step (h : SwapsSeen c s) (hstep : step c s a = some s') : SwapsSeen c s' := by
  intro k hk
  have hk' := h k hk
  cases step_move hstep with
  | sender i p w ha hi hheld hnext =>
    by_cases hki : k = i
    · subst hki
      simp only [setSender_sender, update_self, setSender_history]
      intro hlo hhi
      by_cases hpc : p.pc = .swapLoadPinnerQueueIndex
      · rw [(senderNext_swapsSeen hpc hnext).1]
        exact le_store_swaps w _
      · have hlt : SendPc.swapLoadPinnerQueueIndex < p.pc := by
          cases heq : p.pc <;> rw [heq] at hlo hpc <;> revert hlo hpc <;> decide
        obtain ⟨hindex, -, hseen, hlo', hhi'⟩ := senderNext_pinnerIndex hlt hhi hnext
        rw [hindex, hseen]
        exact (hk' hlo' hhi').trans (le_store_swaps w _)
    · simp only [setSender_sender, store_sender, update_of_ne hki, setSender_history]
      exact fun hlo hhi => (hk' hlo hhi).trans (le_store_swaps w _)
  | enter i t p hi hold hnew hfree hdied =>
    by_cases hki : k = i
    · subst hki
      simp only [setSender_sender, update_self]
      exact fun hlo _ => absurd (hlo.trans hnew.pc_le) (by decide)
    · simpa [hki] using hk'
  | _ => exact hk'

section Moves

variable {p : SenderProc} {w : Write} {j b q : Nat}

theorem SparesPinned.next (h : SparesPinned s i j b q) (hagrees : (s.sender i).Agrees c (s.memory.senders i))
    (hok : IndexNotReused s (.sender i)) (hj : j < c.numPinners) (hpinned : (s.memory.pinners j).pinned = q)
    (hvalid : q ≠ invalid.index) (hheader : (s.memory.messages b).queueIndex = q)
    (hnext : senderNext c s i = some (p, w)) : SparesPinned ((s.store c i w).setSender i p) i j b q := by
  have htrades := senderNext_trades hagrees hnext
  refine ⟨fun hhand => ?_, fun hlo hhi hb hcurrent hswaps => ?_⟩
  · rw [hand_store_self] at hhand
    simp only [setSender_sender, update_self]
    have hkept : (s.hand i).messageIndex = b → (∀ k value, w ≠ .pinnerScratch k value) →
        .advanceNextQueueIndex ≤ p.pc ∧ p.pc ≤ .swapAbandonExchange ∧
          (p.pc = .swapScan → p.wanted = q ∧ p.scan ≤ j) := by
      intro hheld hw
      obtain ⟨hlo, hhi, hscan⟩ := h.holds hheld
      exact holds_next hagrees hj hpinned hvalid (hheld ▸ hheader) hlo hhi hscan hnext hw
    cases w with
    | slot k value =>
      obtain ⟨-, -, -, -, rfl⟩ := senderNext_slot hnext
      exact ⟨by dsimp only; decide, by dsimp only; decide, by simp⟩
    | pinnerScratch k value =>
      obtain ⟨hpc, rfl, -, hcurrent, -⟩ := senderNext_pinnerScratch hnext
      rw [← htrades.2.1, hcurrent] at hhand
      have hplan := h.plans (by rw [hpc]; decide) (by rw [hpc]) hhand hcurrent (hok.2 hpc hcurrent)
      simp [hpc] at hplan
    | _ => exact hkept (htrades.symm.trans hhand) (by simp)
  · simp only [setSender_sender, update_self, setSender_memory, setSender_history] at hlo hhi hb hcurrent hswaps ⊢
    by_cases hpc : p.pc = .swapLoadPinnerQueueIndex
    · exact .inl hpc
    refine plans_next hj hpinned hvalid (hb ▸ hheader) (fun hlo' hhi' => ?_) hlo hhi hnext
    have hlt : SendPc.swapLoadPinnerQueueIndex < p.pc := by
      cases heq : p.pc <;> rw [heq] at hlo hpc <;> revert hlo hpc <;> decide
    obtain ⟨hindex, hscratch, hseen, -, -⟩ := senderNext_pinnerIndex hlt hhi hnext
    rw [hindex, hscratch] at hcurrent
    rw [hindex, hseen] at hswaps
    rw [hscratch] at hb
    rcases store_swaps (c := c) (s := s) (i := i) w (s.sender i).pinnerIndex with ⟨hsame, hpinner⟩ | ⟨-, value, hw⟩
    · exact h.plans hlo' hhi' hb (by rw [← hpinner, hcurrent]) (by rw [← hsame, hswaps])
    · obtain ⟨-, -, -, -, rfl⟩ := senderNext_pinnerScratch (hw ▸ hnext)
      exact absurd hhi (by dsimp only; decide)

theorem SparesPinned.other {k : Nat} (h : SparesPinned s k j b q) (hki : k ≠ i)
    (hseen : .swapLoadPinnerQueueIndex ≤ (s.sender k).pc → (s.sender k).pc ≤ .swapExchange →
      (s.sender k).swapsSeen ≤ s.history.swaps (s.sender k).pinnerIndex) :
    SparesPinned ((s.store c i w).setSender i p) k j b q := by
  have hsender : ((s.store c i w).setSender i p).sender k = s.sender k := by simp [hki]
  refine ⟨?_, ?_⟩
  · rw [hand_store_of_ne hki, hsender]
    exact h.holds
  · rw [hsender]
    intro hlo hhi hb hcurrent hswaps
    rw [setSender_memory] at hcurrent
    rw [setSender_history] at hswaps
    rcases store_swaps (c := c) (s := s) (i := i) w (s.sender k).pinnerIndex with ⟨hsame, hpinner⟩ | ⟨hmore, -⟩
    · exact h.plans hlo hhi hb (by rw [← hpinner, hcurrent]) (by rw [← hsame, hswaps])
    · have := hseen hlo hhi
      omega

end Moves

/-! ### The pin of one message -/

/-- Pinner `j` pins the message `b`, which was sent with the queue index `q` (its number too, before the queue indices wrap). It
is in its slot until the next message of that slot is sent. -/
structure PinHolds (c : Configuration) (s : State) (j b q : Nat) : Prop where
  pinned : (s.memory.pinners j).pinned = q
  header : (s.memory.messages b).queueIndex = q
  spares : ∀ i < c.numSenders, SparesPinned s i j b q
  sent : q < s.history.sent.length
  due_ge : q + c.queueSize ≤ s.history.due (q % c.queueSize)
  slot : ∀ k < c.queueSize, (s.memory.queue k).messageIndex = b ↔
    k = q % c.queueSize ∧ s.history.due k = q + c.queueSize
  latest : s.history.due (q % c.queueSize) = q + c.queueSize ↔
    ∀ r ∈ s.history.sent.drop (q + 1), r.queueIndex % c.queueSize ≠ q % c.queueSize

section PinHolds

variable {j b q : Nat}

theorem PinHolds.congr (h : PinHolds c s j b q) (hpinned : (s'.memory.pinners j).pinned = q)
    (hheader : (s'.memory.messages b).queueIndex = q) (hspares : ∀ i < c.numSenders, SparesPinned s' i j b q)
    (hqueue : s'.memory.queue = s.memory.queue) (hdue : s'.history.due = s.history.due)
    (hsent : s'.history.sent = s.history.sent) : PinHolds c s' j b q := by
  refine ⟨hpinned, hheader, hspares, ?_, ?_, ?_, ?_⟩
  · rw [hsent]
    exact h.sent
  · rw [hdue]
    exact h.due_ge
  · rw [hqueue, hdue]
    exact h.slot
  · rw [hdue, hsent]
    exact h.latest

theorem PinHolds.hand_ne {i : Nat} (h : PinHolds c s j b q) (hi : i < c.numSenders)
    (hpc : (s.sender i).pc < .advanceNextQueueIndex ∨ .swapAbandonExchange < (s.sender i).pc) :
    (s.hand i).messageIndex ≠ b := by
  intro hhand
  obtain ⟨hlo, hhi, -⟩ := (h.spares i hi).holds hhand
  rcases hpc with hpc | hpc
  · exact absurd (lt_of_lt_of_le hpc hlo) (lt_irrefl _)
  · exact absurd (lt_of_lt_of_le hpc hhi) (lt_irrefl _)

variable {p : SenderProc}

theorem PinHolds.exchange {k : Nat} {value : Index} (h : PinHolds c s j b q)
    (hagrees : (s.sender i).Agrees c (s.memory.senders i)) (hi : i < c.numSenders)
    (hspares : ∀ k' < c.numSenders, SparesPinned ((s.store c i (.slot k value)).setSender i p) k' j b q)
    (hnext : senderNext c s i = some (p, .slot k value)) :
    PinHolds c ((s.store c i (.slot k value)).setSender i p) j b q := by
  obtain ⟨hpc, hk, hvalue, -, -⟩ := senderNext_slot hnext
  have hhand : (s.hand i).messageIndex ≠ b := h.hand_ne hi (.inl (by rw [hpc]; decide))
  have htrades := senderNext_trades hagrees hnext
  have hsize : 0 < c.queueSize := htrades.1.trans_le' (Nat.zero_le _)
  have hvalue' : value.messageIndex ≠ b := htrades.2.2.trans_ne hhand
  have hrecord : (s.record i).queueIndex % c.queueSize = k := by
    simp only [SenderProc.Agrees, hpc] at hagrees
    rw [hk, SenderProc.slot, wrapped, SenderProc.nextQueueIndex_count, hagrees.2.2.1, record]
  have hdrop : (s.history.sent ++ [s.record i]).drop (q + 1) = s.history.sent.drop (q + 1) ++ [s.record i] :=
    drop_append_of_le_length h.sent
  have hge := h.due_ge
  refine ⟨h.pinned, h.header, hspares, ?_, ?_, fun k' hk' => ?_, ?_⟩
  · simp only [setSender_history, store, length_append]
    exact h.sent.trans_le (Nat.le_add_right _ _)
  · simp only [setSender_history, store]
    by_cases heq : q % c.queueSize = k
    · rw [heq] at hge
      rw [heq, update_self]
      omega
    · rwa [update_of_ne heq]
  · simp only [setSender_memory, setSender_history, store, Memory.setSlot]
    by_cases heq : k' = k
    · subst heq
      rw [update_self, update_self]
      apply iff_of_false hvalue'
      rintro ⟨hslot, hdue⟩
      rw [← hslot] at hge
      omega
    · rw [update_of_ne heq, update_of_ne heq]
      exact h.slot k' hk'
  · simp only [setSender_history, store, hdrop, forall_mem_append, forall_mem_singleton, hrecord]
    by_cases heq : q % c.queueSize = k
    · subst heq
      rw [update_self]
      exact iff_of_false (by omega) (by simp)
    · rw [update_of_ne heq, h.latest]
      exact ⟨fun hall => ⟨hall, Ne.symm heq⟩, And.left⟩

/-- The message that a store goes to. -/
def Write.target : Write → Option Nat
  | .field k _ => some k
  | .queueIndex k _ => some k
  | _ => Option.none

theorem PinHolds.target_ne {w : Write} (h : PinHolds c s j b q)
    (hagrees : (s.sender i).Agrees c (s.memory.senders i)) (hi : i < c.numSenders)
    (hnext : senderNext c s i = some (p, w)) : w.target ≠ some b := by
  cases w with
  | field k store =>
    obtain ⟨-, -, -, hpc⟩ := senderNext_field hnext
    rw [senderNext_field_hand hagrees hnext, Write.target, Ne, Option.some.injEq]
    exact h.hand_ne hi (.inl (lt_trans hpc (by decide)))
  | queueIndex k value =>
    rw [senderNext_queueIndex_hand hagrees hnext, Write.target, Ne, Option.some.injEq]
    refine h.hand_ne hi ?_
    rcases senderNext_queueIndex hnext with ⟨hpc, -⟩ | ⟨hpc, -⟩
    · exact .inl (by rw [hpc]; decide)
    · exact .inr (by rw [hpc]; decide)
  | _ => simp [Write.target]

theorem Write.onMessages_of_target {w : Write} (messages : Nat → Message) (h : w.target ≠ some b) :
    w.onMessages messages b = messages b := by
  cases w with
  | field k store | queueIndex k value =>
    rw [target, Ne, Option.some.injEq] at h
    exact update_of_ne (Ne.symm h) _ _
  | _ => rfl

theorem PinHolds.sender {w : Write} (h : PinHolds c s j b q) (hagree : SendersAgree c s)
    (hseen : SwapsSeen c s) (hok : IndexNotReused s (.sender i)) (hj : j < c.numPinners)
    (hvalid : q ≠ invalid.index) (hi : i < c.numSenders) (hnext : senderNext c s i = some (p, w)) :
    PinHolds c ((s.store c i w).setSender i p) j b q := by
  have hspares : ∀ k < c.numSenders, SparesPinned ((s.store c i w).setSender i p) k j b q := by
    intro k hk
    by_cases hki : k = i
    · subst hki
      exact (h.spares k hk).next (hagree k hk).1 hok hj h.pinned hvalid h.header hnext
    · exact (h.spares k hk).other hki (hseen k hk)
  have hpinned : (((s.store c i w).setSender i p).memory.pinners j).pinned = q := by
    simp [h.pinned]
  have hheader : (((s.store c i w).setSender i p).memory.messages b).queueIndex = q := by
    rw [setSender_memory, store_messages, Write.onMessages_of_target _ (h.target_ne (hagree i hi).1 hi hnext),
      h.header]
  cases w with
  | slot k value => exact h.exchange (hagree i hi).1 hi hspares hnext
  | _ => exact h.congr hpinned hheader hspares rfl rfl rfl

theorem PinHolds.step {a : Action} (h : PinHolds c s j b q) (hagree : SendersAgree c s) (hseen : SwapsSeen c s)
    (hok : IndexNotReused s a) (hj : j < c.numPinners) (hvalid : q ≠ invalid.index)
    (hstep : step c s a = some s') (hkept : (s'.memory.pinners j).pinned = (s.memory.pinners j).pinned) :
    PinHolds c s' j b q := by
  have hpinned := hkept.trans h.pinned
  cases step_move hstep with
  | sender i p w ha hi hheld hnext => exact h.sender hagree hseen (ha ▸ hok) hj hvalid hi hnext
  | fill i offset byte hi hheld hpc =>
    have hne : b ≠ (s.sender i).data := by
      rw [← (hagree i hi).1.hand_data hpc]
      exact (h.hand_ne hi (.inl (by rw [hpc]; decide))).symm
    refine h.congr hpinned ?_ (fun k hk => (h.spares k hk).congr rfl rfl (fun _ => rfl) rfl) rfl rfl rfl
    simp [Write.onMessages, hne, h.header]
  | enter i t p hi hold hnew hfree hdied =>
    refine h.congr hpinned h.header (fun k hk => ?_) rfl rfl rfl
    by_cases hki : k = i
    · subst hki
      have hout : (s.sender k).pc.Outside := hold.elim id fun ht => .inl ((hagree k hk).2 ht)
      have hne : (s.hand k).messageIndex ≠ b :=
        h.hand_ne hk (.inl (by rcases hout with hpc | hpc <;> rw [hpc] <;> decide))
      refine ⟨fun hhand => absurd ?_ hne, fun hlo => ?_⟩
      · rw [← hhand]
        rw [hand_enter hout.not_exchanged hnew.not_exchanged]
      · simp only [setSender_sender, update_self] at hlo
        exact absurd (hlo.trans hnew.pc_le) (by decide)
    · exact (h.spares k hk).congr (by simp [hki]) (by simp [hand, hki]) (fun _ => rfl) rfl
  | kill i hi hheld =>
    exact h.congr hpinned h.header
      (fun k hk => (h.spares k hk).congr rfl (hand_kill k) (fun _ => rfl) rfl) rfl rfl rfl
  | pinner i x p hi hmove =>
    refine h.congr hpinned h.header (fun k hk => (h.spares k hk).congr rfl rfl (fun k' => ?_) rfl) rfl rfl rfl
    rw [movePinner_memory_pinners]
    by_cases hki : k' = i
    · rw [hki, update_self, hmove.scratchIndex]
    · rw [update_of_ne hki]
  | overrun k =>
    refine h.congr hpinned ?_ (fun k' hk' => (h.spares k' hk').congr rfl rfl (fun _ => rfl) rfl) rfl rfl rfl
    by_cases hkb : b = k
    · subst hkb
      simp [Memory.setMessage, h.header]
    · simp [Memory.setMessage, hkb, h.header]
  | _ =>
    exact h.congr hpinned h.header
      (fun k' hk' => (h.spares k' hk').congr rfl rfl (fun _ => rfl) rfl) rfl rfl rfl

theorem PinHolds.of_slot (hsound : Sound c s) (hsize : 0 < c.queueSize) (hlt : q < c.maxIndex)
    (hpinned : (s.memory.pinners j).pinned = q)
    (hdue : s.history.due (q % c.queueSize) = q + c.queueSize) :
    PinHolds c s j (s.memory.queue (q % c.queueSize)).messageIndex q := by
  have hslot : q % c.queueSize < c.queueSize := Nat.mod_lt _ hsize
  obtain ⟨hsent, hround, -⟩ := hsound.numbered.ring _ hslot
  refine ⟨hpinned, ?_, fun i hi => ⟨fun hhand => ?_, fun hlo hhi hb hcurrent _ => ?_⟩, by omega, hdue.ge,
    fun k hk => ⟨fun heq => ?_, fun ⟨heq, _⟩ => by rw [heq]⟩, iff_of_true hdue fun r hr hmod => ?_⟩
  · rw [hsound.numbered.header, hsound.numbered.number _ hslot, hdue, if_pos (Nat.le_add_left _ _),
      Nat.add_sub_cancel]
    exact Nat.mod_eq_of_lt hlt
  · exact absurd hhand.symm (hsound.owned.slot_ne_hand hslot hi)
  · have hindex : (s.sender i).pinnerIndex < c.numPinners := by
      have hagrees := (hsound.agree i hi).1
      cases hpc : (s.sender i).pc <;> simp only [SenderProc.Agrees, hpc] at hagrees <;> first
        | exact hagrees.2.2
        | exact absurd (hpc ▸ hlo) (by decide)
        | exact absurd (hpc ▸ hhi) (by decide)
    rw [← hcurrent] at hb
    exact absurd hb.symm (hsound.owned.slot_ne_pinner hslot hindex)
  · by_cases hkq : k = q % c.queueSize
    · exact ⟨hkq, hkq ▸ hdue⟩
    · exact absurd heq fun heq => hkq (by simpa using hsound.owned.injective (p := .slot ⟨k, hk⟩) (q := .slot ⟨_, hslot⟩) heq)
  · obtain ⟨n, hn, hget⟩ := getElem_of_mem hr
    rw [length_drop] at hn
    rw [getElem_drop] at hget
    have hindex := (hsound.numbered.records (q + 1 + n) r (by rw [getElem?_eq_some_iff]; exact ⟨by omega, hget⟩)).1
    rw [hindex, Nat.mod_mod_of_dvd _ queueSize_dvd_maxIndex] at hmod
    have := Ring.add_le_of_mod_eq hmod.symm (show q < q + 1 + n by omega)
    omega

end PinHolds

/-! ### What a pinner has seen -/

/-- The states of `PinIndex` in which the pin is published and the slot was loaded. -/
def PinPc.Found (pc : PinPc) : Prop := pc = .loadQueueIndex ∨ pc = .held

/-- What a pinner knows about the message it looks at. -/
structure PinnerSees (c : Configuration) (s : State) (j : Nat) : Prop where
  free : (s.memory.pinners j).tid = .free → (s.pinner j).pc = .idle
  regs : (s.pinner j).pc = .storePinned ∨ (s.pinner j).pc = .loadSlot ∨ (s.pinner j).pc.Found →
    0 < c.queueSize ∧ (s.pinner j).queueIndex.index = (s.pinner j).request % c.maxIndex ∧
      (s.pinner j).queueIndex.count = c.queueSize ∧ (s.pinner j).startedAt ≤ s.history.sent.length
  pinned : (s.pinner j).pc = .loadSlot ∨ (s.pinner j).pc.Found →
    (s.memory.pinners j).pinned = (s.pinner j).queueIndex.index
  seen : (s.pinner j).pc.Found →
    Seen c s (s.pinner j).request (s.pinner j).startedAt (s.pinner j).dueSeen (s.pinner j).messageIndex.messageIndex
  holds : (s.pinner j).pc.Found → (s.pinner j).request < c.maxIndex →
    (s.pinner j).dueSeen = (s.pinner j).request + c.queueSize →
    PinHolds c s j (s.pinner j).messageIndex.messageIndex (s.pinner j).request
  result : (s.pinner j).pc = .held → (s.pinner j).result = (s.pinner j).messageIndex.messageIndex ∧
    ((s.pinner j).request < (s.pinner j).startedAt + c.queueSize →
      (s.pinner j).request < c.maxIndex ∧ (s.pinner j).dueSeen = (s.pinner j).request + c.queueSize)

theorem Configuration.ne_invalid_of_lt {q : Nat} (hmax : c.Indexable) (hsize : 0 < c.queueSize)
    (hlt : q < c.maxIndex) : q ≠ invalid.index := by
  rw [← Nat.mod_eq_of_lt hlt]
  exact (mod_maxIndex_lt hmax hsize q).ne

theorem step_pinner (j : Nat) (hstep : step c s a = some s') :
    ((s'.memory.pinners j).pinned = (s.memory.pinners j).pinned ∧
        (s'.memory.pinners j).tid = (s.memory.pinners j).tid ∧ s'.pinner j = s.pinner j) ∨
      ∃ x p, PinnerMove c s a j x p ∧ s' = s.movePinner j x p := by
  cases step_move hstep with
  | pinner i x p hi hmove =>
    by_cases hij : i = j
    · subst hij
      exact .inr ⟨x, p, hmove, rfl⟩
    · exact .inl (by simp [Ne.symm hij])
  | sender | fill => exact .inl (by simp)
  | _ => exact .inl ⟨rfl, rfl, rfl⟩

section PinnerSees

variable {j : Nat}

/-- The facts about the message survive every step that leaves the pin and the local state. -/
theorem PinnerSees.keep {a : Action} (hmax : c.Indexable) (h : PinnerSees c s j)
    (hj : j < c.numPinners) (hsound : Sound c s) (hseen : SwapsSeen c s) (hreused : IndexNotReused s a)
    (hok : InOrder c s a) (hstep : step c s a = some s')
    (hpinned : (s'.memory.pinners j).pinned = (s.memory.pinners j).pinned) (hpinner : s'.pinner j = s.pinner j)
    (hfree : (s'.memory.pinners j).tid = .free → (s.pinner j).pc = .idle) : PinnerSees c s' j := by
  refine ⟨?_, ?_, ?_, ?_, ?_, ?_⟩
  · rw [hpinner]
    exact hfree
  · rw [hpinner]
    intro hpc
    obtain ⟨hsize, hindex, hcount, hstarted⟩ := h.regs hpc
    exact ⟨hsize, hindex, hcount, hstarted.trans (step_extends_sent hstep).length_le⟩
  · rw [hpinner, hpinned]
    exact h.pinned
  · rw [hpinner]
    exact fun hpc => (h.seen hpc).step hsound (h.regs (.inr (.inr hpc))).1 hok hstep
  · rw [hpinner]
    intro hpc hlt hdue
    have hvalid := ne_invalid_of_lt hmax (h.regs (.inr (.inr hpc))).1 hlt
    exact (h.holds hpc hlt hdue).step hsound.agree hseen hreused hj hvalid hstep hpinned
  · rw [hpinner]
    exact h.result

theorem PinnerSees.outside (hfree : (s.memory.pinners j).tid = .free → (s.pinner j).pc = .idle)
    (hpc : (s.pinner j).pc = .idle ∨ (s.pinner j).pc = .unpin ∨ (s.pinner j).pc = .releasePinned ∨
      (s.pinner j).pc = .releaseTid) : PinnerSees c s j := by
  have hfound : ¬ (s.pinner j).pc.Found := by
    rcases hpc with hpc | hpc | hpc | hpc <;> simp [PinPc.Found, hpc]
  refine ⟨hfree, fun h => ?_, fun h => ?_, fun h => absurd h hfound, fun h => absurd h hfound,
    fun h => absurd (.inr h) hfound⟩ <;>
  rcases hpc with hpc | hpc | hpc | hpc <;> simp [PinPc.Found, hpc] at h

theorem pinnerSees_initial : PinnerSees c (initialState c) j := .outside (fun _ => rfl) (.inl rfl)

theorem PinnerSees.call {queueIndex : Nat} (hmax : c.Indexable) (hword : queueIndex < 2 ^ 32)
    (hsize : 0 < c.queueSize) (hheld : (s.memory.pinners j).tid = .held) :
    PinnerSees c (s.movePinner j (s.memory.pinners j) { s.pinner j with
      request := queueIndex
      queueIndex := (zero c.queueSize).incrementBy queueIndex
      startedAt := s.history.sent.length
      pc := .storePinned }) j := by
  constructor <;> simp only [movePinner_memory_pinners, movePinner_pinner, movePinner_history, update_self, PinPc.Found]
  case regs =>
    have hindex := incrementBy_index hword (maxIndex_pos hmax hsize)
    rw [Nat.zero_add] at hindex
    exact fun _ => ⟨hsize, hindex, by rw [incrementBy_count, zero], le_rfl⟩
  all_goals simp [hheld]

theorem PinnerSees.storePinned (h : PinnerSees c s j) (hpc : (s.pinner j).pc = .storePinned) :
    PinnerSees c (s.movePinner j { s.memory.pinners j with pinned := (s.pinner j).queueIndex.index }
      { s.pinner j with pc := .loadSlot }) j := by
  constructor <;> simp only [movePinner_memory_pinners, movePinner_pinner, movePinner_history, update_self, PinPc.Found]
  case free => exact fun ht => absurd (h.free ht) (by simp [hpc])
  case regs => exact fun _ => h.regs (.inl hpc)
  all_goals simp

section Moves

variable {a : Action} {p : PinnerProc} (hmax : c.numMessages ≤ Index.maxMessages) (h : PinnerSees c s j)
  (hj : j < c.numPinners) (hsound : Sound c s) (hseen : SwapsSeen c s) (hreused : IndexNotReused s a)
  (hok : InOrder c s a) (hstep : step c s a = some (s.movePinner j (s.memory.pinners j) p))

include hmax h hj hsound hseen hreused hok hstep

theorem PinnerSees.loadSlot (hpc : (s.pinner j).pc = .loadSlot)
    (hp : p = { s.pinner j with
      messageIndex := s.memory.queue (s.pinner j).queueIndex.wrapped
      dueSeen := s.history.due (s.pinner j).queueIndex.wrapped
      pc := .loadQueueIndex }) : PinnerSees c (s.movePinner j (s.memory.pinners j) p) j := by
  obtain ⟨hsize, hindex, hcount, hstarted⟩ := h.regs (.inr (.inl hpc))
  have hwrapped : (s.pinner j).queueIndex.wrapped = (s.pinner j).request % c.queueSize := by
    rw [wrapped, hindex, hcount, Nat.mod_mod_of_dvd _ queueSize_dvd_maxIndex]
  rw [hwrapped] at hp
  subst hp
  constructor <;> simp only [movePinner_memory_pinners, movePinner_pinner, update_self]
  case free => exact fun ht => absurd (h.free ht) (by simp [hpc])
  case regs => exact fun _ => ⟨hsize, hindex, hcount, hstarted⟩
  case pinned => exact fun _ => h.pinned (.inl hpc)
  case seen => exact fun _ => (Seen.load hsound hsize hstarted).step hsound hsize hok hstep
  case holds =>
    intro _ hlt hdue
    have hvalid := ne_invalid_of_lt hmax hsize hlt
    have hpinned := (h.pinned (.inl hpc)).trans (hindex.trans (Nat.mod_eq_of_lt hlt))
    exact (PinHolds.of_slot hsound hsize hlt hpinned hdue).step hsound.agree hseen hreused hj hvalid hstep (by simp)
  case result => simp

theorem PinnerSees.accept (hfew : Few c s) (hpc : (s.pinner j).pc = .loadQueueIndex)
    (hheader : (s.memory.messages (s.pinner j).messageIndex.messageIndex).queueIndex = (s.pinner j).queueIndex.index)
    (hp : p = { s.pinner j with result := (s.pinner j).messageIndex.messageIndex, pc := .held }) :
    PinnerSees c (s.movePinner j (s.memory.pinners j) p) j := by
  obtain ⟨hsize, hindex, hcount, hstarted⟩ := h.regs (.inr (.inr (.inl hpc)))
  have hseen' := h.seen (.inl hpc)
  subst hp
  constructor <;> simp only [movePinner_memory_pinners, movePinner_pinner, update_self]
  case free => exact fun ht => absurd (h.free ht) (by simp [hpc])
  case regs => exact fun _ => ⟨hsize, hindex, hcount, hstarted⟩
  case pinned => exact fun _ => h.pinned (.inr (.inl hpc))
  case seen => exact fun _ => hseen'.step hsound hsize hok hstep
  case holds =>
    intro _ hlt hdue
    have hvalid := ne_invalid_of_lt hmax hsize hlt
    exact (h.holds (.inl hpc) hlt hdue).step hsound.agree hseen hreused hj hvalid hstep (by simp)
  case result =>
    refine fun _ => ⟨trivial, fun hstart => ?_⟩
    obtain ⟨hlt, hdue, -⟩ :=
      hseen'.number_of_header hmax hsound hfew hsize hstarted hstart (hheader.trans hindex)
    exact ⟨hlt, hdue⟩

end Moves

theorem PinnerSees.step {a : Action} (hmax : c.Indexable) (h : PinnerSees c s j)
    (hj : j < c.numPinners) (hsound : Sound c s) (hseen : SwapsSeen c s) (hreused : IndexNotReused s a)
    (hok : InOrder c s a) (hfew : Few c s) (hstep : step c s a = some s') : PinnerSees c s' j := by
  rcases step_pinner j hstep with ⟨hpinned, htid, hpinner⟩ | ⟨x, p, hmove, rfl⟩
  · exact h.keep hmax hj hsound hseen hreused hok hstep hpinned hpinner (by rw [htid]; exact h.free)
  · cases hmove with
    | kill hheld => exact h.keep hmax hj hsound hseen hreused hok hstep (by simp) (by simp) (by simp)
    | call queueIndex ha hword hsize hheld hpc => exact .call hmax hword hsize hheld
    | storePinned hpc => exact h.storePinned hpc
    | loadSlot hpc => exact .loadSlot hmax h hj hsound hseen hreused hok hstep hpc rfl
    | pinned hpc hheader => exact .accept hmax h hj hsound hseen hreused hok hstep hfew hpc hheader rfl
    | make | releaseTid => exact .outside (by simp) (by simp)
    | release ha hheld hpc => exact .outside (by simp [hheld]) (by simp)
    | reused hpc | unpin hpc | releasePinned hpc =>
      refine .outside ?_ (by simp)
      have hfree : (s.memory.pinners j).tid ≠ .free := fun ht => by simp [h.free ht] at hpc
      simp [hfree]

end PinnerSees

theorem Run.swapsSeen {ok : State → Action → Prop} (h : Run c ok (initialState c) s) : SwapsSeen c s :=
  h.invariant (fun _ _ _ hu _ hstep => hu.step hstep) swapsSeen_initial

theorem Run.pinnerSees (hmax : c.Indexable) (h : Run c IndexNotReused (initialState c) s)
    (hfew : Few c s) (hj : j < c.numPinners) : PinnerSees c s j := by
  have hall : Sound c s ∧ SwapsSeen c s ∧ PinnerSees c s j :=
    h.invariant_until (P := fun u => Sound c u ∧ SwapsSeen c u ∧ PinnerSees c u j) (Q := Few c)
      (fun _ _ _ hstep hv => hv.of_step hstep)
      (fun _ _ _ hu hok hstep hv => by
        have hinOrder := inOrder_of_few hu.1.numbered hok hstep hv
        exact ⟨hu.1.step hmax hinOrder hstep, hu.2.1.step hstep,
          hu.2.2.step hmax hj hu.1 hu.2.1 hok hinOrder (hv.of_step hstep) hstep⟩)
      ⟨sound_initial hmax, swapsSeen_initial, pinnerSees_initial⟩ hfew
  exact hall.2.2

/-- The pinner goes on holding its pin: it does not pin again and is not destroyed. -/
def StaysPinned (j : Nat) (s : State) (a : Action) : Prop := IndexNotReused s a ∧ ¬ a.Unpins j

instance (j : Nat) (s : State) (a : Action) : Decidable (StaysPinned j s a) := inferInstanceAs (Decidable (_ ∧ _))

theorem step_staysPinned (hheld : (s.pinner j).pc = .held)
    (htid : (s.memory.pinners j).tid ≠ .free) (hstays : StaysPinned j s a) (hstep : step c s a = some s') :
    (s'.memory.pinners j).pinned = (s.memory.pinners j).pinned ∧ (s'.memory.pinners j).tid ≠ .free ∧
      s'.pinner j = s.pinner j := by
  rcases step_pinner j hstep with ⟨hpinned, htid', hpinner⟩ | ⟨x, p, hmove, rfl⟩
  · exact ⟨hpinned, by rwa [htid'], hpinner⟩
  · cases hmove with
    | make hfree => exact absurd hfree htid
    | release ha | call queueIndex ha => exact absurd (ha ▸ rfl) hstays.2
    | kill => simp
    | _ hpc => simp [hheld] at hpc

theorem Run.pinHolds {s₁ s₂ : State} {b q : Nat} (hagree : SendersAgree c s₁) (hseen : SwapsSeen c s₁)
    (hj : j < c.numPinners) (hvalid : q ≠ invalid.index) (hheld : (s₁.pinner j).pc = .held)
    (htid : (s₁.memory.pinners j).tid ≠ .free) (hholds : PinHolds c s₁ j b q) (hrun : Run c (StaysPinned j) s₁ s₂) :
    SendersAgree c s₂ ∧ PinHolds c s₂ j b q ∧ (s₂.memory.messages b).body = (s₁.memory.messages b).body := by
  have hall := hrun.invariant (P := fun u => SendersAgree c u ∧ SwapsSeen c u ∧
      ((u.pinner j).pc = .held ∧ (u.memory.pinners j).tid ≠ .free) ∧ PinHolds c u j b q ∧
      (u.memory.messages b).body = (s₁.memory.messages b).body)
    (fun u _ v ⟨hagree, hseen, ⟨hheld, htid⟩, hholds, hbody⟩ hstays hstep => by
      obtain ⟨hpinned, htid', hpinner⟩ := step_staysPinned hheld htid hstays hstep
      exact ⟨hagree.step hstep, hseen.step hstep, ⟨by rwa [hpinner], htid'⟩,
        hholds.step hagree hseen hstays.1 hj hvalid hstep hpinned, (step_body hagree
          (fun _ hi hpc => (hholds.hand_ne hi (.inl (lt_of_le_of_lt hpc (by decide)))).symm) hstep).trans hbody⟩)
    ⟨hagree, hseen, ⟨hheld, htid⟩, hholds, rfl⟩
  exact ⟨hall.1, hall.2.2.2⟩

/-- What `PinIndex` returned, when it was asked for an index at most `queueSize` past the newest one. -/
theorem PinnerSees.pinHolds (h : PinnerSees c s j) (hheld : (s.pinner j).pc = .held)
    (hstart : (s.pinner j).request < (s.pinner j).startedAt + c.queueSize) :
    0 < c.queueSize ∧ (s.pinner j).request < c.maxIndex ∧ (s.memory.pinners j).tid ≠ .free ∧
      PinHolds c s j (s.pinner j).messageIndex.messageIndex (s.pinner j).request := by
  obtain ⟨-, hresult⟩ := h.result hheld
  obtain ⟨hlt, hdue⟩ := hresult hstart
  refine ⟨(h.regs (.inr (.inr (.inr hheld)))).1, hlt, fun hfree => ?_, h.holds (.inr hheld) hlt hdue⟩
  simp [h.free hfree] at hheld

theorem PinnerSees.record (hmax : c.Indexable) (h : PinnerSees c s j)
    (hsound : Sound c s) (hcontents : Contents c s) (hfew : Few c s) (hheld : (s.pinner j).pc = .held)
    (hstart : (s.pinner j).request < (s.pinner j).startedAt + c.queueSize) :
    ∃ r, s.history.sent[(s.pinner j).request]? = some r ∧ r.queueIndex = (s.pinner j).request ∧
      (s.memory.messages (s.pinner j).messageIndex.messageIndex).body = r.message.body ∧
      r.message.data = r.payload := by
  obtain ⟨hsize, hlt, -, hholds⟩ := h.pinHolds hheld hstart
  have hseen := h.seen (.inr hheld)
  have hstarted := (h.regs (.inr (.inr (.inr hheld)))).2.2.2
  obtain ⟨-, hdue, hnumber⟩ := hseen.number_of_header hmax hsound hfew hsize hstarted hstart
    (hholds.header.trans (Nat.mod_eq_of_lt hlt).symm)
  have hle : c.queueSize ≤ (s.pinner j).dueSeen := by omega
  have hn : (s.pinner j).dueSeen - c.queueSize = (s.pinner j).request := by omega
  obtain ⟨r, hr, -⟩ := hseen.record hle
  have hbody := hseen.body hcontents hle (by rw [hn, hnumber]) hr
  rw [hn] at hr
  refine ⟨r, hr, ?_, hbody, (hcontents.records _ r hr).1.data⟩
  rw [(hsound.numbered.records _ r hr).1, Nat.mod_eq_of_lt hlt]

section Results

variable {s₁ s₂ : State} {j : Nat}

end Results

def onePinner : Configuration := ⟨2, 1, 1, 8⟩

private def smallArgs : SendArgs := ⟨8, 0, 0, 0, Vector.replicate 16 0⟩

private def sendAndPin : List Action :=
  [.makeSender 0, .makePinner 0, .send 0 smallArgs] ++ replicate 23 (.sender 0) ++
    [.pinIndex 0 0, .pinner 0, .pinner 0, .pinner 0]

section Data

variable {s₁ s₂ : State} {j : Nat}

/-- `Data` of a pinner: it looks the pinned index up again in the queue and returns a pointer into the
message that it finds there. -/
def pinnerData (c : Configuration) (m : Memory) (j : Nat) : Option Nat :=
  let pinned : QueueIndex := ⟨(m.pinners j).pinned, c.queueSize⟩
  if pinned.Valid then some (m.queue pinned.wrapped).messageIndex else none

/-- `Data` finds the pinned message exactly as long as no later message was sent into its slot. -/
theorem data_pinned_iff (hmax : c.numMessages ≤ Index.maxMessages)
    (hrun₁ : Run c IndexNotReused (initialState c) s₁) (hfew : Few c s₁) (hj : j < c.numPinners)
    (hheld : (s₁.pinner j).pc = .held) (hstart : (s₁.pinner j).request < (s₁.pinner j).startedAt + c.queueSize)
    (hrun₂ : Run c (StaysPinned j) s₁ s₂) :
    (∃ (b : Nat) (r : SendRecord), (s₁.pinner j).result = b ∧ pinnerData c s₂.memory j = some b ∧
        s₂.history.sent[(s₁.pinner j).request]? = some r ∧ r.queueIndex = (s₁.pinner j).request ∧
        (s₂.memory.messages b).data = r.payload) ↔
      ∀ r ∈ s₂.history.sent.drop ((s₁.pinner j).request + 1),
        r.queueIndex % c.queueSize ≠ (s₁.pinner j).request % c.queueSize := by
  have hsees := Run.pinnerSees hmax hrun₁ hfew hj
  obtain ⟨hsound, hcontents, -⟩ := Run.readersSee hmax hrun₁ hfew
  obtain ⟨hsize, hlt, htid, hholds⟩ := hsees.pinHolds hheld hstart
  have hvalid := ne_invalid_of_lt hmax hsize hlt
  obtain ⟨-, hholds', hbody⟩ :=
    Run.pinHolds hsound.agree (Run.swapsSeen hrun₁) hj hvalid hheld htid hholds hrun₂
  obtain ⟨r, hr, hindex, hrecord, hpayload⟩ := hsees.record hmax hsound hcontents hfew hheld hstart
  have hdata : pinnerData c s₂.memory j =
      some (s₂.memory.queue ((s₁.pinner j).request % c.queueSize)).messageIndex := by
    simp only [pinnerData, hholds'.pinned, wrapped]
    exact if_pos hvalid
  have hslot := hholds'.slot _ (Nat.mod_lt (s₁.pinner j).request hsize)
  have hresult := (hsees.result hheld).1
  rw [← hholds'.latest, hdata]
  refine ⟨?_, fun hdue => ?_⟩
  · rintro ⟨b, r', hb, hfound, _⟩
    have hb' : (s₁.pinner j).messageIndex.messageIndex = b := by exact_mod_cast hresult.symm.trans hb
    exact (hslot.mp ((Option.some.inj hfound).trans hb'.symm)).2
  · refine ⟨_, r, hresult, by rw [hslot.mpr ⟨rfl, hdue⟩], getElem?_of_extends (Run.extends_sent hrun₂) hr, hindex,
      ?_⟩
    rw [← hpayload]
    have hsame := congrArg Message.data (hbody.trans hrecord)
    exact hsame

end Data

/-- `Data` right after the pin. -/
theorem data_pinned_at_first : ∃ (s : State) (b : Nat) (r : SendRecord), (s.pinner 0).result = b ∧
    pinnerData onePinner s.memory 0 = some b ∧ s.history.sent[0]? = some r ∧
    (s.memory.messages b).data = r.payload := by
  have hexec : ∃ s, Run onePinner IndexNotReused (initialState onePinner) s ∧ (Few onePinner s ∧
      (s.pinner 0).pc = .held ∧ (s.pinner 0).request = 0 ∧ (s.pinner 0).startedAt = 1 ∧ s.history.sent.drop 1 = []) :=
    exists_of_exec sendAndPin (by decide +kernel)
  obtain ⟨s, hrun, hfew, hheld, hrequest, hstarted, hlatest⟩ := hexec
  obtain ⟨b, r, hresult, hdata, hr, -, hpayload⟩ := (data_pinned_iff (by decide) hrun hfew (by decide) hheld
    (by rw [hrequest, hstarted]; decide) .refl).mpr (by simp [hrequest, hlatest])
  rw [hrequest] at hr
  exact ⟨s, b, r, hresult, hdata, hr, hpayload⟩

/-- After the next send `Data` points to the message of that send. -/
theorem data_pinned_after_wrap : ∃ (s₁ s₂ : State) (b b' : Nat),
    Run onePinner IndexNotReused (initialState onePinner) s₁ ∧ Run onePinner (StaysPinned 0) s₁ s₂ ∧
    (s₁.pinner 0).pc = .held ∧ (s₁.pinner 0).request = 0 ∧ (s₁.pinner 0).startedAt = 1 ∧
    s₂.history.sent.length = 2 ∧ (s₁.pinner 0).result = b ∧ pinnerData onePinner s₂.memory 0 = some b' ∧ b' ≠ b ∧
    (s₂.memory.messages b).data 0 = 0 ∧ (s₂.memory.messages b').data 0 = 42 := by
  apply Exists.imp (fun s₁ => Exists.imp fun s₂ h => ⟨1, 0, h⟩)
  exact exists_of_exec_exec sendAndPin ([.data 0, .writeData 0 0 42, .send 0 smallArgs] ++
    replicate 30 (.sender 0)) (by decide +kernel)

end RobotCode.IpcLib
