import RobotCode.IpcLib.Frame

/-!
# Every message is owned exactly once

A message buffer is always in one place: in a queue slot, parked with a pinner, or in the hand of a
sender. A successful compare-exchange trades the message in the sender's hand for the one in the slot,
and the two stores around it only move the record of that trade between `toReplace` and
`scratchIndex`. So the assignment of messages to places changes by transpositions and stays a
bijection, whatever the interleaving and whoever stops where.
-/

namespace RobotCode.IpcLib

variable {c : Configuration} {s s' : State} {i : Nat}

/-- The exchange of the sender has succeeded, and `scratchIndex` does not say so yet. -/
def SendPc.Exchanged (pc : SendPc) : Prop :=
  pc = .advanceNextQueueIndex ∨ pc = .adoptScratch ∨ pc = .swapAdoptScratch

instance (pc : SendPc) : Decidable pc.Exchanged := inferInstanceAs (Decidable (_ ∨ _))

/-- What the slot of a sender holds at each point of `Send`, and the ranges of its local indices. -/
def SenderProc.Agrees (c : Configuration) (p : SenderProc) (x : Sender) : Prop :=
  match p.pc with
  | .idle | .loadScratch => x.toReplace = .invalid
  | .filling => x.toReplace = .invalid ∧ x.scratchIndex.messageIndex = p.data
  | .checkRedzones | .storeLength | .storeRemoteQueueIndex | .storeSourceBootUuid
  | .storeMonotonicRemoteTime | .storeRealtimeRemoteTime | .loadNextQueueIndex =>
    x.toReplace = .invalid ∧ x.scratchIndex.messageIndex = p.scratch.messageIndex
  | .loadToReplace =>
    x.toReplace = .invalid ∧ x.scratchIndex.messageIndex = p.scratch.messageIndex ∧
      p.actual.count = c.queueSize
  | .fixNextQueueIndex | .loadPreviousIndex | .storeMonotonicSentTime | .storeRealtimeSentTime
  | .loadMonotonicSentTime | .loadRealtimeSentTime | .storeScratchIndex | .storeQueueIndex | .storeToReplace =>
    x.toReplace = .invalid ∧ x.scratchIndex.messageIndex = p.scratch.messageIndex ∧
      p.actual.count = c.queueSize ∧ 0 < c.queueSize
  | .exchange | .abandonExchange | .advanceNextQueueIndex | .adoptScratch =>
    x.toReplace = p.toReplace ∧ x.scratchIndex.messageIndex = p.scratch.messageIndex ∧
      p.actual.count = c.queueSize ∧ 0 < c.queueSize
  | .clearToReplace => x.toReplace = p.toReplace ∧ x.scratchIndex = p.toReplace
  | .swapLoadQueueIndex | .swapScan =>
    x.toReplace = .invalid ∧ x.scratchIndex = p.toReplace ∧ (0 < c.numPinners → p.pinnerIndex < c.numPinners)
  | .swapLoadPinnerScratch | .swapLoadPinnerQueueIndex | .swapPinnerScan | .swapStoreToReplace =>
    x.toReplace = .invalid ∧ x.scratchIndex = p.toReplace ∧ p.pinnerIndex < c.numPinners
  | .swapExchange | .swapAbandonExchange | .swapAdoptScratch =>
    x.toReplace = p.pinnerScratch ∧ x.scratchIndex = p.toReplace ∧ p.pinnerIndex < c.numPinners
  | .swapClearToReplace => x.toReplace = p.pinnerScratch ∧ x.scratchIndex = p.pinnerScratch
  | .invalidateQueueIndex => x.toReplace = .invalid ∧ x.scratchIndex = p.newScratch

def SendersAgree (c : Configuration) (s : State) : Prop :=
  ∀ i < c.numSenders, (s.sender i).Agrees c (s.memory.senders i) ∧
    ((s.memory.senders i).tid = .free → (s.sender i).pc = .idle)

theorem Index.messageIndex_lt (x : Index) : x.messageIndex < 2 ^ 16 := by
  rw [messageIndex, and_low]
  exact Nat.mod_lt _ (by decide)

@[simp] theorem SenderProc.messageIndex_indexToWrite (p : SenderProc) :
    p.indexToWrite.messageIndex = p.scratch.messageIndex :=
  Index.messageIndex_ofParts _ p.scratch.messageIndex_lt

open SenderProc

@[simp] theorem SenderProc.nextQueueIndex_count (p : SenderProc) : p.nextQueueIndex.count = p.actual.count := by
  rw [nextQueueIndex, zeroOrValid]
  split <;> rfl

variable {p : SenderProc} {a : Action}

theorem SenderProc.slot_lt (hcount : p.actual.count = c.queueSize) (hsize : 0 < c.queueSize) :
    p.slot < c.queueSize := by
  rw [slot, QueueIndex.wrapped, nextQueueIndex_count, hcount]
  exact Nat.mod_lt _ hsize

theorem senderNext_agrees {w : Write} (hagrees : (s.sender i).Agrees c (s.memory.senders i))
    (hnext : senderNext c s i = some (p, w)) : p.Agrees c (w.onSender (s.memory.senders i)) := by
  have hmod : ∀ n, 0 < c.numPinners → n % c.numPinners < c.numPinners := fun n => Nat.mod_lt n
  cases hpc : (s.sender i).pc <;> simp only [senderNext, hpc] at hnext <;>
    simp only [SenderProc.Agrees, hpc] at hagrees
  all_goals
    repeat' split at hnext
    all_goals cases hnext <;> simp_all [SenderProc.Agrees, Write.onSender] <;> omega

theorem sendersAgree_initial : SendersAgree c (initialState c) := fun _ _ => ⟨rfl, fun _ => rfl⟩

theorem SendersAgree.step (h : SendersAgree c s) (hstep : step c s a = some s') : SendersAgree c s' := by
  intro k hk
  obtain ⟨hagrees, hfree⟩ := h k hk
  cases step_move hstep with
  | sender i p w _ hi hheld hnext =>
    by_cases hki : k = i
    · subst hki
      refine ⟨by simpa using senderNext_agrees hagrees hnext, fun htid => ?_⟩
      simp [hheld] at htid
    · simpa [hki] using ⟨hagrees, hfree⟩
  | fill i offset byte hi hheld hpc => simpa [Write.onSender] using ⟨hagrees, hfree⟩
  | enter i t p hi hold hnew htid hdied =>
    by_cases hki : k = i
    · subst hki
      have hpc : (s.sender k).pc.Outside := hold.elim id fun ht => .inl (hfree ht)
      have hempty : (s.memory.senders k).toReplace = .invalid := by
        rcases hpc with hpc | hpc <;> simp only [SenderProc.Agrees, hpc] at hagrees
        · exact hagrees
        · exact hagrees.1
      rcases hnew with hnew | ⟨hnew, hdata⟩ | ⟨hnew, -⟩ <;>
        simp_all [SenderProc.Agrees]
    · simpa [hki] using ⟨hagrees, hfree⟩
  | kill i hi hheld =>
    by_cases hki : k = i
    · subst hki
      simpa [SenderProc.Agrees] using hagrees
    · simpa [hki] using ⟨hagrees, hfree⟩
  | pinner | read | reader | clock | overrun => exact ⟨hagrees, hfree⟩

theorem Run.sendersAgree {ok : State → Action → Prop} (h : Run c ok (initialState c) s) : SendersAgree c s :=
  h.invariant (fun _ _ _ hu _ hstep => hu.step hstep) sendersAgree_initial

inductive Place (c : Configuration) where
  | slot (j : Fin c.queueSize)
  | pinner (p : Fin c.numPinners)
  | hand (i : Fin c.numSenders)
  deriving DecidableEq

/-- The message a sender holds: `toReplace` from its exchange until `scratchIndex` is overwritten, else `scratchIndex`. -/
def SenderProc.hand (p : SenderProc) (x : Sender) : Index :=
  if p.pc.Exchanged then x.toReplace else x.scratchIndex

def State.hand (s : State) (i : Nat) : Index := (s.sender i).hand (s.memory.senders i)

def State.owned (s : State) : Place c → Nat
  | .slot j => (s.memory.queue j).messageIndex
  | .pinner p => (s.memory.pinners p).scratchIndex.messageIndex
  | .hand i => (s.hand i).messageIndex

def Owned (c : Configuration) (s : State) : Prop :=
  ∃ e : Place c ≃ Fin c.numMessages, ∀ place : Place c, s.owned place = e place

theorem Owned.existsUnique (h : Owned c s) {m : Nat} (hm : m < c.numMessages) :
    ∃! place : Place c, s.owned place = m := by
  obtain ⟨e, he⟩ := h
  refine ⟨e.symm ⟨m, hm⟩, by simp [he], fun place hplace => ?_⟩
  rw [Equiv.eq_symm_apply]
  exact Fin.ext ((he place).symm.trans hplace)

theorem Owned.injective (h : Owned c s) {p q : Place c} (heq : s.owned p = s.owned q) : p = q := by
  obtain ⟨e, he⟩ := h
  rw [he, he] at heq
  exact e.injective (Fin.ext heq)

theorem Owned.lt (h : Owned c s) (place : Place c) : s.owned place < c.numMessages := by
  obtain ⟨e, he⟩ := h
  rw [he]
  exact (e place).isLt

section Distinct

variable (h : Owned c s) {j k : Nat}

include h

theorem Owned.slot_ne_hand (hj : j < c.queueSize) (hi : i < c.numSenders) :
    (s.memory.queue j).messageIndex ≠ (s.hand i).messageIndex :=
  fun heq => absurd (h.injective (p := .slot ⟨j, hj⟩) (q := .hand ⟨i, hi⟩) heq) (by simp)

theorem Owned.slot_ne_pinner (hj : j < c.queueSize) (hi : i < c.numPinners) :
    (s.memory.queue j).messageIndex ≠ (s.memory.pinners i).scratchIndex.messageIndex :=
  fun heq => absurd (h.injective (p := .slot ⟨j, hj⟩) (q := .pinner ⟨i, hi⟩) heq) (by simp)

theorem Owned.pinner_ne_hand (hk : k < c.numPinners) (hi : i < c.numSenders) :
    (s.memory.pinners k).scratchIndex.messageIndex ≠ (s.hand i).messageIndex :=
  fun heq => absurd (h.injective (p := .pinner ⟨k, hk⟩) (q := .hand ⟨i, hi⟩) heq) (by simp)

theorem Owned.hand_ne_hand (hi : i < c.numSenders) (hk : k < c.numSenders) (hne : k ≠ i) :
    (s.hand k).messageIndex ≠ (s.hand i).messageIndex :=
  fun heq => hne (by simpa using h.injective (p := .hand ⟨k, hk⟩) (q := .hand ⟨i, hi⟩) heq)

end Distinct

def Place.initial : Place c → Nat
  | .slot j => j
  | .hand i => i + c.queueSize
  | .pinner p => p + c.numSenders + c.queueSize

theorem owned_initial (hmax : c.Indexable) : Owned c (initialState c) := by
  simp only [Configuration.Indexable, Configuration.numMessages, Index.maxMessages] at hmax
  have hplace : ∀ place : Place c, State.owned (initialState c) place = place.initial := by
    intro place
    cases place with
    | slot | pinner | hand => exact Index.messageIndex_ofParts _ (by omega)
  have hlt : ∀ place : Place c, State.owned (initialState c) place < c.numMessages := by
    intro place
    rw [hplace, Configuration.numMessages]
    cases place <;> dsimp only [Place.initial] <;> omega
  refine ⟨Equiv.ofBijective (fun place => ⟨State.owned (initialState c) place, hlt place⟩) ⟨?_, ?_⟩, fun _ => rfl⟩
  · intro place place' heq
    have hval := congrArg Fin.val heq
    simp only [hplace] at hval
    cases place <;> cases place' <;> simp only [Place.initial, Place.slot.injEq, Place.pinner.injEq, Place.hand.injEq,
      reduceCtorEq, Fin.ext_iff] at hval ⊢ <;> omega
  · rintro ⟨m, hm⟩
    rw [Configuration.numMessages] at hm
    rcases Nat.lt_or_ge m c.queueSize with hslot | hslot
    · exact ⟨.slot ⟨m, hslot⟩, Fin.ext (hplace (.slot ⟨m, hslot⟩))⟩
    rcases Nat.lt_or_ge m (c.numSenders + c.queueSize) with hhand | hhand
    · have hval : State.owned (initialState c) (.hand ⟨m - c.queueSize, by omega⟩ : Place c) = m := by
        rw [hplace]
        dsimp only [Place.initial]
        omega
      exact ⟨.hand ⟨m - c.queueSize, by omega⟩, Fin.ext hval⟩
    · have hval : State.owned (initialState c) (.pinner ⟨m - c.numSenders - c.queueSize, by omega⟩ : Place c) = m := by
        rw [hplace]
        dsimp only [Place.initial]
        omega
      exact ⟨.pinner ⟨m - c.numSenders - c.queueSize, by omega⟩, Fin.ext hval⟩

@[simp] theorem hand_store_self (p : SenderProc) (w : Write) :
    ((s.store c i w).setSender i p).hand i = p.hand (w.onSender (s.memory.senders i)) := by
  simp [State.hand]

theorem hand_store_of_ne {k : Nat} (hk : k ≠ i) (p : SenderProc) (w : Write) :
    ((s.store c i w).setSender i p).hand k = s.hand k := by
  simp [State.hand, hk]

/-- A store moves messages only by giving away what the sender held for what it holds afterwards. -/
def Write.Trades (c : Configuration) (m : Memory) (held held' : Index) : Write → Prop
  | .slot j value => j < c.queueSize ∧ m.queue j = held' ∧ value.messageIndex = held.messageIndex
  | .pinnerScratch p value =>
    p < c.numPinners ∧ (m.pinners p).scratchIndex = held' ∧ value.messageIndex = held.messageIndex
  | _ => held'.messageIndex = held.messageIndex

theorem senderNext_trades {w : Write}
    (hagrees : (s.sender i).Agrees c (s.memory.senders i)) (hnext : senderNext c s i = some (p, w)) :
    w.Trades c s.memory (s.hand i) (p.hand (w.onSender (s.memory.senders i))) := by
  cases hpc : (s.sender i).pc <;> simp only [senderNext, hpc] at hnext <;>
    simp only [SenderProc.Agrees, hpc] at hagrees
  case exchange =>
    split at hnext
    · rename_i heq
      cases hnext
      obtain ⟨htoReplace, hscratch, hcount, hsize⟩ := hagrees
      refine ⟨slot_lt hcount hsize, ?_, ?_⟩
      · simp [hand, SendPc.Exchanged, Write.onSender, heq, htoReplace]
      · simp [State.hand, hand, SendPc.Exchanged, hpc, hscratch]
    · cases hnext
      simp [Write.Trades, State.hand, hand, SendPc.Exchanged, Write.onSender, hpc]
  case swapExchange =>
    split at hnext
    · rename_i heq
      cases hnext
      obtain ⟨htoReplace, hscratch, hpinner⟩ := hagrees
      refine ⟨hpinner, ?_, ?_⟩
      · simp [hand, SendPc.Exchanged, Write.onSender, heq, htoReplace]
      · simp [State.hand, hand, SendPc.Exchanged, hpc, hscratch]
    · cases hnext
      simp [Write.Trades, State.hand, hand, SendPc.Exchanged, Write.onSender, hpc]
  -- Everywhere else the sender keeps what it holds and at most rewrites its own slot.
  all_goals
    repeat' split at hnext
    all_goals cases hnext <;>
      simp_all [Write.Trades, State.hand, hand, SendPc.Exchanged, Write.onSender]

/-- Two functions that differ by trading the values at two points differ by a permutation. -/
private theorem exists_perm_of_trade {α : Type} [DecidableEq α] {f g : α → Nat} {a b : α} (ha : g a = f b)
    (hb : g b = f a) (hrest : ∀ x, x ≠ a → x ≠ b → g x = f x) : ∃ e : Equiv.Perm α, ∀ x, g x = f (e x) := by
  refine ⟨Equiv.swap a b, fun x => ?_⟩
  by_cases hxa : x = a
  · rw [hxa, Equiv.swap_apply_left, ha]
  · by_cases hxb : x = b
    · rw [hxb, Equiv.swap_apply_right, hb]
    · rw [Equiv.swap_apply_of_ne_of_ne hxa hxb, hrest x hxa hxb]

theorem Write.Trades.owned {w : Write} (hi : i < c.numSenders)
    (h : w.Trades c s.memory (s.hand i) (p.hand (w.onSender (s.memory.senders i)))) :
    ∃ e : Equiv.Perm (Place c), ∀ place : Place c,
      ((s.store c i w).setSender i p).owned place = s.owned (e place) := by
  have hself := hand_store_self (c := c) (s := s) (i := i) p w
  have hother : ∀ k : Fin c.numSenders, Place.hand k ≠ .hand ⟨i, hi⟩ →
      ((s.store c i w).setSender i p).hand k = s.hand k := by
    intro k hk
    exact hand_store_of_ne (fun h => hk (congrArg _ (Fin.ext h))) p w
  cases w with
  | slot j value =>
    obtain ⟨hj, hheld, hvalue⟩ := h
    refine exists_perm_of_trade (a := Place.hand ⟨i, hi⟩) (b := .slot ⟨j, hj⟩) ?_ ?_ fun place hhand hslot => ?_
    · simp [State.owned, hself, hheld]
    · simp [State.owned, onQueue, hvalue]
    · cases place with
      | slot j' =>
        have hne : (j' : Nat) ≠ j := fun h => hslot (congrArg _ (Fin.ext h))
        simp [State.owned, onQueue, hne]
      | pinner q => rfl
      | hand k => simp [State.owned, hother k hhand]
  | pinnerScratch q value =>
    obtain ⟨hq, hheld, hvalue⟩ := h
    refine exists_perm_of_trade (a := Place.hand ⟨i, hi⟩) (b := .pinner ⟨q, hq⟩) ?_ ?_ fun place hhand hpinner => ?_
    · simp [State.owned, hself, hheld]
    · simp [State.owned, onPinners, hvalue]
    · cases place with
      | slot j => rfl
      | pinner q' =>
        have hne : (q' : Nat) ≠ q := fun h => hpinner (congrArg _ (Fin.ext h))
        simp [State.owned, onPinners, hne]
      | hand k => simp [State.owned, hother k hhand]
  | _ =>
    refine ⟨Equiv.refl _, fun place => ?_⟩
    cases place with
    | slot | pinner => rfl
    | hand k =>
      by_cases hk : Place.hand k = .hand ⟨i, hi⟩
      · have hki : (k : Nat) = i := congrArg Fin.val (Place.hand.inj hk)
        simp only [State.owned, Equiv.refl_apply, hki, hself]
        exact h
      · simp [State.owned, Equiv.refl_apply, hother k hk]

theorem SenderProc.Agrees.hand_scratch (hagrees : (s.sender i).Agrees c (s.memory.senders i))
    (hpc : .loadScratch < (s.sender i).pc) (hpc' : (s.sender i).pc ≤ .abandonExchange) :
    (s.hand i).messageIndex = (s.sender i).scratch.messageIndex := by
  cases heq : (s.sender i).pc <;> simp only [SenderProc.Agrees, heq] at hagrees <;> first
    | exact absurd (heq ▸ hpc) (by decide)
    | exact absurd (heq ▸ hpc') (by decide)
    | simp [State.hand, hand, SendPc.Exchanged, heq, hagrees]

theorem SenderProc.Agrees.hand_data (hagrees : (s.sender i).Agrees c (s.memory.senders i))
    (hpc : (s.sender i).pc = .filling) : (s.hand i).messageIndex = (s.sender i).data := by
  simp only [SenderProc.Agrees, hpc] at hagrees
  simp [State.hand, hand, SendPc.Exchanged, hpc, hagrees]

section

variable {p : SenderProc}

theorem senderNext_queueIndex_hand {k value : Nat} (hagrees : (s.sender i).Agrees c (s.memory.senders i))
    (hnext : senderNext c s i = some (p, .queueIndex k value)) : k = (s.hand i).messageIndex := by
  rcases senderNext_queueIndex hnext with ⟨hpc, rfl, -⟩ | ⟨hpc, rfl, -⟩
  · exact (hagrees.hand_scratch (by rw [hpc]; decide) (by rw [hpc]; decide)).symm
  · simp only [SenderProc.Agrees, hpc] at hagrees
    simp [State.hand, hand, SendPc.Exchanged, hpc, hagrees]

theorem senderNext_field_hand {k : Nat} {store : Message → Message}
    (hagrees : (s.sender i).Agrees c (s.memory.senders i))
    (hnext : senderNext c s i = some (p, .field k store)) : k = (s.hand i).messageIndex := by
  obtain ⟨rfl, -, hpc, hpc'⟩ := senderNext_field hnext
  exact (hagrees.hand_scratch (lt_trans (by decide) hpc) (hpc'.le.trans (by decide))).symm

theorem senderNext_messages_of_ne {w : Write} {k : Nat} (hagrees : (s.sender i).Agrees c (s.memory.senders i))
    (hnext : senderNext c s i = some (p, w)) (hk : k ≠ (s.hand i).messageIndex) :
    w.onMessages s.memory.messages k = s.memory.messages k := by
  cases w with
  | field k' store => exact Function.update_of_ne (senderNext_field_hand hagrees hnext ▸ hk) _ _
  | queueIndex k' value => exact Function.update_of_ne (senderNext_queueIndex_hand hagrees hnext ▸ hk) _ _
  | _ => rfl

end

theorem SendPc.Outside.not_exchanged {pc : SendPc} (h : pc.Outside) : ¬ pc.Exchanged := by
  rcases h with h | h <;> simp [SendPc.Exchanged, h]

theorem SenderProc.Entered.not_exchanged (h : p.Entered s i) : ¬ p.pc.Exchanged := by
  rcases h with h | ⟨h, -⟩ | ⟨h, -⟩ <;> simp [SendPc.Exchanged, h]

theorem hand_kill (k : Nat) : (s.setTid i .died).hand k = s.hand k := by
  by_cases hk : k = i
  · simp [State.hand, hand, hk]
  · simp [State.hand, hand, hk]

theorem hand_enter {t : Tid} (hold : ¬ (s.sender i).pc.Exchanged) (hnew : ¬ p.pc.Exchanged)
    (k : Nat) : ((s.setTid i t).setSender i p).hand k = s.hand k := by
  by_cases hk : k = i
  · simp [State.hand, hand, hk, hold, hnew]
  · simp [State.hand, hand, hk]

theorem owned_enter {t : Tid} (hold : ¬ (s.sender i).pc.Exchanged) (hnew : ¬ p.pc.Exchanged)
    (place : Place c) : ((s.setTid i t).setSender i p).owned place = s.owned place := by
  cases place with
  | slot | pinner => rfl
  | hand k => exact congrArg Index.messageIndex (hand_enter hold hnew k)

theorem owned_movePinner {x : Pinner} {p : PinnerProc} (hmove : PinnerMove c s a i x p) (place : Place c) :
    (s.movePinner i x p).owned place = s.owned place := by
  cases place with
  | slot | hand => rfl
  | pinner q =>
    by_cases hq : (q : Nat) = i
    · simp [State.owned, hq, hmove.scratchIndex]
    · simp [State.owned, hq]

theorem step_owned (hagree : SendersAgree c s) (hstep : step c s a = some s') :
    ∃ e : Equiv.Perm (Place c), ∀ place : Place c, s'.owned place = s.owned (e place) := by
  cases step_move hstep with
  | sender i p w _ hi hheld hnext => exact (senderNext_trades (hagree i hi).1 hnext).owned hi
  | fill | read | reader | clock | overrun => exact ⟨Equiv.refl _, fun place => by cases place <;> rfl⟩
  | enter i t p hi hold hnew htid hdied =>
    have hpc : (s.sender i).pc.Outside := hold.elim id fun ht => .inl ((hagree i hi).2 ht)
    exact ⟨Equiv.refl _, owned_enter hpc.not_exchanged hnew.not_exchanged⟩
  | kill i hi hheld =>
    refine ⟨Equiv.refl _, fun place => ?_⟩
    cases place with
    | slot | pinner => rfl
    | hand k => simp [State.owned, hand_kill, Equiv.refl_apply]
  | pinner i x p hi hmove => exact ⟨Equiv.refl _, owned_movePinner hmove⟩

theorem Owned.step (hagree : SendersAgree c s) (h : Owned c s) (hstep : step c s a = some s') : Owned c s' := by
  obtain ⟨e, he⟩ := step_owned hagree hstep
  obtain ⟨f, hf⟩ := h
  exact ⟨e.trans f, fun place => by rw [he, hf, Equiv.trans_apply]⟩

theorem Run.owned {ok : State → Action → Prop} (hmax : c.Indexable) (h : Run c ok (initialState c) s) : Owned c s :=
  h.invariant_of_run (fun _ _ _ hrun hu _ hstep => hu.step (Run.sendersAgree hrun) hstep) (owned_initial hmax)

/-- In every reachable state every message is in exactly one place. The exchanges compare the whole `Index`, so one that left
its location and came back does not matter. -/
theorem messages_owned_once {ok : State → Action → Prop} (hmax : c.numMessages ≤ Index.maxMessages)
    (hrun : Run c ok (initialState c) s) {message : Nat} (hmessage : message < c.numMessages) :
    ∃! place : Place c, s.owned place = message :=
  (Run.owned hmax hrun).existsUnique hmessage

/-- One sender stopped between its exchange and the adoption of what it popped. -/
theorem messages_owned_once_between_stores : ∃ s : State, (s.sender 0).pc = .adoptScratch ∧
    (s.memory.senders 0).scratchIndex.messageIndex = (s.memory.queue 0).messageIndex ∧
    ∀ message < 5, ∃! place : Place ⟨2, 1, 2, 8⟩, s.owned place = message := by
  have hexec : ∃ s, Run ⟨2, 1, 2, 8⟩ (fun _ _ => True) (initialState ⟨2, 1, 2, 8⟩) s ∧
      (s.sender 0).pc = .adoptScratch ∧
      (s.memory.senders 0).scratchIndex.messageIndex = (s.memory.queue 0).messageIndex :=
    Transition.Run.exists_of_exec ([.makeSender 0, .makeSender 1, .makePinner 0,
      .send 0 ⟨8, 0, 0, 0, Vector.replicate 16 0⟩] ++ List.replicate 19 (.sender 0)) (by decide +kernel)
  obtain ⟨s, hrun, hpc, hscratch⟩ := hexec
  exact ⟨s, hpc, hscratch, fun _ hmessage => messages_owned_once (by decide) hrun hmessage⟩

end RobotCode.IpcLib
