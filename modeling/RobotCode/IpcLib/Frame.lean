import RobotCode.IpcLib.Machine

/-!
# What a step leaves alone

Every step of a sender is a `Write` to one place, so what it does to the other places is said here once,
by component of the memory and of the history. The later modules look at the program counter only to
learn which store a step performs and never unfold the step function to see that the rest stays put.
-/

namespace RobotCode.IpcLib

open Option QueueIndex Function

variable {c : Configuration} {s s' : State} {i : Nat}

/-- The order of the source text. A sender goes backwards only where it tries again. -/
instance : Preorder SendPc := Preorder.lift SendPc.ctorIdx

instance (a b : SendPc) : Decidable (a < b) := inferInstanceAs (Decidable (a.ctorIdx < b.ctorIdx))

instance (a b : SendPc) : Decidable (a ≤ b) := inferInstanceAs (Decidable (a.ctorIdx ≤ b.ctorIdx))

/-! ### Stores by component -/

namespace Write

/-- The effect of a store on the slot of the sender that performs it. -/
def onSender : Write → Sender → Sender
  | .scratchIndex value, x => { x with scratchIndex := value }
  | .toReplace value, x => { x with toReplace := value }
  | _, x => x

def onQueue : Write → (Nat → Index) → Nat → Index
  | .slot j value, queue => update queue j value
  | _, queue => queue

def onMessages : Write → (Nat → Message) → Nat → Message
  | .field k store, messages => update messages k (store (messages k))
  | .queueIndex k value, messages => update messages k { messages k with queueIndex := value }
  | _, messages => messages

def onPinners : Write → (Nat → Pinner) → Nat → Pinner
  | .pinnerScratch p value, pinners => update pinners p { pinners p with scratchIndex := value }
  | _, pinners => pinners

@[simp] theorem onSender_tid (w : Write) (x : Sender) : (w.onSender x).tid = x.tid := by
  cases w <;> rfl

@[simp] theorem onPinners_pinned (w : Write) (pinners : Nat → Pinner) (p : Nat) :
    (w.onPinners pinners p).pinned = (pinners p).pinned := by
  cases w with
  | pinnerScratch q value =>
    by_cases hp : p = q
    · subst hp
      simp [onPinners]
    · simp [onPinners, hp]
  | _ => rfl

@[simp] theorem onPinners_tid (w : Write) (pinners : Nat → Pinner) (p : Nat) :
    (w.onPinners pinners p).tid = (pinners p).tid := by
  cases w with
  | pinnerScratch q value =>
    by_cases hp : p = q
    · subst hp
      simp [onPinners]
    · simp [onPinners, hp]
  | _ => rfl

end Write

section Store

variable (c s i) (w : Write)

@[simp] theorem store_sender : (s.store c i w).sender = s.sender := by cases w <;> rfl

@[simp] theorem store_pinner : (s.store c i w).pinner = s.pinner := by cases w <;> rfl

@[simp] theorem store_reader : (s.store c i w).reader = s.reader := by cases w <;> rfl

@[simp] theorem store_monotonicNow : (s.store c i w).monotonicNow = s.monotonicNow := by cases w <;> rfl

@[simp] theorem store_realtimeNow : (s.store c i w).realtimeNow = s.realtimeNow := by cases w <;> rfl

@[simp] theorem store_senders :
    (s.store c i w).memory.senders = update s.memory.senders i (w.onSender (s.memory.senders i)) := by
  cases w <;> simp [State.store, Write.onSender, Memory.setSlot, Memory.setMessage, Memory.setSender,
    Memory.setPinner]

@[simp] theorem store_queue : (s.store c i w).memory.queue = w.onQueue s.memory.queue := by cases w <;> rfl

@[simp] theorem store_messages : (s.store c i w).memory.messages = w.onMessages s.memory.messages := by
  cases w <;> rfl

@[simp] theorem store_pinners : (s.store c i w).memory.pinners = w.onPinners s.memory.pinners := by
  cases w <;> rfl

end Store

theorem setTid_self : s.setTid i (s.memory.senders i).tid = s := by
  simp [State.setTid, Memory.setSender]

/-! ### Which store a sender does where

One lemma per store, read the other way round: the store tells where the sender is. -/

section Stores

variable {p : SenderProc}

theorem senderNext_slot {j : Nat} {value : Index} (h : senderNext c s i = some (p, .slot j value)) :
    (s.sender i).pc = .exchange ∧ j = (s.sender i).slot ∧ value = (s.sender i).indexToWrite ∧
      s.memory.queue (s.sender i).slot = (s.sender i).toReplace ∧
      p = { s.sender i with pc := .advanceNextQueueIndex } := by
  cases hpc : (s.sender i).pc <;> simp only [senderNext, hpc] at h
  all_goals
    repeat' split at h
    all_goals cases h <;> simp_all

theorem senderNext_nextQueueIndex {value : Nat} (h : senderNext c s i = some (p, .nextQueueIndex value)) :
    value = (s.sender i).nextQueueIndex.increment.index ∧
      s.memory.nextQueueIndex = (s.sender i).actual.index ∧
      ((s.sender i).pc = .fixNextQueueIndex ∧ p = { s.sender i with pc := .loadNextQueueIndex } ∨
        (s.sender i).pc = .advanceNextQueueIndex ∧ p = { s.sender i with pc := .adoptScratch }) := by
  cases hpc : (s.sender i).pc <;> simp only [senderNext, hpc] at h
  all_goals
    repeat' split at h
    all_goals cases h <;> simp_all

theorem senderNext_queueIndex {k value : Nat} (h : senderNext c s i = some (p, .queueIndex k value)) :
    ((s.sender i).pc = .storeQueueIndex ∧ k = (s.sender i).scratch.messageIndex ∧
        value = (s.sender i).nextQueueIndex.index ∧ p = { s.sender i with pc := .storeToReplace }) ∨
      ((s.sender i).pc = .invalidateQueueIndex ∧ k = (s.sender i).newScratch.messageIndex ∧
        value = invalid.index ∧ p.pc = .idle ∧
        p.hintSeen = (s.sender i).hintSeen ∧ p.actual = (s.sender i).actual) := by
  cases hpc : (s.sender i).pc <;> simp only [senderNext, hpc] at h
  all_goals
    repeat' split at h
    all_goals cases h <;> simp_all

theorem senderNext_field {k : Nat} {store : Message → Message} (h : senderNext c s i = some (p, .field k store)) :
    k = (s.sender i).scratch.messageIndex ∧
      (∀ x, (store x).queueIndex = x.queueIndex ∧ (store x).redzonesCorrupt = x.redzonesCorrupt) ∧
      .checkRedzones < (s.sender i).pc ∧ (s.sender i).pc < .loadMonotonicSentTime := by
  cases hpc : (s.sender i).pc <;> simp only [senderNext, hpc] at h
  all_goals
    repeat' split at h
    all_goals cases h <;> simp_all <;> decide

theorem senderNext_pinnerScratch {q : Nat} {value : Index}
    (h : senderNext c s i = some (p, .pinnerScratch q value)) :
    (s.sender i).pc = .swapExchange ∧ q = (s.sender i).pinnerIndex ∧ value = (s.sender i).toReplace ∧
      (s.memory.pinners (s.sender i).pinnerIndex).scratchIndex = (s.sender i).pinnerScratch ∧
      p = { s.sender i with pc := .swapAdoptScratch } := by
  cases hpc : (s.sender i).pc <;> simp only [senderNext, hpc] at h
  all_goals
    repeat' split at h
    all_goals cases h <;> simp_all

end Stores

/-- The moves of pinner `i`: its slot, of which only the two fields of the pinner change, and its local state. -/
inductive PinnerMove (c : Configuration) (s : State) (a : Action) (i : Nat) : Pinner → PinnerProc → Prop
  | make (hfree : (s.memory.pinners i).tid = .free) :
      PinnerMove c s a i { s.memory.pinners i with pinned := invalid.index, tid := .held }
        { s.pinner i with pc := .idle }
  | release (ha : a = .releasePinner i) (hheld : (s.memory.pinners i).tid = .held)
      (hpc : (s.pinner i).pc = .idle ∨ (s.pinner i).pc = .held) :
      PinnerMove c s a i (s.memory.pinners i) { s.pinner i with pc := .releasePinned }
  | kill (hheld : (s.memory.pinners i).tid = .held) :
      PinnerMove c s a i { s.memory.pinners i with tid := .died } (s.pinner i)
  | call (queueIndex : Nat) (ha : a = .pinIndex i queueIndex) (hword : queueIndex < 2 ^ 32) (hsize : 0 < c.queueSize)
      (hheld : (s.memory.pinners i).tid = .held)
      (hpc : (s.pinner i).pc = .idle ∨ (s.pinner i).pc = .held) :
      PinnerMove c s a i (s.memory.pinners i) { s.pinner i with
        request := queueIndex
        queueIndex := (zero c.queueSize).incrementBy queueIndex
        startedAt := s.history.sent.length
        pc := .storePinned }
  | storePinned (hpc : (s.pinner i).pc = .storePinned) :
      PinnerMove c s a i { s.memory.pinners i with pinned := (s.pinner i).queueIndex.index }
        { s.pinner i with pc := .loadSlot }
  | loadSlot (hpc : (s.pinner i).pc = .loadSlot) :
      PinnerMove c s a i (s.memory.pinners i) { s.pinner i with
        messageIndex := s.memory.queue (s.pinner i).queueIndex.wrapped
        dueSeen := s.history.due (s.pinner i).queueIndex.wrapped
        pc := .loadQueueIndex }
  | pinned (hpc : (s.pinner i).pc = .loadQueueIndex)
      (heq : (s.memory.messages (s.pinner i).messageIndex.messageIndex).queueIndex = (s.pinner i).queueIndex.index) :
      PinnerMove c s a i (s.memory.pinners i) { s.pinner i with
        result := (s.pinner i).messageIndex.messageIndex
        pc := .held }
  | reused (hpc : (s.pinner i).pc = .loadQueueIndex) :
      PinnerMove c s a i (s.memory.pinners i) { s.pinner i with pc := .unpin }
  | unpin (hpc : (s.pinner i).pc = .unpin) :
      PinnerMove c s a i { s.memory.pinners i with pinned := invalid.index }
        { s.pinner i with result := -1, pc := .idle }
  | releasePinned (hpc : (s.pinner i).pc = .releasePinned) :
      PinnerMove c s a i { s.memory.pinners i with pinned := invalid.index }
        { s.pinner i with pc := .releaseTid }
  | releaseTid (hpc : (s.pinner i).pc = .releaseTid) :
      PinnerMove c s a i { s.memory.pinners i with tid := .free } { s.pinner i with pc := .idle }

@[simps! -fullyApplied]
def State.movePinner (s : State) (i : Nat) (x : Pinner) (p : PinnerProc) : State :=
  { s with memory := { s.memory with pinners := update s.memory.pinners i x } }.setPinner i p

theorem PinnerMove.scratchIndex {a : Action} {x : Pinner} {p : PinnerProc} (h : PinnerMove c s a i x p) :
    x.scratchIndex = (s.memory.pinners i).scratchIndex := by
  cases h <;> rfl

private theorem movePinner_self (p : PinnerProc) : s.movePinner i (s.memory.pinners i) p = s.setPinner i p := by
  simp [State.movePinner]

theorem pinnerStep_move (a : Action) (h : pinnerStep s i = some s') :
    ∃ x p, PinnerMove c s a i x p ∧ s' = s.movePinner i x p := by
  simp only [pinnerStep] at h
  split at h
  · cases h
  · cases h
  · rename_i hpc
    exact ⟨_, _, .storePinned hpc, (some.inj h).symm⟩
  · rename_i hpc
    exact ⟨_, _, .loadSlot hpc, (some.inj h).symm.trans (movePinner_self _).symm⟩
  · rename_i hpc
    split at h
    · rename_i heq
      exact ⟨_, _, .pinned hpc heq, (some.inj h).symm.trans (movePinner_self _).symm⟩
    · exact ⟨_, _, .reused hpc, (some.inj h).symm.trans (movePinner_self _).symm⟩
  · rename_i hpc
    exact ⟨_, _, .unpin hpc, (some.inj h).symm⟩
  · rename_i hpc
    exact ⟨_, _, .releasePinned hpc, (some.inj h).symm⟩
  · rename_i hpc
    exact ⟨_, _, .releaseTid hpc, (some.inj h).symm⟩

/-! ### Every step is one of these -/

/-- A sender after a move that is not a step of `Send`: it is back outside, got the pointer to its scratch message, or has
just called `Send`. -/
def SenderProc.Entered (s : State) (i : Nat) (p : SenderProc) : Prop :=
  p.pc = .idle ∨
  (p.pc = .filling ∧ p.data = (s.memory.senders i).scratchIndex.messageIndex) ∨
  (p.pc = .loadScratch ∧
    p.payload = (s.memory.messages (s.memory.senders i).scratchIndex.messageIndex).data)

/-- The steps of the system by the place they touch. -/
inductive Move (c : Configuration) (s : State) (a : Action) : State → Prop
  | sender (i : Nat) (p : SenderProc) (w : Write) (ha : a = .sender i) (hi : i < c.numSenders)
      (hheld : (s.memory.senders i).tid = .held) (hnext : senderNext c s i = some (p, w)) :
      Move c s a ((s.store c i w).setSender i p)
  | fill (i offset : Nat) (byte : UInt8) (hi : i < c.numSenders) (hheld : (s.memory.senders i).tid = .held)
      (hpc : (s.sender i).pc = .filling) :
      Move c s a (s.store c i
        (.field (s.sender i).data fun x => { x with data := update x.data offset byte }))
  | enter (i : Nat) (t : Tid) (p : SenderProc) (hi : i < c.numSenders)
      (hold : (s.sender i).pc.Outside ∨ (s.memory.senders i).tid = .free) (hnew : p.Entered s i)
      (hfree : t = .free → p.pc = .idle) (hdied : t ≠ .died) :
      Move c s a ((s.setTid i t).setSender i p)
  | kill (i : Nat) (hi : i < c.numSenders) (hheld : (s.memory.senders i).tid = .held) :
      Move c s a (s.setTid i .died)
  | pinner (i : Nat) (x : Pinner) (p : PinnerProc) (hi : i < c.numPinners) (hmove : PinnerMove c s a i x p) :
      Move c s a (s.movePinner i x p)
  | read (i queueIndex : Nat) (wantData : Bool) (hword : queueIndex < 2 ^ 32) (hsize : 0 < c.queueSize) :
      Move c s a (s.setReader i { s.reader i with
        request := queueIndex
        wantData := wantData
        queueIndex := (zero c.queueSize).incrementBy queueIndex
        startedAt := s.history.sent.length
        pc := .loadIndex })
  | reader (i : Nat) (p : ReaderProc) (hnext : readerNext c s (s.reader i) = some p) :
      Move c s a (s.setReader i p)
  | clock (now realtime : Int) (hnow : s.monotonicNow ≤ now) :
      Move c s a { s with monotonicNow := now, realtimeNow := realtime }
  | overrun (k : Nat) :
      Move c s a { s with memory := s.memory.setMessage k fun x => { x with redzonesCorrupt := true } }

theorem step_move {a : Action} (h : step c s a = some s') : Move c s a s' := by
  cases a <;> simp only [step, ite_none_right_eq_some, some.injEq] at h
  case makeSender i =>
    obtain ⟨⟨hi, -, hfree, -⟩, rfl⟩ := h
    exact .enter i .held _ hi (.inr hfree) (.inl rfl) (by simp) (by simp)
  case releaseSender i =>
    obtain ⟨⟨hi, -, hpc⟩, rfl⟩ := h
    exact .enter i .free _ hi (.inl hpc) (.inl rfl) (fun _ => rfl) (by simp)
  case killSender i =>
    obtain ⟨⟨hi, hheld⟩, rfl⟩ := h
    exact .kill i hi hheld
  case data i =>
    obtain ⟨⟨hi, hheld, hpc⟩, h⟩ := h
    have hmove := Move.enter (a := .data i) i .held
      { s.sender i with data := (s.memory.senders i).scratchIndex.messageIndex, pc := .filling }
      hi (.inl hpc) (.inr (.inl ⟨rfl, rfl⟩)) (by simp) (by simp)
    rwa [← hheld, setTid_self, h] at hmove
  case writeData i offset byte =>
    obtain ⟨⟨hi, hheld, hpc, -⟩, rfl⟩ := h
    exact .fill i offset byte hi hheld hpc
  case send i args =>
    obtain ⟨⟨hi, hheld, hpc, -⟩, h⟩ := h
    have hmove := Move.enter (a := .send i args) i .held
      { s.sender i with
        args := args
        payload := (s.memory.messages (s.memory.senders i).scratchIndex.messageIndex).data
        pc := .loadScratch }
      hi (.inl hpc) (.inr (.inr ⟨rfl, rfl⟩)) (by simp) (by simp)
    rwa [← hheld, setTid_self, h] at hmove
  case sender i =>
    rw [senderStep, map_eq_some_iff] at h
    obtain ⟨⟨hi, hheld⟩, ⟨p, w⟩, hnext, rfl⟩ := h
    exact .sender i p w rfl hi hheld hnext
  case makePinner i =>
    obtain ⟨⟨hi, -, hfree, -⟩, rfl⟩ := h
    exact .pinner i _ _ hi (.make hfree)
  case releasePinner i =>
    obtain ⟨⟨hi, hheld, hpc⟩, rfl⟩ := h
    rw [← movePinner_self]
    exact .pinner i _ _ hi (.release rfl hheld hpc)
  case killPinner i =>
    obtain ⟨⟨hi, hheld⟩, rfl⟩ := h
    have hmove : { s with memory := s.memory.setPinner i fun x => { x with tid := .died } } =
        s.movePinner i { s.memory.pinners i with tid := .died } (s.pinner i) := by
      simp [State.movePinner, State.setPinner, Memory.setPinner]
    rw [hmove]
    exact .pinner i _ _ hi (.kill hheld)
  case pinIndex i queueIndex =>
    obtain ⟨⟨hi, hheld, hword, hsize, hpc⟩, rfl⟩ := h
    rw [← movePinner_self]
    exact .pinner i _ _ hi (.call queueIndex rfl hword hsize hheld hpc)
  case pinner i =>
    obtain ⟨x, p, hmove, rfl⟩ := pinnerStep_move (c := c) (.pinner i) h.2
    exact .pinner i x p h.1.1 hmove
  case read i queueIndex wantData =>
    obtain ⟨⟨hword, hsize, -⟩, rfl⟩ := h
    exact .read i queueIndex wantData hword hsize
  case reader i =>
    obtain ⟨p, hnext, rfl⟩ := map_eq_some_iff.mp h
    exact .reader i p hnext
  case tick dt =>
    rw [← h]
    exact .clock (s.monotonicNow + dt) s.realtimeNow (by omega)
  case setRealtime time =>
    rw [← h]
    exact .clock s.monotonicNow time le_rfl
  case overrun k =>
    rw [← h]
    exact .overrun k

end RobotCode.IpcLib
