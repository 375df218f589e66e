import RobotCode.IpcLib.Memory

/-!
# Cleaning up after dead processes

`Cleanup` runs under the setup lock before a process takes a slot. A sender that died in the middle of
`Send` leaves its `scratchIndex` and `toReplace` in one of a few states; some can be finished at once, and
in the others the message it owns is the one of the two that turns up nowhere else. The loops here are those
of the source, run to the end without interruption, with a bound on their iterations.
-/

namespace RobotCode.IpcLib

variable (c : Configuration)

/-- The `CHECK`s of `DoCleanup` and of the swap code it calls. -/
inductive CleanupCheck where
  /-- Pinner scratch_index should always be valid. -/
  | pinnerScratchIndexValid
  /-- The scratch index of a dead sender is valid. -/
  | scratchIndexValid
  | toReplaceValid
  /-- Somebody else recovered a sender. -/
  | senderNotRecovered (i : Nat)
  /-- No more messages are accounted for or missing than there are. -/
  | accountedForFits
  /-- The candidates of a dead sender are messages. -/
  | candidateFits
  /-- If both are accounted for, we are corrupt. -/
  | scratchIndexUnaccounted
  /-- We are making progress. -/
  | progress
  deriving DecidableEq, Repr

inductive CleanupStop where
  | check (which : CleanupCheck)
  /-- Another sender died in the middle, and `DoCleanup` returns false. -/
  | anotherDied (m : Memory)
  | outOfFuel

/-- `IsPinned`: somebody tries to pin the message with this index. -/
def Memory.IsPinned (m : Memory) (message : Nat) : Prop :=
  (m.messages message).queueIndex ≠ QueueIndex.invalid.index ∧
    ∃ j < c.numPinners, (m.pinners j).pinned = (m.messages message).queueIndex

instance (m : Memory) (message : Nat) : Decidable (m.IsPinned c message) := inferInstanceAs (Decidable (_ ∧ _))

/-- `SwapPinnedSenderScratch` for sender `i`, starting at a pinner. -/
def swapPinnedSenderScratch (i : Nat) (toReplace : Index) : Nat → Nat → Memory → Except CleanupStop (Index × Memory)
  | 0, _, _ => .error .outOfFuel
  | fuel + 1, j, m =>
    if ¬ m.IsPinned c toReplace.messageIndex then .ok (toReplace, m)
    else
      let pinnerScratch := (m.pinners j).scratchIndex
      if ¬ pinnerScratch.Valid then .error (.check .pinnerScratchIndexValid)
      else if m.IsPinned c pinnerScratch.messageIndex then
        swapPinnedSenderScratch i toReplace fuel ((j + 1) % c.numPinners) m
      else
        let m := m.setSender i fun x => { x with toReplace := pinnerScratch }
        if (m.pinners j).scratchIndex = pinnerScratch then
          let m := m.setPinner j fun x => { x with scratchIndex := toReplace }
          let m := m.setSender i fun x => { x with scratchIndex := pinnerScratch }
          let m := m.setSender i fun x => { x with toReplace := .invalid }
          .ok (pinnerScratch, m)
        else
          swapPinnedSenderScratch i toReplace fuel ((j + 1) % c.numPinners)
            (m.setSender i fun x => { x with toReplace := .invalid })

def Message.invalidate (x : Message) : Message := { x with queueIndex := QueueIndex.invalid.index }

structure EasyCleanup where
  memory : Memory
  needRecovery : Nat → Bool
  validSenders : Nat

/-- One round of the first loop of `DoCleanup`. -/
def cleanupEasySender (fuel : Nat) (st : EasyCleanup) (i : Nat) : Except CleanupStop EasyCleanup :=
  let m := st.memory
  let toReplace := (m.senders i).toReplace
  let scratchIndex := (m.senders i).scratchIndex
  if (m.senders i).tid ≠ .died then .ok { st with validSenders := st.validSenders + 1 }
  else if ¬ toReplace.Valid then
    if ¬ scratchIndex.Valid then .error (.check .scratchIndexValid)
    else do
      let (_, m) ← swapPinnedSenderScratch c i scratchIndex fuel 0 m
      let m := m.setMessage scratchIndex.messageIndex Message.invalidate
      let m := m.setSender i fun x => { x with tid := .free }
      .ok { st with memory := m, validSenders := st.validSenders + 1 }
  else if toReplace = scratchIndex then
    let m := m.setSender i fun x => { x with toReplace := .invalid }
    let m := m.setMessage scratchIndex.messageIndex Message.invalidate
    let m := m.setSender i fun x => { x with tid := .free }
    .ok { st with memory := m, validSenders := st.validSenders + 1 }
  else .ok { st with needRecovery := Function.update st.needRecovery i true }

def cleanupPinner (m : Memory) (j : Nat) : Memory :=
  if (m.pinners j).tid ≠ .died then m
  else m.setPinner j fun x => { x with pinned := QueueIndex.invalid.index, tid := .free }

structure Accounting where
  accountedFor : Nat → Bool
  numAccountedFor : Nat
  numMissing : Nat

def Accounting.mark (acc : Accounting) (index : Index) : Accounting :=
  if acc.accountedFor index.messageIndex then acc
  else { acc with
    accountedFor := Function.update acc.accountedFor index.messageIndex true
    numAccountedFor := acc.numAccountedFor + 1 }

def accountForSender (st : EasyCleanup) (acc : Accounting) (i : Nat) : Except CleanupStop Accounting :=
  let m := st.memory
  if (m.senders i).tid = .died then
    if st.needRecovery i then .ok { acc with numMissing := acc.numMissing + 1 } else .error (.anotherDied m)
  else if st.needRecovery i then .error (.check (.senderNotRecovered i))
  else .ok (acc.mark (m.senders i).scratchIndex)

def accountForMessages (st : EasyCleanup) (acc : Accounting) : Except CleanupStop Accounting := do
  let acc ← (List.range c.numSenders).foldlM (accountForSender st) { acc with numMissing := 0 }
  let acc := (List.range c.queueSize).foldl (fun acc j => acc.mark (st.memory.queue j)) acc
  let acc := (List.range c.numPinners).foldl (fun acc j => acc.mark (st.memory.pinners j).scratchIndex) acc
  if acc.numAccountedFor + acc.numMissing ≤ c.numMessages then .ok acc else .error (.check .accountedForFits)

def accountForAll (st : EasyCleanup) : Nat → Accounting → Except CleanupStop Accounting
  | 0, _ => .error .outOfFuel
  | fuel + 1, acc =>
    if acc.numAccountedFor + acc.numMissing = c.numMessages then .ok acc
    else do
      let acc ← accountForMessages c st acc
      accountForAll st fuel acc

structure HardCleanup where
  memory : Memory
  needRecovery : Nat → Bool
  accounting : Accounting

/-- A dead sender is done with `message` as its scratch message. -/
def HardCleanup.resolve (st : HardCleanup) (m : Memory) (i : Nat) (message : Index) : HardCleanup where
  memory := m.setSender i fun x => { x with tid := .free }
  needRecovery := Function.update st.needRecovery i false
  accounting :=
    { accountedFor := Function.update st.accounting.accountedFor message.messageIndex true
      numAccountedFor := st.accounting.numAccountedFor + 1
      numMissing := st.accounting.numMissing - 1 }

/-- One round of the last loop of `DoCleanup`. -/
def recoverSender (st : HardCleanup) (i : Nat) : Except CleanupStop HardCleanup :=
  let m := st.memory
  let scratchIndex := (m.senders i).scratchIndex
  let toReplace := (m.senders i).toReplace
  let accountedFor := st.accounting.accountedFor
  if (m.senders i).tid ≠ .died then
    if st.needRecovery i then .error (.check (.senderNotRecovered i)) else .ok st
  else if ¬ st.needRecovery i then .error (.anotherDied m)
  else if toReplace.Valid ∧ ¬ toReplace.messageIndex ≤ c.numMessages then .error (.check .candidateFits)
  else if scratchIndex.Valid ∧ ¬ scratchIndex.messageIndex ≤ c.numMessages then .error (.check .candidateFits)
  else if ¬ toReplace.Valid ∨ accountedFor toReplace.messageIndex then
    -- The exchange did not happen.
    if ¬ scratchIndex.Valid then .error (.check .scratchIndexValid)
    else if accountedFor scratchIndex.messageIndex then .error (.check .scratchIndexUnaccounted)
    else
      let m := m.setSender i fun x => { x with toReplace := .invalid }
      let m := m.setMessage scratchIndex.messageIndex Message.invalidate
      .ok (st.resolve m i scratchIndex)
  else if ¬ scratchIndex.Valid ∨ accountedFor scratchIndex.messageIndex then
    -- The exchange happened and was not recorded.
    if ¬ toReplace.Valid then .error (.check .toReplaceValid)
    else
      let m := m.setMessage toReplace.messageIndex Message.invalidate
      let m := m.setSender i fun x => { x with scratchIndex := toReplace }
      let m := m.setSender i fun x => { x with toReplace := .invalid }
      .ok (st.resolve m i toReplace)
  else .ok st

def recoverSenders : Nat → HardCleanup → Except CleanupStop HardCleanup
  | 0, _ => .error .outOfFuel
  | fuel + 1, st =>
    if st.accounting.numMissing = 0 then .ok st
    else do
      let st' ← (List.range c.numSenders).foldlM (recoverSender c) st
      if st'.accounting.numMissing = st.accounting.numMissing then .error (.check .progress)
      else recoverSenders fuel st'

/-- The body of `DoCleanup` up to a `return true`. -/
def doCleanupBody (fuel : Nat) (m : Memory) : Except CleanupStop Memory := do
  let easy ← (List.range c.numSenders).foldlM (cleanupEasySender c fuel) ⟨m, fun _ => false, 0⟩
  let easy := { easy with memory := (List.range c.numPinners).foldl cleanupPinner easy.memory }
  if easy.validSenders = c.numSenders then .ok easy.memory
  else
    let acc ← accountForAll c easy fuel ⟨fun _ => false, 0, 0⟩
    let hard ← recoverSenders c fuel ⟨easy.memory, easy.needRecovery, acc⟩
    .ok hard.memory

def doCleanup (fuel : Nat) (m : Memory) : Except CleanupStop (Bool × Memory) :=
  match doCleanupBody c fuel m with
  | .ok m => .ok (true, m)
  | .error (.anotherDied m) => .ok (false, m)
  | .error stop => .error stop

def cleanup (fuel : Nat) : Nat → Memory → Except CleanupStop Memory
  | 0, _ => .error .outOfFuel
  | rounds + 1, m => do
      let (done, m) ← doCleanup c fuel m
      if done then .ok m else cleanup fuel rounds m

end RobotCode.IpcLib
