import RobotCode.IpcLib.Ownership
import RobotCode.Lib.Ring

/-!
# The numbers behind the queue indices

Queue indices wrap and `nextQueueIndex` is only a hint, so the argument is about numbers that do not
wrap. Message number `n` is the one that the exchange number `n` put into the queue. The counter stands
for a number that is never past the next one to be sent, each slot waits for the next number that
belongs into it, and a header carries the residue of a number.

A sender loads the counter, then the slot, then the header of the message it is about to replace. What
it knows afterwards is whether the slot still waited for the number it wants to send. It learns that
only modulo the number of queue indices, which is where `NotLapped` comes in.
-/

namespace RobotCode.IpcLib

open List Function Option State Configuration SenderProc

variable {c : Configuration} {s s' : State} {i : Nat}

/-- What `nextQueueIndex` reads when it stands for the number `n`. -/
def hintIndex (c : Configuration) (n : Nat) : Nat :=
  if n = 0 then QueueIndex.invalid.index else n % c.maxIndex

def headerIndex (c : Configuration) : Option Nat → Nat
  | none => QueueIndex.invalid.index
  | some n => n % c.maxIndex

namespace Configuration

section

variable (hmax : c.Indexable) (hsize : 0 < c.queueSize)

include hmax hsize

theorem maxIndex_pos : 0 < c.maxIndex := by
  have hle := queueSize_le hmax
  have hlt := lt_maxIndex_add hsize
  omega

theorem queueSize_lt_maxIndex : c.queueSize < c.maxIndex := by
  have hle := queueSize_le hmax
  have hlt := lt_maxIndex_add hsize
  omega

theorem mod_maxIndex_lt (n : Nat) : n % c.maxIndex < QueueIndex.invalid.index := by
  have hlt := Nat.mod_lt n (maxIndex_pos hmax hsize)
  exact lt_of_lt_of_le hlt maxIndex_le

end

end Configuration

namespace SenderProc

variable {p : SenderProc} {n : Nat}

theorem nextQueueIndex_index (hmax : c.Indexable) (hsize : 0 < c.queueSize)
    (hactual : p.actual.index = hintIndex c n) : p.nextQueueIndex.index = n % c.maxIndex := by
  rw [nextQueueIndex, zeroOrValid]
  by_cases hn : n = 0
  · have hinvalid : ¬ p.actual.Valid := by
      rw [QueueIndex.Valid, hactual, hintIndex, if_pos hn]
      simp [QueueIndex.invalid]
    rw [if_neg hinvalid, hn, Nat.zero_mod]
    rfl
  · have hindex : p.actual.index = n % c.maxIndex := by rw [hactual, hintIndex, if_neg hn]
    have hvalid : p.actual.Valid := by
      have hlt := mod_maxIndex_lt hmax hsize n
      rw [← hindex] at hlt
      exact hlt.ne
    rw [if_pos hvalid, hindex]

section

variable (hmax : c.Indexable) (hsize : 0 < c.queueSize) (hcount : p.actual.count = c.queueSize) (hactual : p.actual.index = hintIndex c n)

include hmax hsize hcount hactual

theorem slot_eq : p.slot = n % c.queueSize := by
  rw [slot, QueueIndex.wrapped, nextQueueIndex_index hmax hsize hactual, nextQueueIndex_count, hcount,
    Nat.mod_mod_of_dvd _ queueSize_dvd_maxIndex]

private theorem nextQueueIndex_eq : p.nextQueueIndex = ⟨n % c.maxIndex, c.queueSize⟩ := by
  rw [← nextQueueIndex_index hmax hsize hactual, ← hcount, ← nextQueueIndex_count]

theorem increment_index : p.nextQueueIndex.increment.index = hintIndex c (n + 1) := by
  rw [nextQueueIndex_eq hmax hsize hcount hactual, QueueIndex.increment, hintIndex, if_neg (Nat.succ_ne_zero n)]
  rw [incrementBy_index (by norm_num) (Nat.mod_lt _ (maxIndex_pos hmax hsize))]
  exact Nat.mod_add_mod n c.maxIndex 1

theorem decrementedQueueIndex_index :
    p.decrementedQueueIndex.index = (n + c.maxIndex - c.queueSize) % c.maxIndex := by
  have hlt := queueSize_lt_maxIndex hmax hsize
  rw [decrementedQueueIndex, nextQueueIndex_eq hmax hsize hcount hactual, hcount]
  rw [decrementBy_index hlt.le (Nat.mod_lt _ (maxIndex_pos hmax hsize))]
  rw [Nat.add_sub_assoc hlt.le, Nat.add_sub_assoc hlt.le, Nat.mod_add_mod]

theorem isPlausible_iff (x : Index) :
    x.IsPlausible p.decrementedQueueIndex ↔ x.queueIndex = (n + c.maxIndex - c.queueSize) % c.maxIndex % 2 ^ 16 := by
  have hindex := decrementedQueueIndex_index hmax hsize hcount hactual
  have hvalid : p.decrementedQueueIndex.Valid := by
    have hlt := mod_maxIndex_lt hmax hsize (n + c.maxIndex - c.queueSize)
    rw [← hindex] at hlt
    exact hlt.ne
  rw [Index.IsPlausible, QueueIndex.IsPlausible, and_low, hindex]
  exact and_iff_right hvalid

end

theorem queueIndex_indexToWrite (hmax : c.Indexable) (hsize : 0 < c.queueSize)
    (hactual : p.actual.index = hintIndex c n) : p.indexToWrite.queueIndex = n % c.maxIndex % 2 ^ 16 := by
  rw [indexToWrite, Index.queueIndex_ofParts, nextQueueIndex_index hmax hsize hactual]

end SenderProc

/-! ### The invariant -/

/-- What a sender with message `m` in its hand knows about the numbers. -/
structure SenderCounts (c : Configuration) (queue : Nat → Index) (h : History) (p : SenderProc) (m : Nat) :
    Prop where
  hint : .loadNextQueueIndex < p.pc → p.actual.index = hintIndex c p.hintSeen ∧ p.hintSeen ≤ h.hint
  slot : .loadToReplace < p.pc → p.pc ≤ .exchange →
    p.hintSeen ≤ p.dueSeen ∧ p.dueSeen ≤ h.due p.slot ∧ (h.due p.slot = p.dueSeen → queue p.slot = p.toReplace) ∧
      p.dueSeen < p.sentSeen + c.queueSize ∧ p.sentSeen ≤ h.sent.length ∧ p.dueSeen % c.queueSize = p.slot
  /-- The header was compared: a slot that waited for another number was off by a whole round of indices. -/
  checked : .loadPreviousIndex < p.pc → p.pc ≤ .exchange →
    h.due p.slot = p.dueSeen → p.dueSeen < p.hintSeen + c.maxIndex → p.dueSeen = p.hintSeen
  behind : p.pc = .fixNextQueueIndex ∨ p.pc = .advanceNextQueueIndex → p.hintSeen < h.sent.length
  stamped : .storeQueueIndex < p.pc → p.pc ≤ .exchange → h.number m = some p.hintSeen
  left : p.pc ≠ .advanceNextQueueIndex → h.leftAt m ≤ h.hint
  leftAdvance : p.pc = .advanceNextQueueIndex → h.leftAt m ≤ p.hintSeen + 1
  leftSeen : .loadNextQueueIndex < p.pc → p.pc ≤ .exchange → h.leftAt m ≤ p.hintSeen
  /-- A number stamped on a message that is not sent yet is newer than all uses of that message. -/
  fresh : p.pc ≤ .abandonExchange → ∀ w, h.number m = some w → h.leftAt m ≤ w

structure Numbered (c : Configuration) (s : State) : Prop where
  nonempty : 0 < s.history.sent.length → 0 < c.queueSize
  hint_le : s.history.hint ≤ s.history.sent.length
  le_hint : s.history.sent.length ≤ s.history.hint + 1
  next : s.memory.nextQueueIndex = hintIndex c s.history.hint
  ring : Ring.Counters c.queueSize s.history.sent.length s.history.due
  low : ∀ j < c.queueSize, (s.memory.queue j).queueIndex =
    (s.history.due j + c.maxIndex - c.queueSize) % c.maxIndex % 2 ^ 16
  number : ∀ j < c.queueSize, s.history.number (s.memory.queue j).messageIndex =
    if c.queueSize ≤ s.history.due j then some (s.history.due j - c.queueSize) else none
  header : ∀ k, (s.memory.messages k).queueIndex = headerIndex c (s.history.number k)
  number_le : ∀ k w, s.history.number k = some w → w ≤ s.history.hint
  leftAt_le : ∀ k, s.history.leftAt k ≤ s.history.sent.length
  pinners : ∀ q < c.numPinners, s.history.leftAt (s.memory.pinners q).scratchIndex.messageIndex ≤ s.history.hint
  senders : ∀ i < c.numSenders, SenderCounts c s.memory.queue s.history (s.sender i) (s.hand i).messageIndex
  /-- A record is in its slot until the next number for that slot is sent, and has left it then. -/
  records : ∀ n r, s.history.sent[n]? = some r → r.queueIndex = n % c.maxIndex ∧
    (s.history.due (n % c.queueSize) = n + c.queueSize ∧
        (s.memory.queue (n % c.queueSize)).messageIndex = r.messageIndex ∨
      n + c.queueSize < s.history.due (n % c.queueSize) ∧ n + c.queueSize < s.history.leftAt r.messageIndex)

section Counts

variable {queue queue' : Nat → Index} {h h' : History} {p p' : SenderProc} {m : Nat}

/-- What a sender knows stays true while others move the counters on, as long as nobody touches the
message in its hand. -/
theorem SenderCounts.mono (hp : SenderCounts c queue h p m) (hhint : h.hint ≤ h'.hint)
    (hsent : h.sent.length ≤ h'.sent.length) (hdue : ∀ j, h.due j ≤ h'.due j)
    (hqueue : ∀ j, h'.due j = h.due j → queue' j = queue j) (hnumber : h'.number m = h.number m)
    (hleft : h'.leftAt m = h.leftAt m) : SenderCounts c queue' h' p m where
  hint hpc := ⟨(hp.hint hpc).1, (hp.hint hpc).2.trans hhint⟩
  slot hpc hpc' := by
    obtain ⟨hseen, hle, hsame, hround, hsentSeen, hmod⟩ := hp.slot hpc hpc'
    refine ⟨hseen, hle.trans (hdue _), fun heq => ?_, hround, hsentSeen.trans hsent, hmod⟩
    have hstill : h.due p.slot = p.dueSeen := le_antisymm ((hdue _).trans heq.le) hle
    rw [hqueue _ (heq.trans hstill.symm), hsame hstill]
  checked hpc hpc' heq := by
    have hle := (hp.slot (lt_trans (by decide) hpc) hpc').2.1
    exact hp.checked hpc hpc' (le_antisymm ((hdue _).trans heq.le) hle)
  behind hpc := (hp.behind hpc).trans_le hsent
  stamped hpc hpc' := hnumber ▸ hp.stamped hpc hpc'
  left hpc := by
    rw [hleft]
    exact (hp.left hpc).trans hhint
  leftAdvance hpc := hleft ▸ hp.leftAdvance hpc
  leftSeen hpc hpc' := hleft ▸ hp.leftSeen hpc hpc'
  fresh hpc := by
    rw [hnumber, hleft]
    exact hp.fresh hpc

/-- The pairs of places between which a sender learns nothing about the numbers. -/
def SendPc.Idles (pc pc' : SendPc) : Prop :=
  (.loadNextQueueIndex < pc' → .loadNextQueueIndex < pc) ∧
  (.loadToReplace < pc' → pc' ≤ .exchange → .loadToReplace < pc ∧ pc ≤ .exchange) ∧
  (.loadPreviousIndex < pc' → pc' ≤ .exchange → .loadPreviousIndex < pc) ∧
  (.storeQueueIndex < pc' → pc' ≤ .exchange → .storeQueueIndex < pc) ∧
  (.loadNextQueueIndex < pc' → pc' ≤ .exchange → pc ≤ .exchange) ∧
  (pc' ≠ .fixNextQueueIndex ∧ pc' ≠ .advanceNextQueueIndex ∧ pc ≠ .advanceNextQueueIndex) ∧
  (pc' ≤ .abandonExchange → pc ≤ .abandonExchange)

instance (pc pc' : SendPc) : Decidable (pc.Idles pc') := inferInstanceAs (Decidable (_ ∧ _))

theorem SenderCounts.idle (hp : SenderCounts c queue h p m) (hpc : p.pc.Idles p'.pc)
    (hregs : p'.actual = p.actual ∧ p'.hintSeen = p.hintSeen ∧ p'.dueSeen = p.dueSeen ∧ p'.sentSeen = p.sentSeen ∧
      p'.toReplace = p.toReplace) : SenderCounts c queue h p' m := by
  obtain ⟨hhint, hslot, hchecked, hstamped, hbefore, ⟨hfix, hadvance, hadvance'⟩, hfresh⟩ := hpc
  obtain ⟨ractual, rhint, rdue, rsent, rreplace⟩ := hregs
  have rslot : p'.slot = p.slot := by
    rw [SenderProc.slot, SenderProc.nextQueueIndex, ractual]
    rfl
  constructor
  · intro h1
    rw [ractual, rhint]
    exact hp.hint (hhint h1)
  · intro h1 h2
    rw [rhint, rdue, rsent, rreplace, rslot]
    exact hp.slot (hslot h1 h2).1 (hslot h1 h2).2
  · intro h1 h2
    rw [rhint, rdue, rslot]
    exact hp.checked (hchecked h1 h2) (hslot (lt_trans (by decide) h1) h2).2
  · rintro (h1 | h1)
    · exact absurd h1 hfix
    · exact absurd h1 hadvance
  · intro h1 h2
    rw [rhint]
    exact hp.stamped (hstamped h1 h2) (hslot (lt_trans (by decide) h1) h2).2
  · exact fun _ => hp.left hadvance'
  · exact fun h1 => absurd h1 hadvance
  · intro h1 h2
    rw [rhint]
    exact hp.leftSeen (hhint h1) (hbefore h1 h2)
  · exact fun h1 => hp.fresh (hfresh h1)

theorem SenderCounts.outside (hpc : p.pc ≤ .loadNextQueueIndex) (hleft : h.leftAt m ≤ h.hint)
    (hfresh : ∀ w, h.number m = some w → h.leftAt m ≤ w) : SenderCounts c queue h p m := by
  have hlate : ∀ {pc : SendPc}, .loadNextQueueIndex ≤ pc → ¬ pc < p.pc := fun hle hlt =>
    lt_irrefl _ ((hle.trans_lt hlt).trans_le hpc)
  refine ⟨fun h1 => ?_, fun h1 => ?_, fun h1 => ?_, fun h1 => ?_, fun h1 => ?_, fun _ => hleft, fun h1 => ?_,
    fun h1 => ?_, fun _ => hfresh⟩
  · exact absurd h1 (hlate le_rfl)
  · exact absurd h1 (hlate (by decide))
  · exact absurd h1 (hlate (by decide))
  · rcases h1 with h1 | h1 <;> exact absurd (h1 ▸ hpc) (by decide)
  · exact absurd h1 (hlate (by decide))
  · exact absurd (h1 ▸ hpc) (by decide)
  · exact absurd h1 (hlate le_rfl)

theorem SenderCounts.exchanged (hpc : .abandonExchange < p.pc)
    (hhint : p.actual.index = hintIndex c p.hintSeen ∧ p.hintSeen ≤ h.hint)
    (hbehind : p.pc = .fixNextQueueIndex ∨ p.pc = .advanceNextQueueIndex → p.hintSeen < h.sent.length)
    (hleft : p.pc ≠ .advanceNextQueueIndex → h.leftAt m ≤ h.hint)
    (hadvance : p.pc = .advanceNextQueueIndex → h.leftAt m ≤ p.hintSeen + 1) : SenderCounts c queue h p m := by
  have hearly : ∀ {pc : SendPc}, pc ≤ .abandonExchange → ¬ p.pc ≤ pc := fun hle h1 =>
    lt_irrefl _ (hpc.trans_le (h1.trans hle))
  refine ⟨fun _ => hhint, fun _ h2 => ?_, fun _ h2 => ?_, hbehind, fun _ h2 => ?_, hleft, hadvance, fun _ h2 => ?_,
    fun h1 => absurd h1 (hearly le_rfl)⟩ <;> exact absurd h2 (hearly (by decide))

theorem SenderCounts.loadNext (hp : SenderCounts c queue h p m) (hpc : p.pc = .loadNextQueueIndex)
    {next : Nat} (hnext : next = hintIndex c h.hint) :
    SenderCounts c queue h { p with actual := ⟨next, c.queueSize⟩, hintSeen := h.hint, pc := .loadToReplace } m where
  hint _ := ⟨hnext, le_rfl⟩
  slot hlt := absurd hlt (by dsimp only; decide)
  checked hlt := absurd hlt (by dsimp only; decide)
  behind hpc' := absurd hpc' (by simp)
  stamped hlt := absurd hlt (by dsimp only; decide)
  left _ := hp.left (by simp [hpc])
  leftAdvance hpc' := absurd hpc' (by simp)
  leftSeen _ _ := hp.left (by simp [hpc])
  fresh _ := hp.fresh (by rw [hpc]; decide)

end Counts

section Loads

variable {m : Nat} (hmax : c.numMessages ≤ Index.maxMessages) (hsize : 0 < c.queueSize)

include hmax hsize

section

variable (hnum : Numbered c s) (hp : SenderCounts c s.memory.queue s.history (s.sender i) m)

include hnum hp

theorem SenderCounts.loadToReplace (hpc : (s.sender i).pc = .loadToReplace)
    (hcount : (s.sender i).actual.count = c.queueSize) (pc' : SendPc)
    (hpc' : pc' = .loadPreviousIndex ∨ pc' = .fixNextQueueIndex ∧
      ¬ (s.memory.queue (s.sender i).slot).IsPlausible (s.sender i).decrementedQueueIndex) :
    SenderCounts c s.memory.queue s.history { s.sender i with
      toReplace := s.memory.queue (s.sender i).slot
      dueSeen := s.history.due (s.sender i).slot
      sentSeen := s.history.sent.length
      pc := pc' } m := by
  obtain ⟨hactual, hseen⟩ := hp.hint (by rw [hpc]; decide)
  have hslot := slot_eq hmax hsize hcount hactual
  have hlt : (s.sender i).slot < c.queueSize := slot_lt hcount hsize
  obtain ⟨hdue, hround, hmod⟩ := hnum.ring _ hlt
  have hle : (s.sender i).hintSeen ≤ s.history.due (s.sender i).slot := (hseen.trans hnum.hint_le).trans hdue
  have hbehind : pc' = .fixNextQueueIndex → (s.sender i).hintSeen < s.history.sent.length := by
    intro hfix
    have hallowed : ¬ (s.memory.queue (s.sender i).slot).IsPlausible (s.sender i).decrementedQueueIndex := by
      rcases hpc' with hpc' | hpc'
      · exact absurd (hpc'.symm.trans hfix) (by decide)
      · exact hpc'.2
    rw [isPlausible_iff hmax hsize hcount hactual, hnum.low _ hlt] at hallowed
    have hne : (s.sender i).hintSeen ≠ s.history.due (s.sender i).slot := fun heq => hallowed (by rw [← heq])
    have := Ring.add_le_of_mod_eq (hslot.symm.trans hmod.symm) (lt_of_le_of_ne hle hne)
    omega
  have hcase : pc' = .loadPreviousIndex ∨ pc' = .fixNextQueueIndex := hpc'.imp id And.left
  refine ⟨fun _ => ⟨hactual, hseen⟩, fun _ _ => ⟨hle, le_rfl, fun _ => rfl, hround, le_rfl, hmod⟩,
    fun h1 => ?_, ?_, fun h1 => ?_, fun _ => hp.left (by simp [hpc]), ?_, fun _ _ => ?_,
    fun _ => hp.fresh (by rw [hpc]; decide)⟩
  · rcases hcase with rfl | rfl <;> exact absurd h1 (by dsimp only; decide)
  · rintro (h1 | h1)
    · exact hbehind h1
    · rcases hcase with rfl | rfl <;> cases h1
  · rcases hcase with rfl | rfl <;> exact absurd h1 (by dsimp only; decide)
  · rcases hcase with rfl | rfl <;> simp
  · exact hp.leftSeen (by rw [hpc]; decide) (by rw [hpc]; decide)

/-- The sender accepts the header of the message it is about to replace. If that is still in the slot, its number is one round
of slots before the sender's, up to whole rounds of queue indices. -/
theorem SenderCounts.loadPrevious (hpc : (s.sender i).pc = .loadPreviousIndex)
    (hcount : (s.sender i).actual.count = c.queueSize)
    (hprevious : ¬ ((s.memory.messages (s.sender i).toReplace.messageIndex).queueIndex ≠
        (s.sender i).decrementedQueueIndex.index ∧
      (s.memory.messages (s.sender i).toReplace.messageIndex).queueIndex ≠ QueueIndex.invalid.index)) :
    SenderCounts c s.memory.queue s.history { s.sender i with pc := .storeMonotonicSentTime } m := by
  obtain ⟨hactual, hseen⟩ := hp.hint (by rw [hpc]; decide)
  obtain ⟨hle, hdueSeen, hsame, -, -, hmod⟩ := hp.slot (by rw [hpc]; decide) (by rw [hpc]; decide)
  have hslot := slot_eq hmax hsize hcount hactual
  have hlt : (s.sender i).slot < c.queueSize := slot_lt hcount hsize
  have hchecked : s.history.due (s.sender i).slot = (s.sender i).dueSeen →
      (s.sender i).dueSeen < (s.sender i).hintSeen + c.maxIndex →
      (s.sender i).dueSeen = (s.sender i).hintSeen := by
    intro hdue hround
    have hnumber := hnum.number _ hlt
    rw [hsame hdue, hdue] at hnumber
    rw [hnum.header, hnumber, decrementedQueueIndex_index hmax hsize hcount hactual] at hprevious
    by_cases hfirst : c.queueSize ≤ (s.sender i).dueSeen
    · rw [if_pos hfirst] at hprevious
      have hvalid : headerIndex c (some ((s.sender i).dueSeen - c.queueSize)) ≠ QueueIndex.invalid.index :=
        (mod_maxIndex_lt hmax hsize _).ne
      have heq : ((s.sender i).dueSeen - c.queueSize) % c.maxIndex =
          ((s.sender i).hintSeen + c.maxIndex - c.queueSize) % c.maxIndex := by
        by_contra hne
        exact hprevious ⟨hne, hvalid⟩
      have hshift : ((s.sender i).dueSeen - c.queueSize + c.queueSize) % c.maxIndex =
          ((s.sender i).hintSeen + c.maxIndex - c.queueSize + c.queueSize) % c.maxIndex :=
        Nat.ModEq.add_right c.queueSize heq
      rw [Nat.sub_add_cancel hfirst, Nat.sub_add_cancel (by omega), Nat.add_mod_right] at hshift
      exact (Ring.eq_of_mod_eq hshift.symm hle hround).symm
    · exact (Ring.eq_of_mod_eq (hslot.symm.trans hmod.symm) hle (by omega)).symm
  refine ⟨fun _ => ⟨hactual, hseen⟩, fun _ _ => ?_, fun _ _ => hchecked, by simp, fun h1 => ?_,
    fun _ => hp.left (by simp [hpc]), by simp, fun _ _ => ?_, fun _ => hp.fresh (by rw [hpc]; decide)⟩
  · exact hp.slot (by rw [hpc]; decide) (by rw [hpc]; decide)
  · exact absurd h1 (by dsimp only; decide)
  · exact hp.leftSeen (by rw [hpc]; decide) (by rw [hpc]; decide)

end

end Loads

/-! ### Steps that move no counter -/

/-- The stores that touch neither a counter nor a queue slot nor a header. -/
def Write.Silent : Write → Prop
  | .none | .field _ _ | .scratchIndex _ | .toReplace _ => True
  | _ => False

variable {p : SenderProc} {a : Action} {n k : Nat} {value : Index}

theorem senderNext_counts {w : Write} {m : Nat} (hmax : c.Indexable)
    (hnum : Numbered c s) (hagrees : (s.sender i).Agrees c (s.memory.senders i))
    (hcounts : SenderCounts c s.memory.queue s.history (s.sender i) m)
    (hnext : senderNext c s i = some (p, w)) (hw : w.Silent) : SenderCounts c s.memory.queue s.history p m := by
  cases hpc : (s.sender i).pc <;> simp only [senderNext, hpc] at hnext <;>
    simp only [SenderProc.Agrees, hpc] at hagrees
  case loadNextQueueIndex =>
    cases hnext
    exact hcounts.loadNext hpc hnum.next
  case loadToReplace =>
    split at hnext
    · cases hnext
    · rename_i hsize
      obtain ⟨-, -, hcount⟩ := hagrees
      cases hnext
      refine hcounts.loadToReplace hmax (Nat.pos_of_ne_zero hsize) hnum hpc hcount _ ?_
      split
      · exact .inl rfl
      · rename_i hallowed
        exact .inr ⟨rfl, hallowed⟩
  case loadPreviousIndex =>
    obtain ⟨-, -, hcount, hsize⟩ := hagrees
    cases hnext
    split
    · exact hcounts.idle (by simp only [hpc]; decide) ⟨rfl, rfl, rfl, rfl, rfl⟩
    · rename_i hprevious
      exact hcounts.loadPrevious hmax hsize hnum hpc hcount hprevious
  case advanceNextQueueIndex =>
    cases hnext
    -- Somebody else moved the counter past the number this sender put into the queue.
    have hne : s.memory.nextQueueIndex ≠ (s.sender i).actual.index := by
      intro heq
      simp [heq, Write.Silent] at hw
    obtain ⟨hactual, hseen⟩ := hcounts.hint (by rw [hpc]; decide)
    have hhint : (s.sender i).hintSeen ≠ s.history.hint := by
      intro heq
      rw [hnum.next, hactual, heq] at hne
      exact hne rfl
    refine .exchanged (by dsimp only; decide) ⟨hactual, hseen⟩ (by simp) (fun _ => ?_) (by simp)
    have := hcounts.leftAdvance hpc
    omega
  all_goals
    repeat' split at hnext
    all_goals cases hnext <;> first
      | exact hcounts.idle (by simp only [hpc]; decide) ⟨rfl, rfl, rfl, rfl, rfl⟩
      | exact absurd hw (by simp [Write.Silent])

theorem Numbered.congr (h : Numbered c s) (hhistory : s'.history = s.history)
    (hnext : s'.memory.nextQueueIndex = s.memory.nextQueueIndex) (hqueue : s'.memory.queue = s.memory.queue)
    (hheader : ∀ k, (s'.memory.messages k).queueIndex = (s.memory.messages k).queueIndex)
    (hpinners : ∀ q, (s'.memory.pinners q).scratchIndex = (s.memory.pinners q).scratchIndex)
    (hsenders : ∀ i < c.numSenders,
      SenderCounts c s.memory.queue s.history (s'.sender i) (s'.hand i).messageIndex) : Numbered c s' where
  nonempty := hhistory ▸ h.nonempty
  hint_le := hhistory ▸ h.hint_le
  le_hint := hhistory ▸ h.le_hint
  next := by rw [hnext, hhistory, h.next]
  ring := hhistory ▸ h.ring
  low := by
    rw [hqueue, hhistory]
    exact h.low
  number := by
    rw [hqueue, hhistory]
    exact h.number
  header k := by rw [hheader, hhistory, h.header]
  number_le := hhistory ▸ h.number_le
  leftAt_le := hhistory ▸ h.leftAt_le
  pinners q hq := by
    rw [hpinners, hhistory]
    exact h.pinners q hq
  senders := by
    rw [hqueue, hhistory]
    exact hsenders
  records := by
    rw [hqueue, hhistory]
    exact h.records

theorem SenderCounts.store {w : Write} {queue : Nat → Index} {h : History}
    (hmover : SenderCounts c queue h p (p.hand (w.onSender (s.memory.senders i))).messageIndex)
    (hothers : ∀ k < c.numSenders, k ≠ i → SenderCounts c queue h (s.sender k) (s.hand k).messageIndex) :
    ∀ k < c.numSenders, SenderCounts c queue h (((s.store c i w).setSender i p).sender k)
      (((s.store c i w).setSender i p).hand k).messageIndex := by
  intro k hk
  by_cases hki : k = i
  · subst hki
    rw [hand_store_self]
    simpa using hmover
  · rw [hand_store_of_ne hki]
    simpa [hki] using hothers k hk hki

theorem Numbered.silent {w : Write} (hmax : c.Indexable)
    (h : Numbered c s) (hi : i < c.numSenders) (hagrees : (s.sender i).Agrees c (s.memory.senders i))
    (hnext : senderNext c s i = some (p, w)) (hw : w.Silent) : Numbered c ((s.store c i w).setSender i p) := by
  have htrade := senderNext_trades hagrees hnext
  have hhand : (p.hand (w.onSender (s.memory.senders i))).messageIndex = (s.hand i).messageIndex := by
    cases w <;> first | exact htrade | exact absurd hw (by simp [Write.Silent])
  refine h.congr ?_ ?_ ?_ ?_ ?_ (.store ?_ fun k hk _ => h.senders k hk)
  · cases w <;> first | rfl | exact absurd hw (by simp [Write.Silent])
  · cases w <;> first | rfl | exact absurd hw (by simp [Write.Silent])
  · cases w <;> first | rfl | exact absurd hw (by simp [Write.Silent])
  · intro k
    cases w with
    | field k' store =>
      obtain ⟨-, hstore, -⟩ := senderNext_field hnext
      by_cases hk : k = k'
      · subst hk
        simp [Write.onMessages, (hstore _).1]
      · simp [Write.onMessages, hk]
    | _ => first | rfl | exact absurd hw (by simp [Write.Silent])
  · cases w <;> first | exact fun _ => rfl | exact absurd hw (by simp [Write.Silent])
  · exact hhand ▸ senderNext_counts hmax h hagrees (h.senders i hi) hnext hw

theorem Numbered.nextQueueIndex {value : Nat} (hmax : c.Indexable)
    (h : Numbered c s) (hi : i < c.numSenders) (hagrees : (s.sender i).Agrees c (s.memory.senders i))
    (hnext : senderNext c s i = some (p, .nextQueueIndex value)) (hok : NextNotReused s (.sender i)) :
    Numbered c ((s.store c i (.nextQueueIndex value)).setSender i p) := by
  obtain ⟨rfl, hsame, hcase⟩ := senderNext_nextQueueIndex hnext
  have hpc : (s.sender i).pc = .fixNextQueueIndex ∨ (s.sender i).pc = .advanceNextQueueIndex :=
    hcase.imp And.left And.left
  have hcounts := h.senders i hi
  have hhint : s.history.hint = (s.sender i).hintSeen := hok hpc hsame
  have hbehind := hcounts.behind hpc
  have hregs : (s.sender i).actual.count = c.queueSize ∧ 0 < c.queueSize := by
    rcases hpc with hpc | hpc <;> simp only [SenderProc.Agrees, hpc] at hagrees
    · exact hagrees.2.2
    · exact hagrees.2.2
  obtain ⟨hactual, -⟩ := hcounts.hint (by rcases hpc with hpc | hpc <;> rw [hpc] <;> decide)
  have hmono : ∀ k < c.numSenders, SenderCounts c s.memory.queue { s.history with hint := s.history.hint + 1 }
      (s.sender k) (s.hand k).messageIndex := fun k hk =>
    (h.senders k hk).mono (Nat.le_succ _) le_rfl (fun _ => le_rfl) (fun _ _ => rfl) rfl rfl
  have hmover : SenderCounts c s.memory.queue { s.history with hint := s.history.hint + 1 } p
      (s.hand i).messageIndex := by
    rcases hcase with ⟨hpc, rfl⟩ | ⟨hpc, rfl⟩
    · exact (hmono i hi).idle (by simp only [hpc]; decide) ⟨rfl, rfl, rfl, rfl, rfl⟩
    · have hleft := hcounts.leftAdvance hpc
      exact .exchanged (by dsimp only; decide) ⟨hactual, by dsimp only; omega⟩ (by simp)
        (fun _ => by dsimp only; omega) (by simp)
  have htrade := senderNext_trades hagrees hnext
  refine { h with
    hint_le := ?_, le_hint := ?_, next := ?_, senders := .store (htrade ▸ hmover) fun k hk _ => hmono k hk
    number_le := fun k w hw => (h.number_le k w hw).trans (Nat.le_succ _)
    pinners := fun q hq => (h.pinners q hq).trans (Nat.le_succ _) }
  · simp only [setSender_history, store]
    omega
  · simp only [setSender_history, store]
    have := h.le_hint
    omega
  · change _ = hintIndex c (s.history.hint + 1)
    rw [hhint, ← increment_index hmax hregs.2 hregs.1 hactual]
    rfl

private theorem store_queueIndex_history (k value : Nat) : (s.store c i (.queueIndex k value)).history =
      { s.history with
        number := update s.history.number k
          (if value = QueueIndex.invalid.index then none else some (s.sender i).hintSeen) } := rfl

theorem Numbered.queueIndex {value : Nat} (h : Numbered c s) (howned : Owned c s)
    (hi : i < c.numSenders) (hagrees : (s.sender i).Agrees c (s.memory.senders i))
    (hnext : senderNext c s i = some (p, .queueIndex (s.hand i).messageIndex value))
    (hvalue : value = headerIndex c
      (if value = QueueIndex.invalid.index then none else some (s.sender i).hintSeen))
    (hseen : ∀ w, (s.store c i (.queueIndex (s.hand i).messageIndex value)).history.number (s.hand i).messageIndex =
      some w → w ≤ s.history.hint)
    (hmover : SenderCounts c s.memory.queue
      (s.store c i (.queueIndex (s.hand i).messageIndex value)).history p (s.hand i).messageIndex) :
    Numbered c ((s.store c i (.queueIndex (s.hand i).messageIndex value)).setSender i p) := by
  have hkeep : ∀ k, k ≠ (s.hand i).messageIndex →
      (s.store c i (.queueIndex (s.hand i).messageIndex value)).history.number k = s.history.number k := by
    intro k hk
    exact update_of_ne hk _ _
  have htrade := senderNext_trades hagrees hnext
  refine { h with number := ?_, header := ?_, number_le := ?_, senders := .store (htrade ▸ hmover) fun k hk hki => ?_ }
  · intro j hj
    exact (hkeep _ (howned.slot_ne_hand hj hi)).trans (h.number j hj)
  · intro k
    rw [setSender_memory, setSender_history, store_messages, store_queueIndex_history]
    by_cases hk : k = (s.hand i).messageIndex
    · subst hk
      simpa [Write.onMessages] using hvalue
    · simpa [Write.onMessages, hk] using h.header k
  · intro k w hw
    by_cases hk : k = (s.hand i).messageIndex
    · exact hseen w (hk ▸ hw)
    · exact h.number_le k w ((hkeep k hk).symm.trans hw)
  · exact (h.senders k hk).mono le_rfl le_rfl (fun _ => le_rfl) (fun _ _ => rfl)
      (hkeep _ (howned.hand_ne_hand hi hk hki)) rfl

theorem Numbered.storeQueueIndex {value : Nat} (hmax : c.Indexable)
    (h : Numbered c s) (howned : Owned c s) (hi : i < c.numSenders)
    (hagrees : (s.sender i).Agrees c (s.memory.senders i))
    (hnext : senderNext c s i = some (p, .queueIndex k value)) :
    Numbered c ((s.store c i (.queueIndex k value)).setSender i p) := by
  obtain rfl := senderNext_queueIndex_hand hagrees hnext
  have hcounts := h.senders i hi
  rcases senderNext_queueIndex hnext with ⟨hpc, -, hvalue, hp⟩ | ⟨hpc, -, rfl, hidle, -⟩
  · have hregs : 0 < c.queueSize := by
      simp only [SenderProc.Agrees, hpc] at hagrees
      exact hagrees.2.2.2
    obtain ⟨hactual, hseen⟩ := hcounts.hint (by rw [hpc]; decide)
    rw [nextQueueIndex_index hmax hregs hactual] at hvalue
    have hvalid : value ≠ QueueIndex.invalid.index := hvalue ▸ (mod_maxIndex_lt hmax hregs _).ne
    have hleft := hcounts.leftSeen (by rw [hpc]; decide) (by rw [hpc]; decide)
    refine h.queueIndex howned hi hagrees hnext (by rw [if_neg hvalid]; exact hvalue) (fun w hw => ?_) ?_
    · rw [store_queueIndex_history, if_neg hvalid] at hw
      dsimp only at hw
      rw [update_self] at hw
      exact some.inj hw ▸ hseen
    rw [store_queueIndex_history, if_neg hvalid, hp]
    refine ⟨fun _ => ⟨hactual, hseen⟩, fun _ _ => ?_, fun _ _ => ?_, by simp, fun _ _ => ?_,
      fun _ => hcounts.left (by simp [hpc]), by simp, fun _ _ => hleft, fun _ w hw => ?_⟩
    · exact hcounts.slot (by rw [hpc]; decide) (by rw [hpc]; decide)
    · exact hcounts.checked (by rw [hpc]; decide) (by rw [hpc]; decide)
    · exact update_self ..
    · dsimp only at hw
      rw [update_self] at hw
      exact some.inj hw ▸ hleft
  · refine h.queueIndex howned hi hagrees hnext (by rw [if_pos rfl]; rfl) (fun w hw => ?_) ?_
    · rw [store_queueIndex_history, if_pos rfl] at hw
      dsimp only at hw
      rw [update_self] at hw
      cases hw
    rw [store_queueIndex_history, if_pos rfl]
    refine .outside (by rw [hidle]; decide) (hcounts.left (by simp [hpc])) fun w hw => ?_
    dsimp only at hw
    rw [update_self] at hw
    cases hw

/-! ### Exchanging -/

theorem Numbered.exchange_number (h : Numbered c s) (hi : i < c.numSenders)
    (hagrees : (s.sender i).Agrees c (s.memory.senders i)) (hpc : (s.sender i).pc = .exchange)
    (hsame : s.memory.queue (s.sender i).slot = (s.sender i).toReplace)
    (hindex : IndexNotReused s (.sender i)) (hlap : NotLapped c s (.sender i)) :
    s.history.hint = s.history.sent.length ∧ (s.sender i).hintSeen = s.history.sent.length ∧
      s.history.due (s.sender i).slot = s.history.sent.length := by
  have hcounts := h.senders i hi
  simp only [SenderProc.Agrees, hpc] at hagrees
  obtain ⟨-, -, hcount, hsize⟩ := hagrees
  obtain ⟨-, hseen⟩ := hcounts.hint (by rw [hpc]; decide)
  obtain ⟨-, -, -, hround, -, -⟩ := hcounts.slot (by rw [hpc]; decide) hpc.le
  have hdue := hindex.1 hpc hsame
  have hlapped := hlap hpc hsame
  have heq := hcounts.checked (by rw [hpc]; decide) hpc.le hdue (by omega)
  have hle := (h.ring _ (slot_lt hcount hsize)).1
  have := h.hint_le
  omega

private theorem Numbered.records_place_exchange {j : Nat} {r : SendRecord} (h : Numbered c s)
    (hsize : 0 < c.queueSize) (hdue : s.history.due j = s.history.sent.length) (hn : n < s.history.sent.length)
    (hplace : s.history.due (n % c.queueSize) = n + c.queueSize ∧
        (s.memory.queue (n % c.queueSize)).messageIndex = r.messageIndex ∨
      n + c.queueSize < s.history.due (n % c.queueSize) ∧ n + c.queueSize < s.history.leftAt r.messageIndex) :
    update s.history.due j (s.history.due j + c.queueSize) (n % c.queueSize) = n + c.queueSize ∧
        (update s.memory.queue j value (n % c.queueSize)).messageIndex = r.messageIndex ∨
      n + c.queueSize < update s.history.due j (s.history.due j + c.queueSize) (n % c.queueSize) ∧
        n + c.queueSize < update s.history.leftAt (s.memory.queue j).messageIndex
          (s.history.sent.length + 1) r.messageIndex := by
  have hround := h.ring.add_le hsize hn
  obtain ⟨-, hbelow, hmod⟩ := h.ring _ (Nat.mod_lt n hsize)
  by_cases hnj : n % c.queueSize = j
  · rw [hnj, hdue] at hround hplace
    rw [hnj, update_self]
    refine .inr ⟨by omega, ?_⟩
    by_cases hpopped : r.messageIndex = (s.memory.queue j).messageIndex
    · rw [hpopped, update_self]
      omega
    · rw [update_of_ne hpopped]
      rcases hplace with ⟨-, hmessage⟩ | ⟨-, hleft⟩
      · exact absurd hmessage.symm hpopped
      · exact hleft
  · rw [update_of_ne hnj, update_of_ne hnj]
    refine hplace.imp id fun ⟨hlater, hleft⟩ => ⟨hlater, ?_⟩
    by_cases hpopped : r.messageIndex = (s.memory.queue j).messageIndex
    · rw [hpopped, update_self]
      have hmod' : (n + c.queueSize) % c.queueSize = s.history.due (n % c.queueSize) % c.queueSize := by
        rw [Nat.add_mod_right, hmod]
      have := Ring.add_le_of_mod_eq hmod' hlater
      omega
    · rw [update_of_ne hpopped]
      exact hleft

theorem Numbered.slot {j : Nat} (hmax : c.Indexable) (h : Numbered c s) (howned : Owned c s) (hi : i < c.numSenders)
    (hagrees : (s.sender i).Agrees c (s.memory.senders i))
    (hnext : senderNext c s i = some (p, .slot j value)) (hindex : IndexNotReused s (.sender i))
    (hlap : NotLapped c s (.sender i)) : Numbered c ((s.store c i (.slot j value)).setSender i p) := by
  obtain ⟨hpc, hj, hvalue, hsame, hp⟩ := senderNext_slot hnext
  have hcounts := h.senders i hi
  obtain ⟨hhint, hseen, hdue⟩ := h.exchange_number hi hagrees hpc hsame hindex hlap
  obtain ⟨hlt, hpopped, hscratch⟩ := senderNext_trades hagrees hnext
  rw [hvalue, messageIndex_indexToWrite] at hscratch
  have hregs : (s.sender i).actual.count = c.queueSize ∧ 0 < c.queueSize := by
    simp only [SenderProc.Agrees, hpc] at hagrees
    exact hagrees.2.2
  obtain ⟨hactual, -⟩ := hcounts.hint (by rw [hpc]; decide)
  have hslot := slot_eq hmax hregs.2 hregs.1 hactual
  have hstamp := hcounts.stamped (by rw [hpc]; decide) hpc.le
  rw [← hscratch, hseen] at hstamp
  rw [hseen] at hactual hslot
  rw [← hj] at hdue hslot
  have hleft : ∀ k, k ≠ (s.memory.queue j).messageIndex →
      (s.store c i (.slot j value)).history.leftAt k = s.history.leftAt k :=
    fun k hk => update_of_ne hk _ _
  have hdueSelf : (s.store c i (.slot j value)).history.due j = s.history.sent.length + c.queueSize := by
    rw [← hdue]
    exact update_self ..
  have hdueOther : ∀ k, k ≠ j → (s.store c i (.slot j value)).history.due k = s.history.due k :=
    fun k hk => update_of_ne hk _ _
  constructor
  · exact fun _ => hregs.2
  · simp [store, hhint]
  · simp [store, hhint]
  · exact h.next
  · have hring := h.ring.advance hlt hdue
    simpa [store] using hring
  · intro k hk
    by_cases hkj : k = j
    · subst hkj
      simp only [setSender_memory, setSender_history, store_queue, Write.onQueue, update_self, hdueSelf]
      rw [hvalue, queueIndex_indexToWrite hmax hregs.2 hactual, Nat.add_right_comm, Nat.add_sub_cancel,
        Nat.add_mod_right]
    · simp only [setSender_memory, setSender_history, store_queue, Write.onQueue, update_of_ne hkj,
        hdueOther k hkj]
      exact h.low k hk
  · intro k hk
    by_cases hkj : k = j
    · subst hkj
      simp only [setSender_memory, setSender_history, store_queue, Write.onQueue, update_self, hdueSelf]
      rw [hvalue, messageIndex_indexToWrite, if_pos (Nat.le_add_left ..), Nat.add_sub_cancel]
      exact hstamp
    · simp only [setSender_memory, setSender_history, store_queue, Write.onQueue, update_of_ne hkj,
        hdueOther k hkj]
      exact h.number k hk
  · exact h.header
  · exact h.number_le
  · intro k
    have hle := h.leftAt_le k
    by_cases hk : k = (s.memory.queue j).messageIndex
    · subst hk
      simp [store]
    · rw [setSender_history, hleft k hk]
      simp only [store, length_append, length_singleton]
      omega
  · intro q hq
    exact (hleft _ (howned.slot_ne_pinner hlt hq).symm).le.trans (h.pinners q hq)
  · refine .store ?_ fun k hk _ => ?_
    · rw [← hpopped, hp]
      refine .exchanged (by dsimp only; decide) ⟨hseen.symm ▸ hactual, (hseen.trans hhint.symm).le⟩ (fun _ => ?_)
        (by simp) fun _ => ?_
      · simp [store, hseen]
      · simp [store, hseen]
    · refine (h.senders k hk).mono le_rfl (by simp [store]) (fun k => ?_) (fun k hk => ?_) rfl
        (hleft _ (howned.slot_ne_hand hlt hk).symm)
      · by_cases hkj : k = j
        · subst hkj
          exact (Nat.le_add_right _ _).trans (hdue ▸ hdueSelf).ge
        · exact (hdueOther k hkj).ge
      · have hkj : k ≠ j := by
          rintro rfl
          exact absurd (hk.symm.trans hdueSelf) (by omega)
        simp [Write.onQueue, hkj]
  · intro n r hr
    simp only [setSender_history, setSender_memory, store, Memory.setSlot] at hr ⊢
    rcases Nat.lt_or_ge n s.history.sent.length with hn | hn
    · rw [getElem?_append_left hn] at hr
      exact ⟨(h.records n r hr).1, h.records_place_exchange hregs.2 hdue hn (h.records n r hr).2⟩
    · have hlen := (List.getElem?_eq_some_iff.mp hr).1
      rw [length_append, length_singleton] at hlen
      obtain rfl : n = s.history.sent.length := by omega
      rw [getElem?_concat_length, some.injEq] at hr
      subst hr
      refine ⟨nextQueueIndex_index hmax hregs.2 hactual, .inl ?_⟩
      rw [← hslot, update_self, update_self, hdue, hvalue, messageIndex_indexToWrite]
      exact ⟨rfl, rfl⟩

theorem Numbered.pinnerScratch {q : Nat} (h : Numbered c s)
    (hi : i < c.numSenders) (hagrees : (s.sender i).Agrees c (s.memory.senders i))
    (hnext : senderNext c s i = some (p, .pinnerScratch q value)) :
    Numbered c ((s.store c i (.pinnerScratch q value)).setSender i p) := by
  obtain ⟨hpc, -, -, -, hp⟩ := senderNext_pinnerScratch hnext
  obtain ⟨hq, hparked, hgiven⟩ := senderNext_trades hagrees hnext
  have hcounts := h.senders i hi
  refine { h with pinners := ?_, senders := .store ?_ fun k hk _ => ?_ }
  · intro q' hq'
    simp only [setSender_memory, setSender_history, store_pinners, Write.onPinners]
    by_cases hqq : q' = q
    · subst hqq
      rw [update_self, hgiven]
      exact hcounts.left (by simp [hpc])
    · rw [update_of_ne hqq]
      exact h.pinners q' hq'
  · rw [← hparked, hp]
    exact .exchanged (by dsimp only; decide) (hcounts.hint (by rw [hpc]; decide)) (by simp) (fun _ => h.pinners q hq)
      (by simp)
  · exact (h.senders k hk).mono le_rfl le_rfl (fun _ => le_rfl) (fun _ _ => rfl) rfl rfl

/-- The assumptions under which the numbers are in order for any number of messages. -/
def InOrder (c : Configuration) (s : State) (a : Action) : Prop :=
  IndexNotReused s a ∧ NextNotReused s a ∧ NotLapped c s a

instance (c : Configuration) (s : State) (a : Action) : Decidable (InOrder c s a) :=
  inferInstanceAs (Decidable (_ ∧ _))

section

variable (hmax : c.Indexable)

include hmax

theorem numbered_initial : Numbered c (initialState c) := by
  constructor
  · exact fun hlt => absurd hlt (Nat.not_lt_zero 0)
  · exact le_rfl
  · exact Nat.zero_le _
  · rfl
  · exact Ring.Counters.initial _
  · intro j hj
    have hlt := queueSize_lt_maxIndex hmax (Nat.zero_lt_of_lt hj)
    have hincrement : ((QueueIndex.zero c.queueSize).incrementBy j).index = j := by
      have hle := queueSize_le hmax
      rw [QueueIndex.zero, incrementBy_index (by omega) (by omega), Nat.zero_add,
        Nat.mod_eq_of_lt (hj.trans hlt)]
    have hindex : (QueueIndex.zero c.queueSize).incrementBy j = ⟨j, c.queueSize⟩ :=
      congrArg (QueueIndex.mk · c.queueSize) hincrement
    change (Index.ofParts _ j).queueIndex = _
    rw [Index.queueIndex_ofParts, hindex, decrementBy_index hlt.le (hj.trans hlt)]
    rfl
  · intro j hj
    exact (if_neg (Nat.not_le.mpr hj)).symm
  · exact fun _ => rfl
  · exact fun _ _ hw => nomatch hw
  · exact fun _ => le_rfl
  · exact fun _ _ => le_rfl
  · exact fun i hi => SenderCounts.outside (p := initialSender) (by decide) le_rfl fun w hw => nomatch hw
  · intro n r hr
    cases hr

theorem Numbered.step (hagree : SendersAgree c s)
    (howned : Owned c s) (h : Numbered c s) (hok : InOrder c s a) (hstep : step c s a = some s') : Numbered c s' := by
  obtain ⟨hindex, hnextok, hlap⟩ := hok
  cases step_move hstep with
  | sender i p w ha hi hheld hnext =>
    subst ha
    have hagrees := (hagree i hi).1
    cases w with
    | none | field | scratchIndex | toReplace => exact h.silent hmax hi hagrees hnext trivial
    | nextQueueIndex value => exact h.nextQueueIndex hmax hi hagrees hnext hnextok
    | slot j value => exact h.slot hmax howned hi hagrees hnext hindex hlap
    | queueIndex k value => exact h.storeQueueIndex hmax howned hi hagrees hnext
    | pinnerScratch q value => exact h.pinnerScratch hi hagrees hnext
  | fill i offset byte hi hheld hpc =>
    refine h.congr rfl rfl rfl (fun k => ?_) (fun _ => rfl) ?_
    · by_cases hk : k = (s.sender i).data
      · simp [Write.onMessages, hk]
      · simp [Write.onMessages, hk]
    · exact h.senders
  | enter i t p hi hold hnew htid hdied =>
    have hpc : (s.sender i).pc.Outside := hold.elim id fun ht => .inl ((hagree i hi).2 ht)
    refine h.congr rfl rfl rfl (fun _ => rfl) (fun _ => rfl) fun k hk => ?_
    rw [hand_enter hpc.not_exchanged hnew.not_exchanged]
    by_cases hki : k = i
    · subst hki
      have hcounts := h.senders k hk
      simp only [setSender_sender, update_self]
      refine .outside ?_ (hcounts.left ?_) (hcounts.fresh ?_)
      · rcases hnew with hnew | ⟨hnew, -⟩ | ⟨hnew, -⟩ <;> rw [hnew] <;> decide
      · rcases hpc with hpc | hpc <;> simp [hpc]
      · rcases hpc with hpc | hpc <;> rw [hpc] <;> decide
    · simpa [hki] using h.senders k hk
  | kill i hi hheld =>
    refine h.congr rfl rfl rfl (fun _ => rfl) (fun _ => rfl) fun k hk => ?_
    rw [hand_kill]
    exact h.senders k hk
  | pinner i x p hi hmove =>
    refine h.congr rfl rfl rfl (fun _ => rfl) (fun q => ?_) h.senders
    by_cases hq : q = i
    · subst hq
      simp [hmove.scratchIndex]
    · simp [hq]
  | read | reader | clock => exact h.congr rfl rfl rfl (fun _ => rfl) (fun _ => rfl) h.senders
  | overrun k =>
    refine h.congr rfl rfl rfl (fun k' => ?_) (fun _ => rfl) h.senders
    by_cases hk : k' = k
    · simp [Memory.setMessage, hk]
    · simp [Memory.setMessage, hk]

/-- All of the above. -/
structure Sound (c : Configuration) (s : State) : Prop where
  agree : SendersAgree c s
  owned : Owned c s
  numbered : Numbered c s

theorem sound_initial : Sound c (initialState c) :=
  ⟨sendersAgree_initial, owned_initial hmax, numbered_initial hmax⟩

theorem Sound.step (h : Sound c s) (hok : InOrder c s a) (hstep : step c s a = some s') : Sound c s' :=
  ⟨h.agree.step hstep, h.owned.step h.agree hstep, h.numbered.step hmax h.agree h.owned hok hstep⟩

theorem Run.sound (h : Run c (InOrder c) (initialState c) s) : Sound c s :=
  h.invariant (fun _ _ _ hu hok hstep => hu.step hmax hok hstep) (sound_initial hmax)

end

theorem Sound.number_of_step (h : Sound c s) (hstep : IpcLib.step c s a = some s')
    (hnumber : s'.history.number k = some n) : s.history.number k = some n ∨
      s.history.leftAt k ≤ n ∧ ∀ j < c.queueSize, (s.memory.queue j).messageIndex ≠ k := by
  cases step_move hstep with
  | sender i p w ha hi hheld hnext =>
    cases w with
    | queueIndex k' value =>
      have hagrees := (h.agree i hi).1
      obtain rfl := senderNext_queueIndex_hand hagrees hnext
      rw [setSender_history, store_queueIndex_history] at hnumber
      by_cases hk : k = (s.hand i).messageIndex
      · subst hk
        dsimp only at hnumber
        rw [update_self, ite_none_left_eq_some] at hnumber
        obtain ⟨hvalid, hseen⟩ := hnumber
        rcases senderNext_queueIndex hnext with ⟨hpc, -⟩ | ⟨-, -, hvalue, -⟩
        · have hleft := (h.numbered.senders i hi).leftSeen (by rw [hpc]; decide) (by rw [hpc]; decide)
          rw [some.inj hseen] at hleft
          exact .inr ⟨hleft, fun j hj => h.owned.slot_ne_hand hj hi⟩
        · exact absurd hvalue hvalid
      · dsimp only at hnumber
        rw [update_of_ne hk] at hnumber
        exact .inl hnumber
    | _ => exact .inl hnumber
  | _ => exact .inl hnumber

theorem Sound.place_of_step {j : Nat} (h : Sound c s) (hok : InOrder c s a) (hstep : IpcLib.step c s a = some s')
    (hplace : s.history.due j = n ∧ (s.memory.queue j).messageIndex = k ∨ n < s.history.leftAt k) :
    s'.history.due j = n ∧ (s'.memory.queue j).messageIndex = k ∨ n < s'.history.leftAt k := by
  cases step_move hstep with
  | sender i p w ha hi hheld hnext =>
    subst ha
    cases w with
    | slot j' value =>
      obtain ⟨hpc, rfl, rfl, hsame, -⟩ := senderNext_slot hnext
      obtain ⟨-, -, hdue⟩ := h.numbered.exchange_number hi (h.agree i hi).1 hpc hsame hok.1 hok.2.2
      have hleft := h.numbered.leftAt_le k
      change update s.history.due _ _ j = n ∧ (update s.memory.queue _ _ j).messageIndex = k ∨
        n < update s.history.leftAt _ _ k
      by_cases hk : k = (s.memory.queue (s.sender i).slot).messageIndex
      · subst hk
        rw [update_self]
        by_cases hj : j = (s.sender i).slot
        · subst hj
          exact .inr (by omega)
        · rw [update_of_ne hj, update_of_ne hj]
          exact hplace.imp id fun hlt => by omega
      · rw [update_of_ne hk]
        refine hplace.imp (fun ⟨hn, hmessage⟩ => ?_) id
        have hj : j ≠ (s.sender i).slot := by
          rintro rfl
          exact hk hmessage.symm
        rw [update_of_ne hj, update_of_ne hj]
        exact ⟨hn, hmessage⟩
    | _ => exact hplace
  | _ => exact hplace

theorem Sound.record_ne_hand {r : SendRecord} (h : Sound c s) (hr : s.history.sent[n]? = some r)
    (hnumber : s.history.number r.messageIndex = some n) (hi : i < c.numSenders)
    (hpc : (s.sender i).pc ≤ .abandonExchange) : r.messageIndex ≠ (s.hand i).messageIndex := by
  intro heq
  have hn := (List.getElem?_eq_some_iff.mp hr).1
  have hsize := h.numbered.nonempty (by omega)
  rcases (h.numbered.records n r hr).2 with ⟨-, hslot⟩ | ⟨-, hleft⟩
  · exact h.owned.slot_ne_hand (Nat.mod_lt n hsize) hi (hslot.trans heq)
  · have hfresh := (h.numbered.senders i hi).fresh hpc n (heq ▸ hnumber)
    rw [← heq] at hfresh
    omega

/-- So few messages that no sender can be overtaken by a whole round of queue indices. -/
def Few (c : Configuration) (s : State) : Prop :=
  s.history.sent.length < c.maxIndex ∧ s.history.sent.length + c.queueSize ≤ c.maxIndex + 1

instance : Decidable (Few c s) := inferInstanceAs (Decidable (_ ∧ _))

theorem step_extends_sent (hstep : step c s a = some s') : s.history.sent <+: s'.history.sent := by
  cases step_move hstep with
  | sender i p w ha hi hheld hnext =>
    cases w with
    | slot j value => exact prefix_append _ _
    | _ => exact prefix_rfl
  | _ => exact prefix_rfl

theorem Run.extends_sent {ok : State → Action → Prop} (h : Run c ok s s') : s.history.sent <+: s'.history.sent :=
  h.invariant (P := fun u => s.history.sent <+: u.history.sent)
    (fun _ _ _ hu _ hstep => hu.trans (step_extends_sent hstep)) prefix_rfl

theorem Few.of_step (hstep : step c s a = some s') (h : Few c s') : Few c s := by
  have hle := (step_extends_sent hstep).length_le
  exact ⟨by have := h.1; omega, by have := h.2; omega⟩

private theorem hintIndex_injective (hn : n < c.maxIndex) (hk : k < c.maxIndex)
    (heq : hintIndex c n = hintIndex c k) : n = k := by
  have hle : c.maxIndex ≤ QueueIndex.invalid.index := maxIndex_le
  rw [hintIndex, hintIndex, Nat.mod_eq_of_lt hn, Nat.mod_eq_of_lt hk] at heq
  split at heq <;> split at heq <;> omega

theorem inOrder_of_few (h : Numbered c s)
    (hindex : IndexNotReused s a) (hstep : step c s a = some s') (hfew : Few c s') : InOrder c s a := by
  cases a with
  | sender i =>
    simp only [step, ite_none_right_eq_some, senderStep, map_eq_some_iff] at hstep
    obtain ⟨⟨hi, -⟩, ⟨p, w⟩, hnext, hs'⟩ := hstep
    have hcounts := h.senders i hi
    have hsent := h.hint_le
    refine ⟨hindex, fun hpc hsame => ?_, fun hpc hsame => ?_⟩
    · obtain ⟨hactual, hseen⟩ := hcounts.hint (by rcases hpc with hpc | hpc <;> rw [hpc] <;> decide)
      have hlt : s.history.sent.length < c.maxIndex := by
        have hle : s.history.sent.length ≤ s'.history.sent.length := by
          rw [← hs']
          cases w <;> simp [store]
        have := hfew.1
        omega
      rw [h.next, hactual] at hsame
      exact hintIndex_injective (by omega) (by omega) hsame
    · obtain ⟨-, -, -, -, hsentSeen, -⟩ := hcounts.slot (by rw [hpc]; decide) hpc.le
      have hlen : s'.history.sent.length = s.history.sent.length + 1 := by
        simp only [senderNext, hpc, if_pos hsame, some.injEq, Prod.mk.injEq] at hnext
        obtain ⟨-, rfl⟩ := hnext
        rw [← hs']
        simp [store]
      have := hfew.2
      omega
  | _ => exact ⟨hindex, trivial, trivial⟩

end RobotCode.IpcLib
