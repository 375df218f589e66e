import RobotCode.Lib.Fallible
import RobotCode.IpcLib.Cleanup
import RobotCode.IpcLib.Ownership

/-!
# What the cleanup of a recoverable memory does

A memory is recoverable when every message is in one place, counting for each sender one of the two
messages it mentions, and when the senders that died with two different candidates can be ordered: if the
candidate that a dead sender does not own is owned by another one, that one comes later. Then the last one
is never in doubt, so every pass of the last loop settles somebody.
-/

namespace RobotCode.IpcLib

open Fallible Finset Memory Function

variable {c : Configuration} {m m' : Memory} {hand hand' alt rank : Nat → Nat} {i : Nat}

/-- The message in a place, when `hand` tells which message a sender owns. -/
def Memory.place (m : Memory) (hand : Nat → Nat) : Place c → Nat
  | .slot j => (m.queue j).messageIndex
  | .pinner j => (m.pinners j).scratchIndex.messageIndex
  | .hand i => hand i

def Distributed (c : Configuration) (m : Memory) (hand : Nat → Nat) : Prop :=
  ∃ e : Place c ≃ Fin c.numMessages, ∀ place : Place c, m.place hand place = e place

namespace Distributed

variable (h : Distributed c m hand)

include h

theorem lt (place : Place c) : m.place hand place < c.numMessages := by
  obtain ⟨e, he⟩ := h
  rw [he]
  exact (e place).isLt

theorem eq_of_place_eq {p q : Place c} (heq : m.place hand p = m.place hand q) : p = q := by
  obtain ⟨e, he⟩ := h
  rw [he, he] at heq
  exact e.injective (Fin.ext heq)

theorem existsUnique {message : Nat} (hlt : message < c.numMessages) :
    ∃! place : Place c, m.place hand place = message := by
  obtain ⟨e, he⟩ := h
  refine ⟨e.symm ⟨message, hlt⟩, by simp [he], fun place hplace => ?_⟩
  rw [Equiv.eq_symm_apply]
  exact Fin.ext ((he place).symm.trans hplace)

theorem hand_lt (hi : i < c.numSenders) : hand i < c.numMessages := h.lt (.hand ⟨i, hi⟩)

theorem hand_injOn {k : Nat} (hi : i < c.numSenders) (hk : k < c.numSenders) (heq : hand i = hand k) : i = k := by
  simpa using h.eq_of_place_eq (p := .hand ⟨i, hi⟩) (q := .hand ⟨k, hk⟩) heq

theorem pinner_ne_hand {j : Nat} (hj : j < c.numPinners) (hi : i < c.numSenders) :
    (m.pinners j).scratchIndex.messageIndex ≠ hand i :=
  fun heq => absurd (h.eq_of_place_eq (p := .pinner ⟨j, hj⟩) (q := .hand ⟨i, hi⟩) heq) (by simp)

theorem congr (hqueue : m'.queue = m.queue)
    (hscratch : ∀ j, (m'.pinners j).scratchIndex = (m.pinners j).scratchIndex) : Distributed c m' hand := by
  obtain ⟨e, he⟩ := h
  refine ⟨e, fun place => ?_⟩
  rw [← he]
  cases place with
  | slot j => rw [place, hqueue, place]
  | pinner j => rw [place, hscratch, place]
  | hand i => rfl

theorem trade {j : Nat} {x : Index} (hi : i < c.numSenders) (hj : j < c.numPinners) (hqueue : m'.queue = m.queue)
    (hx : x.messageIndex = hand i) (hself : (m'.pinners j).scratchIndex = x)
    (hscratch : ∀ k, k ≠ j → (m'.pinners k).scratchIndex = (m.pinners k).scratchIndex) :
    Distributed c m' (update hand i (m.pinners j).scratchIndex.messageIndex) := by
  obtain ⟨e, he⟩ := h
  refine ⟨(Equiv.swap (.hand ⟨i, hi⟩) (.pinner ⟨j, hj⟩)).trans e, fun place => ?_⟩
  rw [Equiv.trans_apply, ← he]
  cases place with
  | slot k =>
    rw [Equiv.swap_apply_of_ne_of_ne (by simp) (by simp), place, hqueue, place]
  | pinner k =>
    by_cases hk : (k : Nat) = j
    · obtain rfl : k = ⟨j, hj⟩ := Fin.ext hk
      rw [Equiv.swap_apply_right, place, hself, hx, place]
    · rw [Equiv.swap_apply_of_ne_of_ne (by simp) (by simpa [Fin.ext_iff] using hk), place, hscratch _ hk, place]
  | hand k =>
    by_cases hk : (k : Nat) = i
    · obtain rfl : k = ⟨i, hi⟩ := Fin.ext hk
      simp [place]
    · rw [Equiv.swap_apply_of_ne_of_ne (by simpa [Fin.ext_iff] using hk) (by simp)]
      simp [place, hk]

end Distributed

/-! ### Recoverable memories -/

theorem Index.eq_invalid {x : Index} (h : ¬ x.Valid) : x = .invalid := by
  cases x
  simpa [Index.Valid, invalid] using h

def Memory.Dead (m : Memory) (i : Nat) : Prop := (m.senders i).tid = .died

instance (m : Memory) (i : Nat) : Decidable (m.Dead i) := inferInstanceAs (Decidable (_ = _))

/-- A sender died with two different candidates, and owns the message `hand` of the two. -/
structure Sender.Torn (c : Configuration) (x : Sender) (hand alt : Nat) : Prop where
  valid : x.toReplace.Valid
  ne : x.toReplace ≠ x.scratchIndex
  alt_ne : alt ≠ hand
  alt_lt : alt < c.numMessages
  candidates : x.scratchIndex.messageIndex = hand ∧ x.toReplace.messageIndex = alt ∨
    x.scratchIndex.messageIndex = alt ∧ x.toReplace.messageIndex = hand

/-- The states in which a sender can die: with one candidate, with the same one twice, or torn. -/
def Sender.Left (c : Configuration) (x : Sender) (hand alt : Nat) : Prop :=
  ¬ x.toReplace.Valid ∧ x.scratchIndex.messageIndex = hand ∨
    x.toReplace.Valid ∧ x.toReplace = x.scratchIndex ∧ x.scratchIndex.messageIndex = hand ∨
    x.Torn c hand alt

structure Recoverable (c : Configuration) (m : Memory) (hand alt rank : Nat → Nat) : Prop where
  owned : Distributed c m hand
  settled : ∀ i < c.numSenders, ¬ m.Dead i → (m.senders i).scratchIndex.messageIndex = hand i
  left : ∀ i < c.numSenders, m.Dead i → (m.senders i).Left c (hand i) (alt i)
  order : ∀ i < c.numSenders, m.Dead i → (m.senders i).Torn c (hand i) (alt i) →
    ∀ k < c.numSenders, m.Dead k → k ≠ i → hand k = alt i → rank i < rank k

/-- What the cleanup has done to the memory `m₀` so far, when the senders owned `hand₀` at first. It frees dead senders one by
one, and marks as unused the message each owned at first, which the swap code may have given to a pinner since. -/
structure Cleaned (c : Configuration) (m₀ : Memory) (hand₀ : Nat → Nat) (m : Memory) (hand : Nat → Nat) : Prop where
  queue : m.queue = m₀.queue
  alive : ∀ i, ¬ m₀.Dead i → m.senders i = m₀.senders i
  dead : ∀ i, m.Dead i → m.senders i = m₀.senders i ∧ hand i = hand₀ i
  freed : ∀ i, m₀.Dead i → ¬ m.Dead i → (m.senders i).tid = .free ∧ (m.senders i).toReplace = .invalid
  messages : ∀ k, m.messages k =
    if ∃ i < c.numSenders, m₀.Dead i ∧ ¬ m.Dead i ∧ hand₀ i = k then (m₀.messages k).invalidate else m₀.messages k
  /-- Messages move only because of pins. -/
  still : (∀ i < c.numSenders, m₀.Dead i → ¬ m₀.IsPinned c (hand₀ i)) →
    hand = hand₀ ∧ ∀ j, (m.pinners j).scratchIndex = (m₀.pinners j).scratchIndex

theorem Cleaned.refl (c : Configuration) (m : Memory) (hand : Nat → Nat) : Cleaned c m hand m hand where
  queue := rfl
  alive _ _ := rfl
  dead _ _ := ⟨rfl, rfl⟩
  freed _ hdead halive := absurd hdead halive
  messages k := by
    rw [if_neg]
    rintro ⟨i, -, hdead, halive, -⟩
    exact halive hdead
  still _ := ⟨rfl, fun _ => rfl⟩

/-- Sender `i` is done with `index` as its scratch index, and `message` is marked as unused. -/
def Memory.settle (m : Memory) (i : Nat) (index : Index) (message : Nat) : Memory :=
  { m with
    senders := update m.senders i ⟨.free, index, .invalid⟩
    messages := update m.messages message (m.messages message).invalidate }

section Settle

variable {m₀ : Memory} {hand₀ : Nat → Nat} {index : Index}

@[simp] theorem dead_settle (message k : Nat) : (m.settle i index message).Dead k ↔ k ≠ i ∧ m.Dead k := by
  by_cases hk : k = i
  · subst hk
    simp [Memory.Dead, settle]
  · simp [Memory.Dead, settle, hk]

theorem senders_settle {k : Nat} (hk : k ≠ i) (message : Nat) : (m.settle i index message).senders k = m.senders k :=
  update_of_ne hk ..

theorem dead_congr (hsenders : m'.senders = m.senders) (k : Nat) : m'.Dead k ↔ m.Dead k := by
  rw [Memory.Dead, Memory.Dead, hsenders]

theorem Cleaned.dead_start (h : Cleaned c m₀ hand₀ m hand) (hdead : m.Dead i) : m₀.Dead i := by
  rw [Memory.Dead, ← (h.dead i hdead).1]
  exact hdead

theorem isPinned_settle (message k : Nat) :
    (m.settle i index message).IsPinned c k ↔ k ≠ message ∧ m.IsPinned c k := by
  by_cases hk : k = message
  · subst hk
    simp [Memory.IsPinned, settle, Message.invalidate]
  · simp [Memory.IsPinned, settle, hk]

theorem Recoverable.settle (h : Recoverable c m hand alt rank) (howned : Distributed c m' hand')
    (hsenders : m'.senders = m.senders) (hhand : ∀ k, k ≠ i → hand' k = hand k)
    (hindex : index.messageIndex = hand' i) (message : Nat) :
    Recoverable c (m'.settle i index message) hand' alt rank := by
  have hsender : ∀ k, k ≠ i → (m'.settle i index message).senders k = m.senders k := fun k hk => by
    rw [senders_settle hk, hsenders]
  have hdead : ∀ k, (m'.settle i index message).Dead k ↔ k ≠ i ∧ m.Dead k := fun k => by
    rw [dead_settle, dead_congr hsenders]
  refine ⟨howned.congr rfl fun _ => rfl, fun k hk halive => ?_, fun k hk hd => ?_, fun k hk hd htorn k' hk' hd' hne heq => ?_⟩
  · by_cases hki : k = i
    · subst hki
      simp [Memory.settle, hindex]
    · rw [hsender k hki, hhand k hki]
      exact h.settled k hk fun hd => halive ((hdead k).mpr ⟨hki, hd⟩)
  · obtain ⟨hki, hd⟩ := (hdead k).mp hd
    rw [hsender k hki, hhand k hki]
    exact h.left k hk hd
  · obtain ⟨hki, hd⟩ := (hdead k).mp hd
    obtain ⟨hki', hd'⟩ := (hdead k').mp hd'
    rw [hsender k hki, hhand k hki] at htorn
    exact h.order k hk hd htorn k' hk' hd' hne (by rw [← hhand k' hki', heq])

theorem Cleaned.settle (h : Cleaned c m₀ hand₀ m hand) (hi : i < c.numSenders) (hdead : m.Dead i)
    (hqueue : m'.queue = m.queue) (hsenders : m'.senders = m.senders) (hmessages : m'.messages = m.messages)
    (hhand : ∀ k, k ≠ i → hand' k = hand k) (hstill : (∀ k < c.numSenders, m₀.Dead k → ¬ m₀.IsPinned c (hand₀ k)) →
      hand' = hand ∧ ∀ j, (m'.pinners j).scratchIndex = (m.pinners j).scratchIndex) :
    Cleaned c m₀ hand₀ (m'.settle i index (hand₀ i)) hand' := by
  have hdead0 := h.dead_start hdead
  have hdead' : ∀ k, (m'.settle i index (hand₀ i)).Dead k ↔ k ≠ i ∧ m.Dead k := fun k => by
    rw [dead_settle, dead_congr hsenders]
  have hsender : ∀ k, k ≠ i → (m'.settle i index (hand₀ i)).senders k = m.senders k := fun k hk => by
    rw [senders_settle hk, hsenders]
  refine ⟨hqueue.trans h.queue, fun k hk => ?_, fun k hk => ?_, fun k hk halive => ?_, fun k => ?_, fun hpins => ?_⟩
  · rw [hsender k fun heq => hk (heq ▸ hdead0), h.alive k hk]
  · obtain ⟨hki, hk⟩ := (hdead' k).mp hk
    rw [hsender k hki, hhand k hki]
    exact h.dead k hk
  · by_cases hki : k = i
    · subst hki
      simp [Memory.settle]
    · rw [hsender k hki]
      exact h.freed k hk fun hd => halive ((hdead' k).mpr ⟨hki, hd⟩)
  · simp only [hdead']
    by_cases hk : k = hand₀ i
    · subst hk
      rw [if_pos ⟨i, hi, hdead0, by simp, rfl⟩]
      simp only [Memory.settle, update_self, hmessages, h.messages]
      split <;> rfl
    · simp only [Memory.settle, update_of_ne hk, hmessages, h.messages]
      congr 1
      refine propext ⟨fun ⟨k', hk', hd, halive, heq⟩ => ⟨k', hk', hd, fun hd' => halive hd'.2, heq⟩,
        fun ⟨k', hk', hd, halive, heq⟩ => ⟨k', hk', hd, fun hd' => halive ⟨?_, hd'⟩, heq⟩⟩
      rintro rfl
      exact hk heq.symm
  · obtain ⟨hsame, hscratch⟩ := h.still hpins
    obtain ⟨hsame', hscratch'⟩ := hstill hpins
    exact ⟨hsame'.trans hsame, fun j => (hscratch' j).trans (hscratch j)⟩

end Settle

/-- What the swap code does for sender `i` with pinner `j`. -/
def Memory.tradePinner (m : Memory) (i j : Nat) : Memory :=
  { m with
    senders := update m.senders i
      { m.senders i with scratchIndex := (m.pinners j).scratchIndex, toReplace := .invalid }
    pinners := update m.pinners j { m.pinners j with scratchIndex := (m.senders i).scratchIndex } }

theorem swapPinnedSenderScratch_of_not_pinned (index : Index) (fuel j : Nat) (h : ¬ m.IsPinned c index.messageIndex) :
    Meets .outOfFuel (0 < fuel) (fun r => r = (index, m)) (swapPinnedSenderScratch c i index fuel j m) := by
  cases fuel with
  | zero => exact ⟨rfl, lt_irrefl 0⟩
  | succ fuel => simp [swapPinnedSenderScratch, h, Meets]

theorem swapPinnedSenderScratch_of_pinned {toReplace : Index}
    (hvalid : ∀ j < c.numPinners, (m.pinners j).scratchIndex.Valid) (h : m.IsPinned c toReplace.messageIndex)
    (fuel : Nat) : ∀ j < c.numPinners, Meets .outOfFuel
      (∃ t < c.numPinners, j ≤ t ∧ t < fuel + j ∧ ¬ m.IsPinned c (m.pinners t).scratchIndex.messageIndex)
      (fun r => ∃ t < c.numPinners, ¬ m.IsPinned c (m.pinners t).scratchIndex.messageIndex ∧
        r = ((m.pinners t).scratchIndex,
          { m.tradePinner i t with pinners := update m.pinners t { m.pinners t with scratchIndex := toReplace } }))
      (swapPinnedSenderScratch c i toReplace fuel j m) := by
  induction fuel with
  | zero => exact fun j _ => ⟨rfl, fun ⟨t, _, hle, hlt, _⟩ => by omega⟩
  | succ fuel ih =>
    intro j hj
    simp only [swapPinnedSenderScratch, h, hvalid j hj, not_true, if_false]
    split
    · rename_i hpinned
      refine (ih _ (Nat.mod_lt _ (by omega))).mono ?_ fun _ hr => hr
      rintro ⟨t, ht, hle, hlt, hfree⟩
      have hne : t ≠ j := by
        rintro rfl
        exact hfree hpinned
      rw [Nat.mod_eq_of_lt (by omega)]
      exact ⟨t, ht, by omega, by omega, hfree⟩
    · rename_i hfree
      split
      · refine ⟨j, hj, hfree, ?_⟩
        simp [setSender, setPinner, tradePinner]
      · rename_i hne
        exact absurd rfl hne

/-- With fewer pinners than messages that can be told apart, one of the messages is not pinned. -/
theorem exists_not_pinned {l : List Index} (hlength : c.numPinners < l.length)
    (hdistinct : (l.map fun x => (m.messages x.messageIndex).queueIndex).Pairwise fun q r =>
      q ≠ QueueIndex.invalid.index → q ≠ r) : ∃ x ∈ l, ¬ m.IsPinned c x.messageIndex := by
  by_contra! hall
  have hnodup := (List.pairwise_map.mp hdistinct).imp_of_mem fun hx _ hne => hne (hall _ hx).1
  have hsub : (l.map fun x => (m.messages x.messageIndex).queueIndex) ⊆
      (List.range c.numPinners).map fun j => (m.pinners j).pinned := by
    intro q hq
    obtain ⟨x, hx, rfl⟩ := List.mem_map.mp hq
    obtain ⟨-, j, hj, heq⟩ := hall x hx
    exact List.mem_map.mpr ⟨j, List.mem_range.mpr hj, heq⟩
  have hle := (List.subperm_of_subset (List.pairwise_map.mpr hnodup) hsub).length_le
  simp only [List.length_map, List.length_range] at hle
  omega

/-- The messages that the search of `swapPinnedSenderScratch` can return. -/
def Memory.candidates (c : Configuration) (m : Memory) (toReplace : Index) : List Index :=
  toReplace :: (List.range c.numPinners).map fun j => (m.pinners j).scratchIndex

theorem swapPinnedSenderScratch_returns (i fuel : Nat) (toReplace : Index) (hfuel : max 1 c.numPinners ≤ fuel)
    (hvalid : ∀ j < c.numPinners, (m.pinners j).scratchIndex.Valid)
    (hdistinct : ((m.candidates c toReplace).map fun x => (m.messages x.messageIndex).queueIndex).Pairwise
      fun q r => q ≠ QueueIndex.invalid.index → q ≠ r) :
    ∃ index m', swapPinnedSenderScratch c i toReplace fuel 0 m = .ok (index, m') ∧
      ¬ m'.IsPinned c index.messageIndex := by
  by_cases hpinned : m.IsPinned c toReplace.messageIndex
  · obtain ⟨x, hx, hfree⟩ := exists_not_pinned (c := c) (by simp [candidates]) hdistinct
    obtain rfl | hx := List.mem_cons.mp hx
    · exact absurd hpinned hfree
    obtain ⟨t, ht, rfl⟩ := List.mem_map.mp hx
    rw [List.mem_range] at ht
    obtain ⟨r, hrun, t, -, hfree, rfl⟩ := (swapPinnedSenderScratch_of_pinned (i := i) hvalid hpinned fuel 0
      (by omega)).exists_ok ⟨t, ht, by omega, by omega, hfree⟩
    refine ⟨_, _, hrun, fun ⟨hne, j, hj, heq⟩ => hfree ⟨hne, j, hj, ?_⟩⟩
    by_cases hjt : j = t
    · simpa [hjt, tradePinner] using heq
    · simpa [hjt, tradePinner] using heq
  · obtain ⟨_, hrun, rfl⟩ := (swapPinnedSenderScratch_of_not_pinned toReplace fuel 0 hpinned).exists_ok (by omega)
    exact ⟨_, _, hrun, hpinned⟩

theorem swapPinnedSenderScratch_returns_one : ∃ index m',
    swapPinnedSenderScratch ⟨1, 1, 1, 8⟩ 0 (.ofParts 0 1) 1 0
        { initialMemory ⟨1, 1, 1, 8⟩ with
          messages := fun k => { emptyMessage with queueIndex := 5 + k }
          pinners := fun _ => ⟨.free, 6, .ofParts 0 0⟩ } = .ok (index, m') ∧ ¬ m'.IsPinned ⟨1, 1, 1, 8⟩ index.messageIndex :=
  swapPinnedSenderScratch_returns 0 1 _ (by decide) (by decide) (by decide)

/-! ### The easy cases -/

/-- The swap code has a pinner to trade with, or nothing to do. -/
def Unblocked (c : Configuration) (m : Memory) : Prop :=
  (∃ j < c.numPinners, ¬ m.IsPinned c (m.pinners j).scratchIndex.messageIndex) ∨
    ∀ i < c.numSenders, m.Dead i → ¬ (m.senders i).toReplace.Valid →
      ¬ m.IsPinned c (m.senders i).scratchIndex.messageIndex

instance (c : Configuration) (m : Memory) : Decidable (Unblocked c m) := inferInstanceAs (Decidable (_ ∨ _))

/-- How many of the first `k` senders are dead. -/
def Memory.deadBelow (m : Memory) (k : Nat) : Nat := ((range k).filter m.Dead).card

theorem deadBelow_succ (m : Memory) (k : Nat) : m.deadBelow (k + 1) = m.deadBelow k + if m.Dead k then 1 else 0 := by
  rw [deadBelow, range_add_one, filter_insert]
  split
  · rw [card_insert_of_notMem (by simp), deadBelow]
  · rfl

theorem deadBelow_settle {k : Nat} (hk : k ≤ i) (index : Index) (message : Nat) :
    (m.settle i index message).deadBelow k = m.deadBelow k := by
  refine congrArg card (filter_congr fun k' hk' => ?_)
  have : k' ≠ i := by
    rw [mem_range] at hk'
    omega
  simp [this]

theorem deadBelow_le (m : Memory) (k : Nat) : m.deadBelow k ≤ k := (card_filter_le _ _).trans (card_range k).le

theorem not_dead_of_deadBelow {k : Nat} (h : m.deadBelow k = 0) (hi : i < k) : ¬ m.Dead i := by
  rw [deadBelow, card_eq_zero, filter_eq_empty_iff] at h
  exact h (mem_range.mpr hi)

/-- The first loop has dealt with the senders below `k`. -/
structure EasyDone (c : Configuration) (m₀ : Memory) (hand₀ alt rank : Nat → Nat) (k : Nat) (st : EasyCleanup)
    (hand : Nat → Nat) : Prop where
  recoverable : Recoverable c st.memory hand alt rank
  cleaned : Cleaned c m₀ hand₀ st.memory hand
  pinners : ∀ j, (st.memory.pinners j).pinned = (m₀.pinners j).pinned ∧
    (st.memory.pinners j).tid = (m₀.pinners j).tid
  need : ∀ i, st.needRecovery i = true ↔ i < k ∧ st.memory.Dead i
  torn : ∀ i < k, st.memory.Dead i → (st.memory.senders i).Torn c (hand i) (alt i)
  valid : st.validSenders + st.memory.deadBelow k = k
  unblocked : Unblocked c st.memory ↔ Unblocked c m₀

section Easy

variable {m₀ : Memory} {hand₀ : Nat → Nat} {st : EasyCleanup} {k : Nat}

theorem EasyDone.start (h : Recoverable c m₀ hand₀ alt rank) :
    EasyDone c m₀ hand₀ alt rank 0 ⟨m₀, fun _ => false, 0⟩ hand₀ where
  recoverable := h
  cleaned := .refl c m₀ hand₀
  pinners _ := ⟨rfl, rfl⟩
  need _ := by simp
  torn _ hi := absurd hi (Nat.not_lt_zero _)
  valid := by simp [deadBelow]
  unblocked := Iff.rfl

section

variable (h : EasyDone c m₀ hand₀ alt rank k st hand)

include h

theorem EasyDone.skip (halive : ¬ st.memory.Dead k) :
    EasyDone c m₀ hand₀ alt rank (k + 1) { st with validSenders := st.validSenders + 1 } hand where
  __ := h
  need i := by
    rw [h.need]
    refine and_congr_left fun hdead => ?_
    have : i ≠ k := fun heq => halive (heq ▸ hdead)
    omega
  torn i hi hdead := h.torn i (by have : i ≠ k := fun heq => halive (heq ▸ hdead); omega) hdead
  valid := by
    have hvalid := h.valid
    simp only [deadBelow_succ, if_neg halive]
    omega

theorem EasyDone.postpone (hdead : st.memory.Dead k) (htorn : (st.memory.senders k).Torn c (hand k) (alt k)) :
    EasyDone c m₀ hand₀ alt rank (k + 1) { st with needRecovery := update st.needRecovery k true } hand where
  __ := h
  need i := by
    by_cases hik : i = k
    · subst hik
      simp [hdead]
    · dsimp only
      rw [update_of_ne hik, h.need]
      exact and_congr_left fun _ => by omega
  torn i hi hd := by
    by_cases hik : i = k
    · subst hik
      exact htorn
    · exact h.torn i (by omega) hd
  valid := by
    have hvalid := h.valid
    simp only [deadBelow_succ, if_pos hdead]
    omega

theorem EasyDone.settle (m' : Memory) (index : Index) (hk : k < c.numSenders)
    (hdead : st.memory.Dead k) (howned : Distributed c m' hand') (hqueue : m'.queue = st.memory.queue)
    (hsenders : m'.senders = st.memory.senders) (hmessages : m'.messages = st.memory.messages)
    (hpinners : ∀ j, (m'.pinners j).pinned = (st.memory.pinners j).pinned ∧
      (m'.pinners j).tid = (st.memory.pinners j).tid)
    (hhand : ∀ i, i ≠ k → hand' i = hand i) (hindex : index.messageIndex = hand' k)
    (hstill : (∀ i < c.numSenders, m₀.Dead i → ¬ m₀.IsPinned c (hand₀ i)) →
      hand' = hand ∧ ∀ j, (m'.pinners j).scratchIndex = (st.memory.pinners j).scratchIndex)
    (hunblocked : Unblocked c (m'.settle k index (hand₀ k)) ↔ Unblocked c st.memory) :
    EasyDone c m₀ hand₀ alt rank (k + 1)
      { st with memory := m'.settle k index (hand₀ k), validSenders := st.validSenders + 1 } hand' where
  recoverable := h.recoverable.settle howned hsenders hhand hindex _
  cleaned := h.cleaned.settle hk hdead hqueue hsenders hmessages hhand hstill
  pinners j := ⟨(hpinners j).1.trans (h.pinners j).1, (hpinners j).2.trans (h.pinners j).2⟩
  need i := by
    rw [h.need, dead_settle, dead_congr hsenders]
    constructor
    · exact fun ⟨hlt, hd⟩ => ⟨by omega, by omega, hd⟩
    · exact fun ⟨hlt, hne, hd⟩ => ⟨by omega, hd⟩
  torn i hi hd := by
    rw [dead_settle, dead_congr hsenders] at hd
    rw [senders_settle hd.1, hsenders, hhand i hd.1]
    exact h.torn i (by have := hd.1; omega) hd.2
  valid := by
    have hvalid := h.valid
    have hbelow : m'.deadBelow k = st.memory.deadBelow k :=
      congrArg card (filter_congr fun i _ => dead_congr hsenders i)
    simp only [deadBelow_succ, deadBelow_settle le_rfl, hbelow]
    rw [if_neg (by simp)]
    omega
  unblocked := hunblocked.trans h.unblocked

end

theorem unblocked_settle (h : Recoverable c m hand alt rank) (hk : k < c.numSenders)
    (hfree : ¬ (m.senders k).toReplace.Valid → ¬ m.IsPinned c (m.senders k).scratchIndex.messageIndex) (index : Index) :
    Unblocked c (m.settle k index (hand k)) ↔ Unblocked c m := by
  refine or_congr (exists_congr fun j => and_congr_right fun hj => ?_) (forall₂_congr fun i hi => ?_)
  · rw [isPinned_settle]
    have hne := h.owned.pinner_ne_hand hj hk
    simp [settle, hne]
  · by_cases hik : i = k
    · subst hik
      simpa using fun _ => hfree
    · rw [dead_settle, senders_settle hik, isPinned_settle]
      refine ⟨fun hall hdead hinvalid hpinned => ?_, fun hall hdead hinvalid hpinned => ?_⟩
      · refine hall ⟨hik, hdead⟩ hinvalid ⟨fun heq => hik ?_, hpinned⟩
        rcases h.left i hi hdead with ⟨-, hscratch⟩ | ⟨hvalid, -⟩ | htorn
        · exact h.owned.hand_injOn hi hk (hscratch.symm.trans heq)
        · exact absurd hvalid hinvalid
        · exact absurd htorn.valid hinvalid
      · exact hall hdead.2 hinvalid hpinned.2

private def traded (m : Memory) (k t : Nat) : Memory :=
  { m with pinners := update m.pinners t { m.pinners t with scratchIndex := (m.senders k).scratchIndex } }

theorem EasyDone.isPinned (h : EasyDone c m₀ hand₀ alt rank k st hand) {message : Nat}
    (hpinned : st.memory.IsPinned c message) : m₀.IsPinned c message := by
  obtain ⟨hvalid, j, hj, heq⟩ := hpinned
  rw [h.cleaned.messages] at hvalid heq
  split at hvalid
  · exact absurd rfl hvalid
  · rename_i hkept
    rw [if_neg hkept, (h.pinners j).1] at heq
    exact ⟨hvalid, j, hj, heq⟩

section

variable (hmax : c.Indexable) (h : EasyDone c m₀ hand₀ alt rank k st hand) (fuel : Nat) (hk : k < c.numSenders)

include hmax h hk

theorem cleanupEasySender_single (hdead : st.memory.Dead k) (hinvalid : ¬ (st.memory.senders k).toReplace.Valid)
    (hscratch : (st.memory.senders k).scratchIndex.messageIndex = hand k) :
    Meets .outOfFuel (Unblocked c m₀ ∧ c.numPinners < fuel)
      (fun st' => ∃ hand', EasyDone c m₀ hand₀ alt rank (k + 1) st' hand') (cleanupEasySender c fuel st k) := by
  have hhand0 := (h.cleaned.dead k hdead).2
  have hbound : ∀ {n}, n < c.numMessages → n < 0xffff := fun hn => by
    have := hn.trans_le hmax
    rw [Index.maxMessages] at this
    omega
  have hvalid : (st.memory.senders k).scratchIndex.Valid :=
    Index.valid_of_messageIndex_lt (hbound (hscratch ▸ h.recoverable.owned.hand_lt hk))
  have htid : (st.memory.senders k).tid = .died := hdead
  simp only [cleanupEasySender, htid, hinvalid, hvalid, ne_eq, not_true, not_false_eq_true, if_true, if_false]
  by_cases hpinned : st.memory.IsPinned c (st.memory.senders k).scratchIndex.messageIndex
  · have hpinner : ∀ j < c.numPinners, (st.memory.pinners j).scratchIndex.Valid := fun j hj =>
      Index.valid_of_messageIndex_lt (hbound (h.recoverable.owned.lt (.pinner ⟨j, hj⟩)))
    have hpos : 0 < c.numPinners := by
      obtain ⟨j, hj, -⟩ := hpinned.2
      omega
    refine ((swapPinnedSenderScratch_of_pinned hpinner hpinned fuel 0 hpos).mono ?_ fun _ hr => hr).bind ?_
    · rintro ⟨hunblocked, hfuel⟩
      rcases h.unblocked.mpr hunblocked with ⟨t, ht, hfree⟩ | hnone
      · exact ⟨t, ht, Nat.zero_le _, by omega, hfree⟩
      · exact absurd hpinned (hnone k hk hdead hinvalid)
    · rintro _ ⟨t, ht, hfree, rfl⟩
      refine ⟨update hand k (st.memory.pinners t).scratchIndex.messageIndex, ?_⟩
      have hdone := h.settle (traded st.memory k t) (st.memory.pinners t).scratchIndex hk hdead
        (h.recoverable.owned.trade hk ht rfl hscratch (by simp [traded]) (fun j hj => by simp [traded, hj])) rfl rfl rfl
        (fun j => by by_cases hj : j = t <;> simp [traded, hj]) (fun i hi => by simp [hi]) (by simp) ?_ ?_
      · convert hdone using 2
        simp [settle, traded, tradePinner, setMessage, setSender, hscratch, hhand0, htid]
      · intro hpins
        have hpinned0 := h.isPinned hpinned
        rw [hscratch, hhand0] at hpinned0
        exact absurd hpinned0 (hpins k hk (h.cleaned.dead_start hdead))
      · refine iff_of_true (.inl ⟨t, ht, ?_⟩) (.inl ⟨t, ht, hfree⟩)
        rw [isPinned_settle]
        simp [settle, traded, hscratch, hhand0]
  · refine ((swapPinnedSenderScratch_of_not_pinned _ fuel 0 hpinned).mono (fun h => by omega) fun _ hr => hr).bind ?_
    rintro _ rfl
    have hdone := h.settle st.memory (st.memory.senders k).scratchIndex hk hdead h.recoverable.owned
      rfl rfl rfl (fun _ => ⟨rfl, rfl⟩) (fun _ _ => rfl) hscratch (fun _ => ⟨rfl, fun _ => rfl⟩)
      (hhand0 ▸ unblocked_settle h.recoverable hk (fun _ => hpinned) _)
    refine ⟨hand, ?_⟩
    convert hdone using 2
    have hnone := Index.eq_invalid hinvalid
    simp [settle, setMessage, setSender, hscratch, hhand0, hnone]

omit hmax in
theorem cleanupEasySender_twice (hdead : st.memory.Dead k) (hvalid : (st.memory.senders k).toReplace.Valid)
    (heq : (st.memory.senders k).toReplace = (st.memory.senders k).scratchIndex)
    (hscratch : (st.memory.senders k).scratchIndex.messageIndex = hand k) :
    ∃ st', cleanupEasySender c fuel st k = .ok st' ∧ EasyDone c m₀ hand₀ alt rank (k + 1) st' hand := by
  have hhand0 := (h.cleaned.dead k hdead).2
  have htid : (st.memory.senders k).tid = .died := hdead
  refine ⟨_, by simp only [cleanupEasySender, htid, hvalid, ne_eq, not_true, if_false, if_pos heq]; rfl, ?_⟩
  have hdone := h.settle st.memory (st.memory.senders k).scratchIndex hk hdead h.recoverable.owned
    rfl rfl rfl (fun _ => ⟨rfl, rfl⟩) (fun _ _ => rfl) hscratch (fun _ => ⟨rfl, fun _ => rfl⟩)
    (hhand0 ▸ unblocked_settle h.recoverable hk (fun hinvalid => absurd hvalid hinvalid) _)
  convert hdone using 2
  simp [settle, setMessage, setSender, hscratch, hhand0]

theorem cleanupEasySender_meets :
    Meets .outOfFuel (Unblocked c m₀ ∧ c.numPinners < fuel)
      (fun st' => ∃ hand', EasyDone c m₀ hand₀ alt rank (k + 1) st' hand') (cleanupEasySender c fuel st k) := by
  by_cases hdead : st.memory.Dead k
  · have htid : (st.memory.senders k).tid = .died := hdead
    rcases h.recoverable.left k hk hdead with ⟨hinvalid, hscratch⟩ | ⟨hvalid, heq, hscratch⟩ | htorn
    · exact cleanupEasySender_single hmax h fuel hk hdead hinvalid hscratch
    · obtain ⟨st', hrun, hdone⟩ := cleanupEasySender_twice h fuel hk hdead hvalid heq hscratch
      rw [hrun]
      exact ⟨hand, hdone⟩
    · simp only [cleanupEasySender, htid, htorn.valid, htorn.ne, ne_eq, not_true, if_false]
      exact ⟨hand, h.postpone hdead htorn⟩
  · have htid : (st.memory.senders k).tid ≠ .died := hdead
    simp only [cleanupEasySender, htid, ne_eq, not_false_eq_true, if_true]
    exact ⟨hand, h.skip hdead⟩

end

theorem easyCleanup_meets (hmax : c.Indexable) (h : Recoverable c m₀ hand₀ alt rank)
    (fuel : Nat) : Meets .outOfFuel (Unblocked c m₀ ∧ c.numPinners < fuel)
      (fun st => ∃ hand, EasyDone c m₀ hand₀ alt rank c.numSenders st hand)
      ((List.range c.numSenders).foldlM (cleanupEasySender c fuel) ⟨m₀, fun _ => false, 0⟩) :=
  Meets.foldlM_range (P := fun k st => ∃ hand, EasyDone c m₀ hand₀ alt rank k st hand) ⟨hand₀, .start h⟩
    fun _ hk _ ⟨_, hdone⟩ => cleanupEasySender_meets hmax hdone fuel hk

/-- The first loop comes to an end only if the swap code does. -/
theorem EasyDone.unblocked_start (h : EasyDone c m₀ hand₀ alt rank c.numSenders st hand) : Unblocked c m₀ :=
  h.unblocked.mp (.inr fun i hi hdead hinvalid => absurd (h.torn i hi hdead).valid hinvalid)

end Easy

/-- A dead pinner gives up its pin and its slot. -/
def Pinner.cleaned (x : Pinner) : Pinner :=
  if x.tid = .died then { x with pinned := QueueIndex.invalid.index, tid := .free } else x

theorem cleanupPinners_eq (m : Memory) (n : Nat) : (List.range n).foldl cleanupPinner m =
    { m with pinners := fun j => if j < n then (m.pinners j).cleaned else m.pinners j } := by
  refine foldl_range (s := m) (P := fun k m' => m' =
    { m with pinners := fun j => if j < k then (m.pinners j).cleaned else m.pinners j }) (by simp) ?_
  rintro k - _ rfl
  simp only [cleanupPinner, lt_irrefl, if_false, setPinner]
  split
  · rename_i halive
    congr 1
    funext j
    by_cases hj : j = k
    · subst hj
      simp [Pinner.cleaned, halive]
    · simp [show j < k + 1 ↔ j < k by omega]
  · rename_i hdead
    congr 1
    funext j
    by_cases hj : j = k
    · subst hj
      simp [Pinner.cleaned, not_not.mp hdead]
    · simp [hj, show j < k + 1 ↔ j < k by omega]

@[simp] theorem scratchIndex_cleaned (x : Pinner) : x.cleaned.scratchIndex = x.scratchIndex := by
  rw [Pinner.cleaned]
  split <;> rfl

/-! ### Accounting -/

structure Accounting.Counts (c : Configuration) (acc : Accounting) : Prop where
  lt : ∀ n, acc.accountedFor n = true → n < c.numMessages
  count : acc.numAccountedFor = ((range c.numMessages).filter fun n => acc.accountedFor n = true).card

theorem Accounting.mark_accountedFor (acc : Accounting) (index : Index) (n : Nat) :
    (acc.mark index).accountedFor n = true ↔ acc.accountedFor n = true ∨ index.messageIndex = n := by
  rw [mark]
  split
  · rename_i hmarked
    exact ⟨.inl, fun h => h.elim id fun heq => heq ▸ hmarked⟩
  · by_cases hn : n = index.messageIndex
    · subst hn
      simp
    · simp [hn, Ne.symm hn]

@[simp] theorem Accounting.mark_numMissing (acc : Accounting) (index : Index) :
    (acc.mark index).numMissing = acc.numMissing := by
  rw [mark]
  split <;> rfl

theorem Accounting.Counts.mark {acc : Accounting} (h : acc.Counts c) {index : Index}
    (hlt : index.messageIndex < c.numMessages) : (acc.mark index).Counts c := by
  refine ⟨fun n hn => ?_, ?_⟩
  · rw [Accounting.mark_accountedFor] at hn
    exact hn.elim (h.lt n) fun heq => heq ▸ hlt
  · simp only [Accounting.mark_accountedFor]
    by_cases hmarked : acc.accountedFor index.messageIndex = true
    · have hsame : ∀ n, acc.accountedFor n = true ∨ index.messageIndex = n ↔ acc.accountedFor n = true :=
        fun n => ⟨fun hn => hn.elim id fun heq => heq ▸ hmarked, .inl⟩
      simp [hsame, Accounting.mark, if_pos hmarked, h.count]
    · have hinsert : (range c.numMessages).filter (fun n => acc.accountedFor n = true ∨ index.messageIndex = n) =
          insert index.messageIndex ((range c.numMessages).filter fun n => acc.accountedFor n = true) := by
        rw [filter_or, filter_eq, if_pos (mem_range.mpr hlt), union_comm, insert_eq]
      rw [hinsert, card_insert_of_notMem (by simp [hmarked]), ← h.count, Accounting.mark, if_neg hmarked]

theorem Accounting.Counts.markAll {acc : Accounting} (h : acc.Counts c) (n : Nat) (index : Nat → Index)
    (hlt : ∀ j < n, (index j).messageIndex < c.numMessages) :
    let acc' := (List.range n).foldl (fun acc j => acc.mark (index j)) acc
    acc'.Counts c ∧ acc'.numMissing = acc.numMissing ∧
      ∀ k, acc'.accountedFor k = true ↔ acc.accountedFor k = true ∨ ∃ j < n, (index j).messageIndex = k := by
  refine foldl_range (s := acc) (P := fun t (acc' : Accounting) => acc'.Counts c ∧ acc'.numMissing = acc.numMissing ∧
    ∀ k, acc'.accountedFor k = true ↔ acc.accountedFor k = true ∨ ∃ j < t, (index j).messageIndex = k)
    ⟨h, rfl, fun k => by simp⟩ ?_
  rintro t ht acc' ⟨hcounts, hmissing, hmarks⟩
  refine ⟨hcounts.mark (hlt t ht), by simpa using hmissing, fun k => ?_⟩
  rw [mark_accountedFor, hmarks, Nat.exists_lt_succ_right, or_assoc]

structure Accounted (c : Configuration) (m : Memory) (hand : Nat → Nat) (acc : Accounting) : Prop where
  missing : acc.numMissing = m.deadBelow c.numSenders
  marks : ∀ n < c.numMessages, acc.accountedFor n = true ↔ ∀ i < c.numSenders, m.Dead i → hand i ≠ n

theorem Distributed.card_dead (h : Distributed c m hand) :
    ((range c.numMessages).filter fun n => ∀ i < c.numSenders, m.Dead i → hand i ≠ n).card +
      m.deadBelow c.numSenders = c.numMessages := by
  have himage : ((range c.numSenders).filter m.Dead).image hand =
      (range c.numMessages).filter fun n => ¬ ∀ i < c.numSenders, m.Dead i → hand i ≠ n := by
    ext n
    simp only [mem_image, mem_filter, mem_range]
    push Not
    constructor
    · rintro ⟨i, ⟨hi, hdead⟩, rfl⟩
      exact ⟨h.hand_lt hi, i, hi, hdead, rfl⟩
    · rintro ⟨-, i, hi, hdead, heq⟩
      exact ⟨i, ⟨hi, hdead⟩, heq⟩
  have hcard : m.deadBelow c.numSenders =
      ((range c.numMessages).filter fun n => ¬ ∀ i < c.numSenders, m.Dead i → hand i ≠ n).card := by
    rw [← himage, card_image_of_injOn, deadBelow]
    intro i hi k hk heq
    simp only [coe_filter, mem_range, Set.mem_ofPred_eq] at hi hk
    exact h.hand_injOn hi.1 hk.1 heq
  rw [hcard, card_filter_add_card_filter_not, card_range]

section Accounting

variable {st : EasyCleanup}

section

variable (h : Recoverable c st.memory hand alt rank) (hneed : ∀ i < c.numSenders, st.needRecovery i = true ↔ st.memory.Dead i)

include h hneed

theorem accountForSenders_meets {acc : Accounting} (hcounts : acc.Counts c)
    (hnone : ∀ n, acc.accountedFor n = false) :
    Meets .outOfFuel True (fun acc' => acc'.Counts c ∧ acc'.numMissing = st.memory.deadBelow c.numSenders ∧
        ∀ n, acc'.accountedFor n = true ↔ ∃ i < c.numSenders, ¬ st.memory.Dead i ∧ hand i = n)
      ((List.range c.numSenders).foldlM (accountForSender st) { acc with numMissing := 0 }) := by
  refine Meets.foldlM_range (P := fun k (acc' : Accounting) => acc'.Counts c ∧ acc'.numMissing = st.memory.deadBelow k ∧
    ∀ n, acc'.accountedFor n = true ↔ ∃ i < k, ¬ st.memory.Dead i ∧ hand i = n) ?_ ?_
  · exact ⟨⟨hcounts.lt, hcounts.count⟩, by simp [deadBelow], fun n => by simp [hnone]⟩
  · rintro k hk acc' ⟨hcounts', hmissing, hmarks⟩
    rw [accountForSender]
    by_cases hdead : st.memory.Dead k
    · have htid : (st.memory.senders k).tid = .died := hdead
      simp only [htid, (hneed k hk).mpr hdead, if_true]
      refine ⟨⟨hcounts'.lt, hcounts'.count⟩, by simp [deadBelow_succ, hdead, hmissing], fun n => ?_⟩
      rw [hmarks, Nat.exists_lt_succ_right]
      simp [hdead]
    · have htid : (st.memory.senders k).tid ≠ .died := hdead
      have hneed' : ¬ st.needRecovery k = true := fun hn => hdead ((hneed k hk).mp hn)
      have hscratch := h.settled k hk hdead
      simp only [htid, hneed', if_false]
      refine ⟨hcounts'.mark (hscratch ▸ h.owned.hand_lt hk), by simp [deadBelow_succ, hdead, hmissing], fun n => ?_⟩
      rw [Accounting.mark_accountedFor, hmarks, hscratch, Nat.exists_lt_succ_right]
      simp [hdead]

omit h hneed in
theorem Distributed.found_iff (h : Distributed c m hand) {n : Nat} (hn : n < c.numMessages) :
    (((∃ i < c.numSenders, ¬ m.Dead i ∧ hand i = n) ∨ ∃ j < c.queueSize, (m.queue j).messageIndex = n) ∨
      ∃ j < c.numPinners, (m.pinners j).scratchIndex.messageIndex = n) ↔
    ∀ i < c.numSenders, m.Dead i → hand i ≠ n := by
  constructor
  · rintro ((⟨i, hi, halive, heq⟩ | ⟨j, hj, heq⟩) | ⟨j, hj, heq⟩) k hk hdead heq'
    · exact halive (h.hand_injOn hi hk (heq.trans heq'.symm) ▸ hdead)
    · exact absurd (h.eq_of_place_eq (p := .slot ⟨j, hj⟩) (q := .hand ⟨k, hk⟩) (heq.trans heq'.symm)) (by simp)
    · exact h.pinner_ne_hand hj hk (heq.trans heq'.symm)
  · intro hnone
    obtain ⟨place, hplace, -⟩ := h.existsUnique hn
    cases place with
    | slot j => exact .inl (.inr ⟨j, j.isLt, hplace⟩)
    | pinner j => exact .inr ⟨j, j.isLt, hplace⟩
    | hand i => exact .inl (.inl ⟨i, i.isLt, fun hdead => hnone i i.isLt hdead hplace, hplace⟩)

theorem accountForMessages_meets {acc : Accounting} (hcounts : acc.Counts c)
    (hnone : ∀ n, acc.accountedFor n = false) : Meets .outOfFuel True (fun acc' => Accounted c st.memory hand acc' ∧
        acc'.numAccountedFor + acc'.numMissing = c.numMessages) (accountForMessages c st acc) := by
  refine (accountForSenders_meets h hneed hcounts hnone).bind ?_
  rintro acc1 ⟨hcounts1, hmissing1, hmarks1⟩
  obtain ⟨hcounts2, hmissing2, hmarks2⟩ :=
    hcounts1.markAll c.queueSize st.memory.queue fun j hj => h.owned.lt (.slot ⟨j, hj⟩)
  obtain ⟨hcounts3, hmissing3, hmarks3⟩ := hcounts2.markAll c.numPinners
    (fun j => (st.memory.pinners j).scratchIndex) fun j hj => h.owned.lt (.pinner ⟨j, hj⟩)
  have hmarks : ∀ n < c.numMessages, _ := fun n hn =>
    (hmarks3 n).trans ((or_congr_left ((hmarks2 n).trans (or_congr_left (hmarks1 n)))).trans (h.owned.found_iff hn))
  have hmissing := hmissing3.trans (hmissing2.trans hmissing1)
  have hsum : ((List.range c.numPinners).foldl (fun acc j => acc.mark (st.memory.pinners j).scratchIndex)
      ((List.range c.queueSize).foldl (fun acc j => acc.mark (st.memory.queue j)) acc1)).numAccountedFor +
      st.memory.deadBelow c.numSenders = c.numMessages := by
    rw [hcounts3.count, filter_congr fun n hn => hmarks n (mem_range.mp hn)]
    exact h.owned.card_dead
  rw [if_pos (by rw [hmissing]; exact hsum.le)]
  exact ⟨⟨hmissing, hmarks⟩, by rw [hmissing]; exact hsum⟩

end

theorem accountForAll_meets (st : EasyCleanup) (h : Recoverable c st.memory hand alt rank)
    (hneed : ∀ i < c.numSenders, st.needRecovery i = true ↔ st.memory.Dead i) (fuel : Nat) :
    Meets .outOfFuel (1 < fuel) (Accounted c st.memory hand) (accountForAll c st fuel ⟨fun _ => false, 0, 0⟩) := by
  cases fuel with
  | zero => exact ⟨rfl, by omega⟩
  | succ fuel =>
    rw [accountForAll]
    by_cases hempty : c.numMessages = 0
    · rw [if_pos (show 0 + 0 = c.numMessages from hempty.symm)]
      have hsenders : c.numSenders = 0 := by
        rw [Configuration.numMessages] at hempty
        omega
      exact ⟨by simp [deadBelow, hsenders], fun n hn => by omega⟩
    · rw [if_neg (by simpa using Ne.symm hempty)]
      refine ((accountForMessages_meets h hneed ⟨by simp, by simp⟩ fun _ => rfl).mono (fun _ => trivial)
        fun _ hacc => hacc).bind ?_
      rintro acc ⟨hacc, hsum⟩
      cases fuel with
      | zero => exact ⟨rfl, by omega⟩
      | succ fuel =>
        rw [accountForAll, if_pos hsum]
        exact hacc

end Accounting

/-! ### The hard cases -/

structure HardDone (c : Configuration) (m₀ : Memory) (hand₀ alt rank : Nat → Nat) (hand : Nat → Nat)
    (st : HardCleanup) : Prop where
  recoverable : Recoverable c st.memory hand alt rank
  cleaned : Cleaned c m₀ hand₀ st.memory hand
  torn : ∀ i < c.numSenders, st.memory.Dead i → (st.memory.senders i).Torn c (hand i) (alt i)
  need : ∀ i < c.numSenders, st.needRecovery i = true ↔ st.memory.Dead i
  accounted : Accounted c st.memory hand st.accounting

theorem deadBelow_settle_of_dead {k : Nat} (hik : i < k) (hdead : m.Dead i) (index : Index) (message : Nat) :
    (m.settle i index message).deadBelow k + 1 = m.deadBelow k := by
  have herase : (range k).filter (m.settle i index message).Dead = ((range k).filter m.Dead).erase i := by
    ext k'
    simp only [mem_filter, mem_erase, dead_settle]
    tauto
  rw [deadBelow, herase, card_erase_add_one (by simp [hik, hdead]), deadBelow]

section Hard

variable {m₀ : Memory} {hand₀ : Nat → Nat} {st : HardCleanup}

theorem HardDone.settle {index : Index} (h : HardDone c m₀ hand₀ alt rank hand st) (hi : i < c.numSenders)
    (hdead : st.memory.Dead i) (hindex : index.messageIndex = hand i)
    (hm : m.setSender i (fun x => { x with tid := .free }) = st.memory.settle i index (hand i)) :
    HardDone c m₀ hand₀ alt rank hand (st.resolve m i index) := by
  have hhand0 := (h.cleaned.dead i hdead).2
  have hmemory : (st.resolve m i index).memory = st.memory.settle i index (hand i) := hm
  refine ⟨?_, ?_, fun k hk hd => ?_, fun k hk => ?_, ⟨?_, fun n hn => ?_⟩⟩ <;> rw [hmemory] at *
  · exact h.recoverable.settle h.recoverable.owned rfl (fun _ _ => rfl) hindex _
  · rw [hhand0]
    exact h.cleaned.settle hi hdead rfl rfl rfl (fun _ _ => rfl) fun _ => ⟨rfl, fun _ => rfl⟩
  · rw [dead_settle] at hd
    rw [senders_settle hd.1]
    exact h.torn k hk hd.2
  · by_cases hki : k = i
    · subst hki
      simp [HardCleanup.resolve]
    · simp [HardCleanup.resolve, hki, h.need k hk]
  · have hcount := deadBelow_settle_of_dead hi hdead index (hand i)
    have hmissing := h.accounted.missing
    simp only [HardCleanup.resolve]
    omega
  · simp only [HardCleanup.resolve, hindex, dead_settle]
    by_cases hni : n = hand i
    · subst hni
      rw [update_self]
      refine iff_of_true rfl fun k hk hd heq => hd.1 (h.recoverable.owned.hand_injOn hk hi heq)
    · rw [update_of_ne hni, h.accounted.marks n hn]
      constructor
      · exact fun hall k hk hd => hall k hk hd.2
      · intro hall k hk hd heq
        by_cases hki : k = i
        · exact hni (heq.symm.trans (congrArg hand hki))
        · exact hall k hk ⟨hki, hd⟩ heq

theorem recoverSender_ok (hmax : c.Indexable) (h : HardDone c m₀ hand₀ alt rank hand st)
    (hi : i < c.numSenders) : ∃ st', recoverSender c st i = .ok st' ∧ HardDone c m₀ hand₀ alt rank hand st' ∧
      st'.memory.pinners = st.memory.pinners ∧ (∀ k, st'.memory.Dead k → st.memory.Dead k) ∧
      (st'.memory.Dead i → st.accounting.accountedFor (alt i) = false) := by
  by_cases hdead : st.memory.Dead i
  · have htid : (st.memory.senders i).tid = .died := hdead
    have htorn := h.torn i hi hdead
    have hhand := h.recoverable.owned.hand_lt hi
    have hunmarked : st.accounting.accountedFor (hand i) = false := by
      rw [← Bool.not_eq_true, h.accounted.marks _ hhand]
      exact fun hall => hall i hi hdead rfl
    have hvalid : (st.memory.senders i).scratchIndex.Valid := by
      refine Index.valid_of_messageIndex_lt ?_
      have halt := htorn.alt_lt
      unfold Configuration.Indexable Index.maxMessages at hmax
      rcases htorn.candidates with ⟨hs, -⟩ | ⟨hs, -⟩ <;> omega
    have hneed := (h.need i hi).mpr hdead
    by_cases hmarked : st.accounting.accountedFor (alt i) = true
    · obtain ⟨m, index, hindex, hm, hrun⟩ : ∃ m index, index.messageIndex = hand i ∧
          m.setSender i (fun x => { x with tid := .free }) = st.memory.settle i index (hand i) ∧
          recoverSender c st i = .ok (st.resolve m i index) := by
        rcases htorn.candidates with ⟨hscratch, hreplace⟩ | ⟨hscratch, hreplace⟩
        · refine ⟨_, _, hscratch, ?_, by
            simp only [recoverSender, htid, hneed, htorn.valid, hvalid, hscratch, hreplace, hmarked, hunmarked,
              htorn.alt_lt.le, hhand.le, ne_eq, not_true, if_false, and_false, or_true, if_true, Bool.false_eq_true]
            rfl⟩
          simp [settle, setSender, setMessage]
        · refine ⟨_, _, hreplace, ?_, by
            simp only [recoverSender, htid, hneed, htorn.valid, hvalid, hscratch, hreplace, hmarked, hunmarked,
              htorn.alt_lt.le, hhand.le, ne_eq, not_true, if_false, and_false, or_true, or_self, if_true,
              Bool.false_eq_true]
            rfl⟩
          simp [settle, setSender, setMessage]
      have hmemory : (st.resolve m i index).memory = st.memory.settle i index (hand i) := hm
      refine ⟨_, hrun, h.settle hi hdead hindex hm, by rw [hmemory]; rfl, fun k hd => ?_, fun hd => ?_⟩
      · rw [hmemory, dead_settle] at hd
        exact hd.2
      · rw [hmemory, dead_settle] at hd
        exact absurd rfl hd.1
    · refine ⟨st, ?_, h, rfl, fun _ => id, fun _ => by simpa using hmarked⟩
      rcases htorn.candidates with ⟨hscratch, hreplace⟩ | ⟨hscratch, hreplace⟩ <;>
      simp [recoverSender, htid, hneed, htorn.valid, hvalid, hscratch, hreplace, hmarked, hunmarked,
        htorn.alt_lt.le, hhand.le]
  · have htid : (st.memory.senders i).tid ≠ .died := hdead
    have hneed : ¬ st.needRecovery i = true := fun hn => hdead ((h.need i hi).mp hn)
    refine ⟨st, ?_, h, rfl, fun _ => id, fun hd => absurd hd hdead⟩
    simp [recoverSender, htid, hneed]

theorem HardDone.exists_decided (h : HardDone c m₀ hand₀ alt rank hand st) (hmissing : st.accounting.numMissing ≠ 0) :
    ∃ i < c.numSenders, st.memory.Dead i ∧ ∀ k < c.numSenders, st.memory.Dead k → hand k ≠ alt i := by
  rw [h.accounted.missing, deadBelow, card_ne_zero] at hmissing
  obtain ⟨i, hi, hlast⟩ := exists_max_image _ rank hmissing
  simp only [mem_filter, mem_range] at hi hlast
  refine ⟨i, hi.1, hi.2, fun k hk hdead heq => ?_⟩
  have htorn := h.torn i hi.1 hi.2
  by_cases hki : k = i
  · subst hki
    exact htorn.alt_ne heq.symm
  · exact absurd (h.recoverable.order i hi.1 hi.2 htorn k hk hdead hki heq) (hlast k ⟨hk, hdead⟩).not_gt

theorem recoverPass_meets (hmax : c.Indexable) (h : HardDone c m₀ hand₀ alt rank hand st)
    (hmissing : st.accounting.numMissing ≠ 0) :
    Meets .outOfFuel True (fun st' => HardDone c m₀ hand₀ alt rank hand st' ∧
        st'.memory.pinners = st.memory.pinners ∧ st'.accounting.numMissing < st.accounting.numMissing)
      ((List.range c.numSenders).foldlM (recoverSender c) st) := by
  obtain ⟨last, hlast, hdead, hdecided⟩ := h.exists_decided hmissing
  have halt := (h.torn last hlast hdead).alt_lt
  refine (Meets.foldlM_range (P := fun k (st' : HardCleanup) => HardDone c m₀ hand₀ alt rank hand st' ∧
    st'.memory.pinners = st.memory.pinners ∧ (∀ i, st'.memory.Dead i → st.memory.Dead i) ∧
    (last < k → ¬ st'.memory.Dead last)) ⟨h, rfl, fun _ => id, fun hlt => absurd hlt (Nat.not_lt_zero _)⟩ ?_).mono id ?_
  · rintro k hk st1 ⟨hdone, hpinners, hfewer, hpassed⟩
    obtain ⟨st2, hrun, hdone', hpinners', hfewer', hstuck⟩ := recoverSender_ok hmax hdone hk
    rw [hrun]
    refine ⟨hdone', hpinners'.trans hpinners, fun i hd => hfewer i (hfewer' i hd), fun hlt hd => ?_⟩
    rcases Nat.lt_succ_iff_lt_or_eq.mp hlt with hlt | rfl
    · exact hpassed hlt (hfewer' _ hd)
    · have hunmarked := hstuck hd
      rw [← Bool.not_eq_true, hdone.accounted.marks _ halt] at hunmarked
      exact hunmarked fun i hi hdead => hdecided i hi (hfewer i hdead)
  · rintro st' ⟨hdone, hpinners, hfewer, hpassed⟩
    refine ⟨hdone, hpinners, ?_⟩
    rw [hdone.accounted.missing, h.accounted.missing]
    refine card_lt_card (ssubset_iff_of_subset ?_ |>.mpr ⟨last, by simp [hlast, hdead], ?_⟩)
    · intro i hi
      simp only [mem_filter] at hi ⊢
      exact ⟨hi.1, hfewer i hi.2⟩
    · simp [hpassed hlast]

theorem recoverSenders_meets (hmax : c.Indexable) (fuel : Nat) :
    ∀ st : HardCleanup, HardDone c m₀ hand₀ alt rank hand st → Meets .outOfFuel (st.accounting.numMissing < fuel)
        (fun st' => HardDone c m₀ hand₀ alt rank hand st' ∧ st'.memory.pinners = st.memory.pinners ∧
          ∀ i < c.numSenders, ¬ st'.memory.Dead i) (recoverSenders c fuel st) := by
  induction fuel with
  | zero => exact fun _ _ => ⟨rfl, Nat.not_lt_zero _⟩
  | succ fuel ih =>
    intro st h
    rw [recoverSenders]
    split
    · rename_i hmissing
      refine ⟨h, rfl, fun i hi hdead => ?_⟩
      rw [h.accounted.missing] at hmissing
      exact not_dead_of_deadBelow hmissing hi hdead
    · rename_i hmissing
      refine ((recoverPass_meets hmax h hmissing).mono (fun _ => trivial) fun _ hst => hst).bind ?_
      rintro st' ⟨hdone, hpinners, hlt⟩
      rw [if_neg hlt.ne]
      refine (ih st' hdone).mono (fun hfuel => by omega) ?_
      rintro st'' ⟨hdone', hpinners', hnone⟩
      exact ⟨hdone', hpinners'.trans hpinners, hnone⟩

end Hard

/-! ### All of it -/

/-- What the cleanup of `m₀` leaves. -/
structure CleanedUp (c : Configuration) (m₀ : Memory) (hand₀ : Nat → Nat) (m : Memory) (hand : Nat → Nat) : Prop where
  owned : Distributed c m hand
  settled : ∀ i < c.numSenders, ¬ m.Dead i ∧ (m.senders i).scratchIndex.messageIndex = hand i
  cleaned : Cleaned c m₀ hand₀ m hand
  pinners : ∀ j < c.numPinners, (m.pinners j).pinned = (m₀.pinners j).cleaned.pinned ∧
    (m.pinners j).tid = (m₀.pinners j).cleaned.tid

theorem Recoverable.congr (h : Recoverable c m hand alt rank) (hqueue : m'.queue = m.queue)
    (hsenders : m'.senders = m.senders)
    (hscratch : ∀ j, (m'.pinners j).scratchIndex = (m.pinners j).scratchIndex) : Recoverable c m' hand alt rank := by
  refine ⟨h.owned.congr hqueue hscratch, ?_, ?_, ?_⟩ <;> simp only [dead_congr hsenders, hsenders]
  · exact h.settled
  · exact h.left
  · exact h.order

theorem Cleaned.congr {m₀ : Memory} {hand₀ : Nat → Nat} (h : Cleaned c m₀ hand₀ m hand) (hqueue : m'.queue = m.queue)
    (hsenders : m'.senders = m.senders) (hmessages : m'.messages = m.messages)
    (hscratch : ∀ j, (m'.pinners j).scratchIndex = (m.pinners j).scratchIndex) : Cleaned c m₀ hand₀ m' hand := by
  refine ⟨hqueue.trans h.queue, ?_, ?_, ?_, ?_, ?_⟩ <;> simp only [dead_congr hsenders, hsenders, hmessages, hscratch]
  · exact h.alive
  · exact h.dead
  · exact h.freed
  · exact h.messages
  · exact h.still

section All

variable {m₀ : Memory} {hand₀ : Nat → Nat}

section

variable (hmax : c.Indexable) (h : Recoverable c m₀ hand₀ alt rank)

include hmax h

theorem doCleanupBody_meets (fuel : Nat) : Meets .outOfFuel (Unblocked c m₀ ∧ c.numMessages + 1 < fuel)
      (fun m => Unblocked c m₀ ∧ ∃ hand, CleanedUp c m₀ hand₀ m hand) (doCleanupBody c fuel m₀) := by
  have hsum : c.numMessages = c.numSenders + c.numPinners + c.queueSize := rfl
  refine ((easyCleanup_meets hmax h fuel).mono (fun hen => ⟨hen.1, by omega⟩) fun _ hst => hst).bind ?_
  rintro easy ⟨hand, hdone⟩
  simp only [cleanupPinners_eq]
  set m1 : Memory := { easy.memory with
    pinners := fun j => if j < c.numPinners then (easy.memory.pinners j).cleaned else easy.memory.pinners j } with hm1
  have hscratch : ∀ j, (m1.pinners j).scratchIndex = (easy.memory.pinners j).scratchIndex := by
    intro j
    simp only [hm1]
    split
    · exact scratchIndex_cleaned _
    · rfl
  have hpinners : ∀ j < c.numPinners, (m1.pinners j).pinned = (m₀.pinners j).cleaned.pinned ∧
      (m1.pinners j).tid = (m₀.pinners j).cleaned.tid := by
    intro j hj
    obtain ⟨hpinned, htid⟩ := hdone.pinners j
    simp only [hm1, if_pos hj, Pinner.cleaned, htid]
    split
    · exact ⟨rfl, rfl⟩
    · exact ⟨hpinned, htid⟩
  have hrecoverable : Recoverable c m1 hand alt rank := hdone.recoverable.congr rfl rfl hscratch
  have hcleaned : Cleaned c m₀ hand₀ m1 hand := hdone.cleaned.congr rfl rfl rfl hscratch
  refine Meets.mono (P := fun m => ∃ hand, CleanedUp c m₀ hand₀ m hand) ?_ id fun _ hm => ⟨hdone.unblocked_start, hm⟩
  split
  · have hnone : easy.memory.deadBelow c.numSenders = 0 := by
      have := hdone.valid
      omega
    exact ⟨hand, hrecoverable.owned, fun i hi => ⟨not_dead_of_deadBelow hnone hi,
      hrecoverable.settled i hi (not_dead_of_deadBelow hnone hi)⟩, hcleaned, hpinners⟩
  · have hneed : ∀ i < c.numSenders, easy.needRecovery i = true ↔ m1.Dead i := fun i hi =>
      (hdone.need i).trans (and_iff_right hi)
    refine ((accountForAll_meets { easy with memory := m1 } hrecoverable hneed fuel).mono
      (fun hen => by omega) fun _ hacc => hacc).bind ?_
    intro acc hacc
    refine ((recoverSenders_meets hmax fuel ⟨m1, easy.needRecovery, acc⟩
      ⟨hrecoverable, hcleaned, fun i hi hd => hdone.torn i hi hd, hneed, hacc⟩).mono (fun hen => ?_)
      fun _ hst => hst).bind ?_
    · have hle := deadBelow_le m1 c.numSenders
      have hmissing : acc.numMissing = m1.deadBelow c.numSenders := hacc.missing
      dsimp only
      omega
    · rintro hard ⟨hhard, hsame, hnone⟩
      refine ⟨hand, hhard.recoverable.owned, fun i hi => ⟨hnone i hi, hhard.recoverable.settled i hi (hnone i hi)⟩,
        hhard.cleaned, fun j hj => ?_⟩
      rw [hsame]
      exact hpinners j hj

/-- `DoCleanup` of a recoverable memory returns true if and only if the swap code is not blocked, and no `CHECK` fails. -/
theorem doCleanup_meets (fuel : Nat) :
    Meets .outOfFuel (Unblocked c m₀ ∧ c.numMessages + 1 < fuel)
      (fun r => r.1 = true ∧ Unblocked c m₀ ∧ ∃ hand, CleanedUp c m₀ hand₀ r.2 hand) (doCleanup c fuel m₀) := by
  have hbody := doCleanupBody_meets hmax h fuel
  rw [doCleanup]
  cases hrun : doCleanupBody c fuel m₀ with
  | ok m =>
    rw [hrun] at hbody
    exact ⟨rfl, hbody⟩
  | error stop =>
    obtain rfl := hbody.error_eq hrun
    rw [hrun] at hbody
    exact hbody

theorem cleanup_eq_ok
    {fuel rounds : Nat} (hrun : cleanup c fuel rounds m₀ = .ok m) : ∃ hand, CleanedUp c m₀ hand₀ m hand := by
  cases rounds with
  | zero => cases hrun
  | succ rounds =>
    have hdone := doCleanup_meets hmax h fuel
    rw [cleanup] at hrun
    cases hfirst : doCleanup c fuel m₀ with
    | error stop =>
      rw [hfirst] at hrun
      cases hrun
    | ok r =>
      rw [hfirst] at hdone hrun
      obtain ⟨hreturned, -, hand, hclean⟩ := hdone
      have hm : r.2 = m := by
        simpa [bind, Except.bind, hreturned] using hrun
      exact ⟨hand, hm ▸ hclean⟩

end

end All

end RobotCode.IpcLib
