import RobotCode.Lib.Fallible

/-!
# Sets of nodes in a word

`BitSet64` tracks a set of nodes in a `uint64_t`. The bits it works with are made by shifting an `int` or an
`unsigned`, which have 32 bits: shifting by 32 or more is not defined, and the top bit of an `int` is extended with
ones when it becomes a `uint64_t`. For up to 31 nodes a bit set is the set of its elements.
-/

namespace RobotCode.Network

open Finset

/-- What ends the checks of the node graph. All but `undefinedShift` and `rounds` are `CHECK`s. -/
inductive GraphCheck where
  /-- `CHECK_LE(size, (sizeof(uint64_t) * 8) - 1)` -/
  | size
  /-- A shift by more than the width of the type. -/
  | undefinedShift
  /-- Two different nodes of the configuration are needed. -/
  | nodes
  /-- Failed to find any connected nodes. -/
  | noStart
  /-- Found orphaned nodes. -/
  | orphaned
  /-- Found a subset of the graph which is disconnected. -/
  | disconnected
  /-- A loop went on for longer than it was given rounds. -/
  | rounds
  deriving DecidableEq

structure BitSet64 where
  size : Nat
  data : Nat
  deriving DecidableEq

namespace BitSet64

/-- `BitSet64(size)` -/
def make (size : Nat) : Except GraphCheck BitSet64 := if size ≤ 63 then .ok ⟨size, 0⟩ else .error .size

/-- `1 << index` as a `uint64_t` -/
def shiftInt (index : Nat) : Except GraphCheck Nat :=
  if index < 31 then .ok (2 ^ index) else if index = 31 then .ok (2 ^ 64 - 2 ^ 31) else .error .undefinedShift

/-- `(1u << index) - 1u` -/
def maskBelow (index : Nat) : Except GraphCheck Nat :=
  if index < 32 then .ok (2 ^ index - 1) else .error .undefinedShift

variable (s : BitSet64)

def set (index : Nat) (val : Bool) : Except GraphCheck BitSet64 := do
  let bit ← shiftInt index
  .ok ⟨s.size, if val then s.data ||| bit else s.data &&& (2 ^ 64 - 1 - bit)⟩

def get (index : Nat) : Except GraphCheck Bool := do
  let bit ← shiftInt index
  .ok (s.data &&& bit != 0)

/-- A sequence of calls of `Set`. -/
def setAll (calls : List (Nat × Bool)) : Except GraphCheck BitSet64 := calls.foldlM (fun s call => s.set call.1 call.2) s

/-- `operator~` -/
def complement : Except GraphCheck BitSet64 := do
  let mask ← maskBelow s.size
  .ok ⟨s.size, s.data ^^^ mask⟩

/-- `operator&` -/
def and (other : BitSet64) : BitSet64 := ⟨s.size, s.data &&& other.data⟩

/-- `__builtin_ffsll` -/
def ffs (data : Nat) : Nat :=
  match (List.range 64).find? data.testBit with
  | some i => i + 1
  | none => 0

def firstBitSet (start : Nat) : Except GraphCheck Nat := do
  let mask ← maskBelow start
  let ffs := ffs (s.data &&& (2 ^ 32 - 1 - mask))
  .ok (if ffs = 0 then s.size else ffs - 1)

/-- The rounds of a `for` over the bits, from bit `i`. -/
def forBits {σ : Type} (body : σ → Nat → Except GraphCheck σ) : Nat → Nat → σ → Except GraphCheck σ
  | 0, _, _ => .error .rounds
  | rounds + 1, i, acc =>
    if i < s.size then do
      let acc ← body acc i
      let i ← s.firstBitSet (i + 1)
      forBits body rounds i acc
    else .ok acc

/-- `for (size_t i = FirstBitSet(0); i < size(); i = FirstBitSet(i + 1))` -/
def forEach {σ : Type} (body : σ → Nat → Except GraphCheck σ) (acc : σ) : Except GraphCheck σ := do
  let i ← s.firstBitSet 0
  s.forBits body (s.size + 1) i acc

theorem ffs_spec (data : Nat) : (ffs data = 0 ∧ ∀ i < 64, ¬ data.testBit i = true) ∨
    ∃ j, ffs data = j + 1 ∧ data.testBit j = true ∧ ∀ i < j, ¬ data.testBit i = true := by
  unfold ffs
  split
  · rename_i j hfind
    obtain ⟨hj, -, hfirst⟩ := List.find?_range_eq_some.mp hfind
    exact .inr ⟨j, rfl, hj, fun i hi => by simpa using hfirst i hi⟩
  · rename_i hfind
    exact .inl ⟨rfl, fun i hi => List.find?_eq_none.mp hfind i (List.mem_range.mpr hi)⟩

end BitSet64

/-! ### Up to 31 elements -/

/-- The word holds the elements of `S`, all below `n`. -/
structure Represents (s : BitSet64) (n : Nat) (S : Finset Nat) : Prop where
  size : s.size = n
  small : n ≤ 31
  mem : ∀ i, s.data.testBit i = true ↔ i ∈ S
  lt : ∀ i ∈ S, i < n

namespace Represents

variable {s t : BitSet64} {n : Nat} {S T : Finset Nat}

theorem empty (hn : n ≤ 31) : ∃ s, BitSet64.make n = .ok s ∧ Represents s n ∅ := by
  refine ⟨⟨n, 0⟩, if_pos (by omega), rfl, hn, ?_, ?_⟩ <;> simp

theorem eq_iff (hs : Represents s n S) (ht : Represents t n T) : s = t ↔ S = T := by
  refine ⟨fun heq => ?_, fun heq => ?_⟩
  · ext i
    rw [← hs.mem, ← ht.mem, heq]
  · have hdata : s.data = t.data := by
      refine Nat.eq_of_testBit_eq fun i => ?_
      rw [Bool.eq_iff_iff, hs.mem, ht.mem, heq]
    cases s
    cases t
    exact congrArg₂ BitSet64.mk (hs.size.trans ht.size.symm) hdata

theorem set (hs : Represents s n S) {index : Nat} (hindex : index < n) :
    ∃ t, s.set index true = .ok t ∧ Represents t n (insert index S) := by
  have hsmall := hs.small
  refine ⟨⟨s.size, s.data ||| 2 ^ index⟩, ?_, hs.size, hsmall, fun i => ?_, fun i hi => ?_⟩
  · simp [BitSet64.set, BitSet64.shiftInt, show index < 31 by omega, bind, Except.bind]
  · rw [Nat.testBit_or, Bool.or_eq_true, hs.mem, Nat.testBit_two_pow, mem_insert, or_comm,
      decide_eq_true_eq, eq_comm]
  · rcases mem_insert.mp hi with rfl | hi
    · exact hindex
    · exact hs.lt i hi

theorem erase (hs : Represents s n S) {index : Nat} (hindex : index < n) :
    ∃ t, s.set index false = .ok t ∧ Represents t n (S.erase index) := by
  have hsmall := hs.small
  refine ⟨⟨s.size, s.data &&& (2 ^ 64 - (2 ^ index + 1))⟩, ?_, hs.size, hsmall, fun i => ?_,
    fun i hi => hs.lt i (mem_of_mem_erase hi)⟩
  · rw [add_comm, ← Nat.sub_sub]
    simp [BitSet64.set, BitSet64.shiftInt, show index < 31 by omega, bind, Except.bind]
  · have hpow : 2 ^ index < 2 ^ 64 := Nat.pow_lt_pow_right (by decide) (by omega)
    have hlt := hs.lt i
    rw [Nat.testBit_and, Nat.testBit_two_pow_sub_succ hpow, Nat.testBit_two_pow, Bool.and_eq_true, hs.mem, mem_erase]
    grind

theorem get (hs : Represents s n S) {index : Nat} (hindex : index < n) : s.get index = .ok (decide (index ∈ S)) := by
  have hsmall := hs.small
  have hbit : (s.data &&& 2 ^ index != 0) = s.data.testBit index := by
    rw [Nat.and_two_pow]
    cases s.data.testBit index <;> simp
  simp [BitSet64.get, BitSet64.shiftInt, show index < 31 by omega, bind, Except.bind, hbit, ← hs.mem]

theorem complement (hs : Represents s n S) : ∃ t, s.complement = .ok t ∧ Represents t n (range n \ S) := by
  have hsmall := hs.small
  refine ⟨⟨s.size, s.data ^^^ (2 ^ s.size - 1)⟩, ?_, hs.size, hsmall, fun i => ?_, fun i hi => ?_⟩
  · simp [BitSet64.complement, BitSet64.maskBelow, hs.size, show n < 32 by omega, bind, Except.bind]
  · have hmem := hs.mem i
    have hlt := hs.lt i
    rw [Nat.testBit_xor, Nat.testBit_two_pow_sub_one, hs.size, mem_sdiff, mem_range]
    by_cases hi : i ∈ S
    · simp [hmem.mpr hi, hlt hi, hi]
    · simp [Bool.eq_false_iff.mpr (fun h => hi (hmem.mp h)), hi]
  · exact mem_range.mp (mem_sdiff.mp hi).1

theorem and (hs : Represents s n S) (ht : Represents t n T) : Represents (s.and t) n (S ∩ T) := by
  refine ⟨hs.size, hs.small, fun i => ?_, fun i hi => hs.lt i (mem_inter.mp hi).1⟩
  rw [BitSet64.and, Nat.testBit_and, Bool.and_eq_true, hs.mem, ht.mem, mem_inter]

theorem firstBitSet (hs : Represents s n S) (start : Nat) (hstart : start ≤ n) :
    ∃ j, s.firstBitSet start = .ok j ∧ start ≤ j ∧ (j ∈ S ∨ j = n) ∧ ∀ i ∈ S, start ≤ i → j ≤ i := by
  have hsmall := hs.small
  have hmask : BitSet64.maskBelow start = .ok (2 ^ start - 1) := if_pos (by omega)
  -- the elements from `start` on
  have hbits : ∀ i, (s.data &&& (2 ^ 32 - 1 - (2 ^ start - 1))).testBit i = true ↔ i ∈ S ∧ start ≤ i := by
    intro i
    have hpow : 2 ^ start ≤ 2 ^ 32 := Nat.pow_le_pow_right (by decide) (by omega)
    have hpos : 0 < 2 ^ start := Nat.two_pow_pos start
    have hdata := hs.mem i
    rw [Nat.testBit_and, Bool.and_eq_true, hdata, Nat.sub_sub, Nat.add_comm, Nat.testBit_two_pow_sub_succ (by omega),
      Nat.testBit_two_pow_sub_one]
    refine and_congr_right fun hi => ?_
    have hlt := hs.lt i hi
    simp [show i < 32 by omega]
  rw [BitSet64.firstBitSet, hmask]
  simp only [bind, Except.bind]
  rcases BitSet64.ffs_spec (s.data &&& (2 ^ 32 - 1 - (2 ^ start - 1))) with ⟨hffs, hnone⟩ | ⟨j, hffs, hj, hfirst⟩
  · refine ⟨n, by rw [hffs, if_pos rfl, hs.size], hstart, .inr rfl, fun i hi hle => ?_⟩
    have hlt := hs.lt i hi
    exact absurd ((hbits i).mpr ⟨hi, hle⟩) (hnone i (by omega))
  · obtain ⟨hmem, hle⟩ := (hbits j).mp hj
    refine ⟨j, by rw [hffs, if_neg (Nat.succ_ne_zero j), Nat.add_sub_cancel], hle, .inl hmem, fun i hi hle' => ?_⟩
    by_contra hlt
    exact hfirst i (by omega) ((hbits i).mpr ⟨hi, hle'⟩)

theorem forEach (hs : Represents s n S) {σ : Type} (body : σ → Nat → Except GraphCheck σ) (P : Finset Nat → σ → Prop)
    (acc : σ) (hstart : P ∅ acc)
    (hstep : ∀ i ∈ S, ∀ D acc, (∀ k ∈ D, k < i) → P D acc → ∃ acc', body acc i = .ok acc' ∧ P (insert i D) acc') :
    ∃ acc', s.forEach body acc = .ok acc' ∧ P S acc' := by
  -- the elements so far are those before the current one
  have hloop : ∀ rounds i acc, n < i + rounds → (i ∈ S ∨ i = n) → P (S.filter (· < i)) acc →
      ∃ acc', s.forBits body rounds i acc = .ok acc' ∧ P S acc' := by
    intro rounds
    induction rounds with
    | zero =>
      intro i acc hrounds hi
      rcases hi with hi | rfl
      · have := hs.lt i hi
        omega
      · omega
    | succ rounds ih =>
      intro i acc hrounds hi hP
      rw [BitSet64.forBits, hs.size]
      split
      · rename_i hlt
        have hmem : i ∈ S := hi.resolve_right (by omega)
        obtain ⟨acc1, hbody, hP1⟩ := hstep i hmem _ acc (fun k hk => (mem_filter.mp hk).2) hP
        obtain ⟨j, hfirst, hle, hj, hmin⟩ := hs.firstBitSet (i + 1) hlt
        have hsofar : insert i (S.filter (· < i)) = S.filter (· < j) := by
          ext k
          simp only [mem_insert, mem_filter]
          refine ⟨?_, ?_⟩
          · rintro (rfl | ⟨hk, hki⟩)
            · exact ⟨hmem, by omega⟩
            · exact ⟨hk, by omega⟩
          · rintro ⟨hk, hkj⟩
            have := hmin k hk
            rcases Nat.lt_trichotomy k i with hlt | rfl | hgt
            · exact .inr ⟨hk, hlt⟩
            · exact .inl rfl
            · omega
        rw [hsofar] at hP1
        obtain ⟨acc', hrest, hP'⟩ := ih j acc1 (by omega) hj hP1
        refine ⟨acc', ?_, hP'⟩
        rw [hbody, hfirst] at *
        exact hrest
      · rename_i hge
        refine ⟨acc, rfl, ?_⟩
        have hall : S.filter (· < i) = S := filter_true_of_mem fun k hk => by
          have := hs.lt k hk
          omega
        rwa [hall] at hP
  obtain ⟨i, hfirst, -, hi, hmin⟩ := hs.firstBitSet 0 (Nat.zero_le n)
  have hnone : S.filter (· < i) = ∅ := filter_false_of_mem fun k hk => by
    have := hmin k hk (Nat.zero_le k)
    omega
  obtain ⟨acc', hrest, hP⟩ := hloop (n + 1) i acc (by omega) hi (hnone ▸ hstart)
  refine ⟨acc', ?_, hP⟩
  rw [BitSet64.forEach, hfirst, hs.size]
  exact hrest

end Represents

/-- The set that a sequence of calls of `Set` leaves. -/
def elements (calls : List (Nat × Bool)) : Finset Nat :=
  calls.foldl (fun S call => if call.2 then insert call.1 S else S.erase call.1) ∅

/-- The bit set answers as the set `S` does. -/
structure Shows (s : BitSet64) (n : Nat) (S : Finset Nat) : Prop where
  size : s.size = n
  get : ∀ i < n, s.get i = .ok (decide (i ∈ S))
  visits : ∃ visited, s.forEach (fun visited i => .ok (visited ++ [i])) [] = .ok visited ∧
    visited.Pairwise (· < ·) ∧ ∀ i, i ∈ visited ↔ i ∈ S

/-- Bit sets of this size are the sets of the numbers below it. -/
def FiniteSets (n : Nat) : Prop :=
  ∀ calls others : List (Nat × Bool), (∀ call ∈ calls ++ others, call.1 < n) → ∃ e s t c,
    BitSet64.make n = .ok e ∧ e.setAll calls = .ok s ∧ e.setAll others = .ok t ∧ s.complement = .ok c ∧
    Shows s n (elements calls) ∧ Shows c n (range n \ elements calls) ∧
    Shows (s.and t) n (elements calls ∩ elements others) ∧ (s = t ↔ elements calls = elements others) ∧
    (c = t ↔ range n \ elements calls = elements others) ∧
    (s.and t = t ↔ elements calls ∩ elements others = elements others)

variable {s : BitSet64} {n : Nat} {S : Finset Nat}

theorem Represents.shows (hs : Represents s n S) : Shows s n S := by
  refine ⟨hs.size, fun i hi => hs.get hi, ?_⟩
  apply hs.forEach _ fun D (visited : List Nat) => visited.Pairwise (· < ·) ∧ ∀ i, i ∈ visited ↔ i ∈ D
  · simp
  · intro i hi D visited hbefore ⟨hsorted, hmem⟩
    refine ⟨_, rfl, ?_, fun k => ?_⟩
    · rw [List.pairwise_append]
      exact ⟨hsorted, List.pairwise_singleton _ _, fun k hk m hm => List.mem_singleton.mp hm ▸ hbefore k ((hmem k).mp hk)⟩
    · rw [List.mem_append, hmem, List.mem_singleton, mem_insert, or_comm]

theorem Represents.setAll (hs : Represents s n S) {calls : List (Nat × Bool)} (hcalls : ∀ call ∈ calls, call.1 < n) :
    ∃ t, s.setAll calls = .ok t ∧
      Represents t n (calls.foldl (fun S call => if call.2 then insert call.1 S else S.erase call.1) S) := by
  induction calls generalizing s S with
  | nil => exact ⟨s, rfl, hs⟩
  | cons call calls ih =>
    obtain ⟨t, hset, ht⟩ : ∃ t, s.set call.1 call.2 = .ok t ∧
        Represents t n (if call.2 then insert call.1 S else S.erase call.1) := by
      have hcall := hcalls call List.mem_cons_self
      cases call.2
      · exact hs.erase hcall
      · exact hs.set hcall
    obtain ⟨u, hrest, hu⟩ := ih ht fun call h => hcalls call (List.mem_cons_of_mem _ h)
    refine ⟨u, ?_, hu⟩
    rw [BitSet64.setAll, List.foldlM_cons, hset]
    exact hrest

theorem finiteSets_iff (hn : n ≤ 63) : FiniteSets n ↔ n ≤ 31 := by
  constructor
  · intro h
    obtain ⟨e, s, t, c, -, -, -, hcomplement, hs, -⟩ := h [] [] (by simp)
    rw [BitSet64.complement, hs.size, BitSet64.maskBelow] at hcomplement
    split at hcomplement
    · omega
    · cases hcomplement
  · intro hsmall calls others hcalls
    obtain ⟨e, hmake, he⟩ := Represents.empty hsmall
    obtain ⟨s, hset, hs⟩ := he.setAll fun call h => hcalls call (List.mem_append_left _ h)
    obtain ⟨t, hset', ht⟩ := he.setAll fun call h => hcalls call (List.mem_append_right _ h)
    obtain ⟨c, hcomplement, hc⟩ := hs.complement
    exact ⟨e, s, t, c, hmake, hset, hset', hcomplement, hs.shows, hc.shows, (hs.and ht).shows, hs.eq_iff ht, hc.eq_iff ht,
      (hs.and ht).eq_iff ht⟩

theorem finiteSets_iff_bounds : FiniteSets 31 ∧ ¬ FiniteSets 32 :=
  ⟨(finiteSets_iff (by decide)).mpr (by decide), fun h => absurd ((finiteSets_iff (by decide)).mp h) (by decide)⟩

/-- The thirty-second element is one that cannot be set, and thirty-two elements have no complement. -/
theorem bitSet_undefined : (BitSet64.make 33 >>= (·.set 32 true)) = .error .undefinedShift ∧
    (BitSet64.make 32 >>= (·.complement)) = .error .undefinedShift := by
  exact ⟨rfl, rfl⟩

end RobotCode.Network
