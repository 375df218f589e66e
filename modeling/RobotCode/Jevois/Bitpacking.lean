import Mathlib

/-!
# Fields of any number of bits

`MaskOnes`, `PackBits` and `UnpackBits` of `aos/util/bitpacking.h`. The loops go byte by byte. What they do is said of single
bits, which are numbered through all the bytes.
-/

namespace RobotCode.Jevois

open List BitVec

variable {w bits offset c i : Nat} {value : BitVec w} {destination source l l' : List (BitVec 8)}

def maskOnes (w bits : Nat) : BitVec w :=
  if bits = 0 then 0
  else if bits = 1 then 1
  else
    let highBit := 1#w <<< (bits - 1)
    highBit - 1 ||| highBit

def packBits (value : BitVec w) (bits offset : Nat) (destination : List (BitVec 8)) (bitsCompleted : Nat := 0) :
    List (BitVec 8) :=
  if bitsCompleted < bits then
    let outputBit := offset + bitsCompleted
    let outputMinBit := outputBit % 8
    let newBits := min (8 - outputMinBit) (bits - bitsCompleted)
    let outputMaxBit := outputMinBit + newBits
    let newBytePart := (value >>> bitsCompleted &&& maskOnes w newBits).setWidth 8
    let existingMask := maskOnes 8 outputMinBit ||| maskOnes 8 (8 - outputMaxBit) <<< outputMaxBit
    let byteIndex := outputBit / 8
    let newByte := destination.getD byteIndex 0 &&& existingMask ||| newBytePart <<< outputMinBit
    packBits value bits offset (destination.set byteIndex newByte) (bitsCompleted + newBits)
  else destination
termination_by bits - bitsCompleted

def unpackBits (w bits offset : Nat) (source : List (BitVec 8)) (result : BitVec w := 0) (bitsCompleted : Nat := 0) :
    BitVec w :=
  if bitsCompleted < bits then
    let inputBit := offset + bitsCompleted
    let inputMinBit := inputBit % 8
    let newBits := min (8 - inputMinBit) (bits - bitsCompleted)
    let byteIndex := inputBit / 8
    -- the sign of a `char` is shifted in above the bits that the mask keeps
    let newBytePart := (source.getD byteIndex 0).sshiftRight inputMinBit &&& (maskOnes w newBits).setWidth 8
    unpackBits w bits offset source (result ||| newBytePart.setWidth w <<< bitsCompleted) (bitsCompleted + newBits)
  else result
termination_by bits - bitsCompleted

theorem toNat_maskOnes (hbits : bits ≤ w) : (maskOnes w bits).toNat = 2 ^ bits - 1 := by
  unfold maskOnes
  split
  · simp_all
  split
  · next h =>
    subst h
    exact toNat_one hbits
  obtain ⟨k, rfl⟩ := Nat.exists_eq_add_of_lt (show 0 < bits by omega)
  have hpow := Nat.two_pow_pos k
  have hone : (1#w).toNat = 1 := toNat_one (by omega)
  have hhigh : (1#w <<< k).toNat = 2 ^ k := by
    rw [← twoPow_eq]
    exact toNat_twoPow_of_lt (by omega)
  have hor := Nat.two_pow_add_eq_or_of_lt (Nat.sub_one_lt_of_lt hpow) 1
  rw [Nat.mul_one] at hor
  rw [Nat.zero_add, Nat.add_sub_cancel, toNat_or, toNat_sub_of_le, hhigh, Nat.or_comm]
  · simp only [ofNat_eq_ofNat, hone]
    omega
  · rw [BitVec.le_def, hhigh]
    exact hone.trans_le hpow

theorem getLsbD_maskOnes (hbits : bits ≤ w) : (maskOnes w bits).getLsbD i = decide (i < bits) := by
  rw [getLsbD, toNat_maskOnes hbits, Nat.testBit_two_pow_sub_one]

def bitAt (bytes : List (BitVec 8)) (i : Nat) : Bool := (bytes.getD (i / 8) 0).getLsbD (i % 8)

theorem bytes_ext (hlength : l.length = l'.length) (h : ∀ i, bitAt l i = bitAt l' i) : l = l' := by
  refine ext_getElem hlength fun k hk hk' => ?_
  apply eq_of_getLsbD_eq
  intro j hj
  simpa [bitAt, hk, hk', show (8 * k + j) / 8 = k by omega, Nat.mod_eq_of_lt hj] using h (8 * k + j)

theorem length_packBits : (packBits value bits offset destination c).length = destination.length := by
  fun_induction packBits with
  | case1 _ _ _ _ _ _ _ _ _ _ _ ih => rw [ih, length_set]
  | case2 => rfl

theorem bitAt_packBits (hbits : bits ≤ w) (hroom : offset + bits ≤ 8 * destination.length) :
    bitAt (packBits value bits offset destination c) i =
      if offset + c ≤ i ∧ i < offset + bits then value.getLsbD (i - offset) else bitAt destination i := by
  fun_induction packBits with
  | case1 destination c hc outputBit minBit newBits maxBit part mask index byte ih =>
    rw [ih (by simpa using hroom)]
    have hbyte : bitAt (destination.set index byte) i =
        if outputBit ≤ i ∧ i < outputBit + newBits then value.getLsbD (i - offset) else bitAt destination i := by
      have hmod := Nat.mod_lt i (show 0 < 8 by decide)
      rw [bitAt, getD_eq_getElem?_getD, getElem?_set]
      split
      · next hindex =>
        rw [if_pos (by omega), bitAt, ← hindex]
        simp only [byte, mask, part, Option.getD_some, getLsbD_or, getLsbD_and, getLsbD_shiftLeft, getLsbD_setWidth,
          getLsbD_ushiftRight, getLsbD_maskOnes (show minBit ≤ 8 by omega),
          getLsbD_maskOnes (show 8 - maxBit ≤ 8 by omega), getLsbD_maskOnes (show newBits ≤ w by omega)]
        grind
      · grind [bitAt]
    rw [hbyte]
    grind
  | case2 => grind

theorem getLsbD_unpackBits {result : BitVec w} (hbits : bits ≤ w) (hresult : ∀ j, c ≤ j → result.getLsbD j = false) :
    (unpackBits w bits offset source result c).getLsbD i =
      if c ≤ i ∧ i < bits then bitAt source (offset + i) else result.getLsbD i := by
  fun_induction unpackBits with
  | case1 result c hc inputBit minBit newBits index part ih =>
    have hpart : ∀ j, (result ||| part.setWidth w <<< c).getLsbD j =
        if c ≤ j ∧ j < c + newBits then bitAt source (offset + j) else result.getLsbD j := by
      intro j
      simp only [part, getLsbD_or, getLsbD_and, getLsbD_shiftLeft, getLsbD_setWidth, getLsbD_sshiftRight,
        getLsbD_maskOnes (show newBits ≤ w by omega)]
      by_cases hj : c ≤ j ∧ j < c + newBits
      · rw [if_pos hj, bitAt, show (offset + j) / 8 = index by omega, show (offset + j) % 8 = minBit + (j - c) by omega]
        grind
      · grind
    rw [ih (by grind), hpart]
    grind
  | case2 => grind

theorem unpackBits_packBits (hbits : bits ≤ w) (hroom : offset + bits ≤ 8 * destination.length) :
    (unpackBits w bits offset (packBits value bits offset destination)).toNat = value.toNat % 2 ^ bits ∧
      (packBits value bits offset destination).length = destination.length ∧
      (∀ i, ¬(offset ≤ i ∧ i < offset + bits) →
        bitAt (packBits value bits offset destination) i = bitAt destination i) ∧
      ∀ {w' bits' offset' : Nat} (value' : BitVec w'), bits' ≤ w' → offset' + bits' ≤ 8 * destination.length →
        offset + bits ≤ offset' ∨ offset' + bits' ≤ offset →
        packBits value' bits' offset' (packBits value bits offset destination) =
          packBits value bits offset (packBits value' bits' offset' destination) := by
  refine ⟨?_, length_packBits, fun i hi => ?_, fun value' hbits' hroom' hdisjoint => ?_⟩
  · apply Nat.eq_of_testBit_eq
    intro i
    refine (getLsbD_unpackBits hbits (by simp)).trans ?_
    rw [bitAt_packBits hbits hroom, Nat.testBit_mod_two_pow, testBit_toNat]
    grind
  · rw [bitAt_packBits hbits hroom, if_neg (by simpa using hi)]
  · apply bytes_ext
    · simp only [length_packBits]
    intro i
    rw [bitAt_packBits hbits' (by rwa [length_packBits]), bitAt_packBits hbits hroom,
      bitAt_packBits hbits (by rwa [length_packBits]), bitAt_packBits hbits' hroom']
    grind

theorem unpackBits_packBits_across_bytes :
    (unpackBits 16 10 5 (packBits 1234#16 10 5 [255, 0, 255])).toNat = 1234 % 2 ^ 10 :=
  (unpackBits_packBits (by decide) (by decide)).1

end RobotCode.Jevois
