import RobotCode.IpcLib.Memory

/-!
# UUIDs

A UUID is 16 bytes, which are written in hexadecimal with dashes between some of them. The bytes of a random UUID are
drawn one by one, and then the bits that say so are put in their place.
-/

namespace RobotCode.Uuid

open IpcLib (Uuid)

/-- The `CHECK`s of `FromString`. -/
inductive Check where
  | size
  | invalidHex
  | invalidUuid
  deriving DecidableEq

def hexDigit (half : UInt8) : UInt8 :=
  if half < 10 then half + '0'.toUInt8 else half - 10 + 'a'.toUInt8

def toHex : List UInt8 → List UInt8
  | [] => []
  | val :: rest => hexDigit (val >>> 4 &&& 0xf) :: hexDigit (val &&& 0xf) :: toHex rest

def isHex (c : UInt8) : Bool :=
  '0'.toUInt8 ≤ c && c ≤ '9'.toUInt8 || 'a'.toUInt8 ≤ c && c ≤ 'f'.toUInt8

def hexValue (c : UInt8) : UInt8 := if c < 'a'.toUInt8 then c - '0'.toUInt8 else c - 'a'.toUInt8 + 0xa

/-- The size of the string was checked, so its end is not reached before `count` is. -/
def fromHex : List UInt8 → Nat → Except Check (List UInt8)
  | _, 0 => .ok []
  | upper :: lower :: val, count + 1 =>
    if isHex upper ∧ isHex lower then (fromHex val count).map ((hexValue upper <<< 4 ||| hexValue lower) :: ·)
    else .error .invalidHex
  | _, _ => .error .size

def dash : UInt8 := '-'.toUInt8

/-- `count` bytes at `&data_[start]` -/
def bytesAt (uuid : Uuid) (start count : Nat) : List UInt8 := (uuid.toList.drop start).take count

/-- `UUID::CopyTo` -/
def copyTo (uuid : Uuid) : List UInt8 :=
  toHex (bytesAt uuid 0 4) ++ dash :: toHex (bytesAt uuid 4 2) ++ dash :: toHex (bytesAt uuid 6 2) ++
    dash :: toHex (bytesAt uuid 8 2) ++ dash :: toHex (bytesAt uuid 10 6)

def fromString (str : List UInt8) : Except Check Uuid :=
  if str.length ≠ 36 then .error .size
  else do
    let first ← fromHex str 4
    if ¬ (str[8]? = dash ∧ str[13]? = dash ∧ str[18]? = dash ∧ str[23]? = dash) then .error .invalidUuid
    else
      let second ← fromHex (str.drop 9) 2
      let third ← fromHex (str.drop 14) 2
      let fourth ← fromHex (str.drop 19) 2
      let last ← fromHex (str.drop 24) 6
      .ok (.ofFn fun i => (first ++ second ++ third ++ fourth ++ last).getD i 0)

/-- `UUID::Random`, of the bytes that were drawn. -/
def random (drawn : Uuid) : Uuid :=
  let result := drawn.set 6 (drawn[6] &&& 0x0f ||| 0x40)
  result.set 8 (result[6] &&& 0x3f ||| 0x80)

/-- The bits of a byte that the version and the variant are not in. -/
def free (i : Nat) : UInt8 := if i = 6 then 0x0f else if i = 8 then 0x3f else 0xff

/-- Only the version and the variant of `drawn` are replaced. -/
structure OnlyMarked (drawn uuid : Uuid) : Prop where
  version : uuid[6] &&& 0xf0 = 0x40
  variant : uuid[8] &&& 0xc0 = 0x80
  kept : ∀ i (h : i < 16), uuid[i] &&& free i = drawn[i] &&& free i

theorem hexDigits_spec (val : UInt8) : isHex (hexDigit (val >>> 4 &&& 0xf)) ∧ isHex (hexDigit (val &&& 0xf)) ∧
    hexValue (hexDigit (val >>> 4 &&& 0xf)) <<< 4 ||| hexValue (hexDigit (val &&& 0xf)) = val := by
  obtain ⟨val⟩ := val
  revert val
  decide +kernel

theorem fromHex_toHex (vals rest : List UInt8) : fromHex (toHex vals ++ rest) vals.length = .ok vals := by
  induction vals with
  | nil => cases rest <;> rfl
  | cons val vals ih =>
    obtain ⟨hupper, hlower, hval⟩ := hexDigits_spec val
    simp [toHex, fromHex, hupper, hlower, hval, ih, Except.map]

theorem length_toHex (vals : List UInt8) : (toHex vals).length = 2 * vals.length := by
  induction vals with
  | nil => rfl
  | cons val rest ih => simp [toHex, ih, Nat.mul_succ]

theorem length_bytesAt (uuid : Uuid) {start count : Nat} (h : start + count ≤ 16) :
    (bytesAt uuid start count).length = count := by
  rw [bytesAt, List.length_take, List.length_drop, Vector.length_toList]
  omega

theorem fromHex_bytesAt (uuid : Uuid) {start count : Nat} (h : start + count ≤ 16) (rest : List UInt8) :
    fromHex (toHex (bytesAt uuid start count) ++ rest) count = .ok (bytesAt uuid start count) := by
  have hread := fromHex_toHex (bytesAt uuid start count) rest
  rwa [length_bytesAt uuid h] at hread

theorem fromString_copyTo (uuid : Uuid) : fromString (copyTo uuid) = .ok uuid := by
  have hlast := fromHex_bytesAt uuid (show 10 + 6 ≤ 16 by decide) []
  rw [List.append_nil] at hlast
  have hsize : (copyTo uuid).length = 36 := by simp [copyTo, length_toHex, length_bytesAt]
  have hdashes : (copyTo uuid)[8]? = dash ∧ (copyTo uuid)[13]? = dash ∧ (copyTo uuid)[18]? = dash ∧
      (copyTo uuid)[23]? = dash := by
    simp [copyTo, length_toHex, length_bytesAt]
  rw [fromString, if_neg (not_not.mpr hsize)]
  simp only [if_neg (not_not.mpr hdashes)]
  simp [copyTo, List.drop_append, List.drop_eq_nil_of_le, length_toHex, length_bytesAt, fromHex_bytesAt, hlast, bind,
    Except.bind]
  apply Vector.ext
  intro i hi
  interval_cases i <;> simp [bytesAt]

theorem marked_bits (byte : UInt8) : (byte &&& 0x0f ||| 0x40) &&& 0x3f ||| 0x80 = byte &&& 0x0f ||| 0x80 ∧
    (byte &&& 0x0f ||| 0x40) &&& 0xf0 = 0x40 ∧ (byte &&& 0x0f ||| 0x80) &&& 0xc0 = 0x80 ∧
    (byte &&& 0x0f ||| 0x40) &&& 0x0f = byte &&& 0x0f ∧ (byte &&& 0x0f ||| 0x80) &&& 0x3f = byte &&& 0x0f ∧
    byte &&& 0xff = byte := by
  obtain ⟨byte⟩ := byte
  revert byte
  decide +kernel

theorem random_getElem (drawn : Uuid) (i : Nat) (h : i < 16) : (random drawn)[i] =
    if i = 8 then drawn[6] &&& 0x0f ||| 0x80 else if i = 6 then drawn[6] &&& 0x0f ||| 0x40 else drawn[i] := by
  simp only [random, Vector.getElem_set, if_true, marked_bits, eq_comm]

theorem random_kept (drawn : Uuid) (i : Nat) (h : i < 16) :
    (random drawn)[i] &&& free i = if i = 8 then drawn[6] &&& free 6 else drawn[i] &&& free i := by
  rw [random_getElem]
  by_cases h8 : i = 8
  · simp [h8, free, marked_bits]
  · by_cases h6 : i = 6
    · simp [h6, free, marked_bits]
    · simp [h8, h6]

/-- Byte 8 is made from byte 6, so what was drawn for it is lost. -/
theorem random_onlyMarked_iff (drawn other uuid : Uuid) :
    (OnlyMarked drawn (random drawn) ↔ drawn[8] &&& free 8 = drawn[6] &&& free 6) ∧
    (random drawn ≠ random other ↔ ∃ i, ∃ h : i < 16, i ≠ 8 ∧ drawn[i] &&& free i ≠ other[i] &&& free i) ∧
    fromString (copyTo uuid) = .ok uuid := by
  refine ⟨⟨fun h => ?_, fun h => ⟨?_, ?_, fun i hi => ?_⟩⟩, ?_, fromString_copyTo uuid⟩
  · exact (h.kept 8 (by decide)).symm.trans (random_kept drawn 8 (by decide))
  · rw [random_getElem]
    exact (marked_bits _).2.1
  · rw [random_getElem]
    exact (marked_bits _).2.2.1
  · rw [random_kept]
    split
    · subst i
      exact h.symm
    · rfl
  · rw [← not_iff_not, not_not]
    push Not
    constructor
    · intro heq i hi h8
      have hkept := random_kept drawn i hi
      rwa [heq, random_kept, if_neg h8, if_neg h8, eq_comm] at hkept
    · intro hfree
      have h6 : drawn[6] &&& free 6 = other[6] &&& free 6 := hfree 6 (by decide) (by decide)
      apply Vector.ext
      intro i hi
      change drawn[6] &&& (0x0f : UInt8) = _ at h6
      rw [random_getElem, random_getElem, h6]
      split
      · rfl
      · split
        · rfl
        · have hi := hfree i hi ‹_›
          simpa [free, *, marked_bits] using hi

/-- Two draws that differ in byte 8 only. -/
theorem random_collides : random (.replicate 16 0) = random ((Vector.replicate 16 0).set 8 1) := by
  decide

end RobotCode.Uuid
