import Mathlib

/-!
# The moments of an arc of a contour

`IntegralArray` and the integers of `IntegralLineFit` of `aos/vision/blob/hierarchical_contour_merge.cc`. The sums of an
arc are differences of running sums and end before the end that is given, while the number of points that goes with
them includes it. So the moments change when the contour is moved.
-/

namespace RobotCode.Vision

open List

structure Point where
  x : Int
  y : Int
  deriving DecidableEq, Repr

namespace IntegralArray

/-- `Mod`, with the division of C++. -/
def mod (a n : Int) : Int := a - n * a.tdiv n

def item (items : List Int) (i : Int) : Int := items.getD i.toNat 0

def get (items : List Int) (a b : Int) : Int :=
  let size : Int := items.length
  let a := mod a size
  let b := mod b size
  if a = b then 0
  else if b < a then
    if b = 0 then item items (size - 1) - item items (a - 1)
    else item items (size - 1) + item items (b - 1) - item items (a - 1)
  else if a = 0 then item items (b - 1)
  else item items (b - 1) - item items (a - 1)

/-- The indices at which `get` reads an array of the size. -/
def reads (size a b : Int) : List Int :=
  let a := mod a size
  let b := mod b size
  if a = b then []
  else if b < a then if b = 0 then [size - 1, a - 1] else [size - 1, b - 1, a - 1]
  else if a = 0 then [b - 1]
  else [b - 1, a - 1]

def add (items : List Int) (t : Int) : List Int :=
  if items.length = 0 then [t] else items ++ [t + item items (items.length - 1)]

def ofList (l : List Int) : List Int := l.foldl add []

theorem ofList_concat (l : List Int) (t : Int) : ofList (l ++ [t]) = add (ofList l) t := by
  rw [ofList, foldl_append]
  rfl

theorem length_ofList (l : List Int) : (ofList l).length = l.length := by
  induction l using reverseRecOn with
  | nil => rfl
  | append_singleton l t ih =>
    rw [ofList_concat, add]
    split <;> simp_all

theorem item_ofList {l : List Int} {k : Nat} (hpos : 0 < k) (hk : k ≤ l.length) :
    item (ofList l) (k - 1) = (l.take k).sum := by
  induction l using reverseRecOn generalizing k with
  | nil => exact absurd hk (by simpa using hpos.ne')
  | append_singleton l t ih =>
    have hi : ((k : Int) - 1).toNat = k - 1 := by omega
    rw [ofList_concat, add, length_ofList]
    rw [length_append, length_singleton] at hk
    obtain hle | rfl : k ≤ l.length ∨ k = l.length + 1 := by omega
    · rw [if_neg (by omega), item, hi, getD_append _ _ _ _ (by rw [length_ofList]; omega), ← hi, take_append_of_le_length hle]
      exact ih hpos hle
    · rw [take_of_length_le (by simp), sum_append, sum_singleton]
      split
      · next hnil => simp [item, length_eq_zero_iff.mp hnil]
      · next hne =>
        rw [item, hi, Nat.add_sub_cancel, getD_append_right _ _ _ _ (by rw [length_ofList]), length_ofList, Nat.sub_self,
          ih (Nat.pos_of_ne_zero hne) le_rfl, take_length]
        exact Int.add_comm ..

theorem mod_of_lt {a n : Nat} (h : a < n) : mod a n = a := by
  rw [mod, Int.tdiv_eq_zero_of_lt (by omega) (by omega)]
  omega

/-- The sum of the `m` items from `a` on, around the end of the array. -/
theorem get_ofList {l : List Int} {a m : Nat} (ha : a < l.length) (hpos : 0 < m) (hm : m < l.length) :
    get (ofList l) a ((a + m) % l.length : Nat) = ((l.rotate a).take m).sum := by
  have hsplit : ∀ k, (l.take (a + k)).sum = (l.take a).sum + ((l.drop a).take k).sum := by
    intro k
    rw [take_add, sum_append]
  have ha' : 0 < a → item (ofList l) (a - 1) = (l.take a).sum := fun hpos => item_ofList hpos ha.le
  rw [get, length_ofList, mod_of_lt ha, mod_of_lt (Nat.mod_lt _ (by omega)), rotate_eq_drop_append_take ha.le, take_append,
    sum_append, length_drop]
  obtain hlt | hle := lt_or_ge (a + m) l.length
  · rw [Nat.mod_eq_of_lt hlt, if_neg (by omega), if_neg (by omega), item_ofList (by omega) hlt.le, hsplit,
      Nat.sub_eq_zero_of_le (by omega), take_zero, sum_nil]
    split
    · next h0 => simp [Int.natCast_eq_zero.mp h0]
    · rw [ha' (by omega)]
      omega
  · have hb : (a + m) % l.length = a + m - l.length := by
      rw [Nat.mod_eq_sub_mod hle, Nat.mod_eq_of_lt (by omega)]
    have hrest := hsplit m
    rw [take_of_length_le hle] at hrest
    have hlast := item_ofList (l := l) (by omega) le_rfl
    rw [take_length] at hlast
    rw [hb, if_neg (by omega), if_pos (by omega), hlast, ha' (by omega), take_take, min_eq_left (by omega),
      show m - (l.length - a) = a + m - l.length by omega]
    split
    · next h0 =>
      rw [Int.natCast_eq_zero.mp h0, take_zero, sum_nil]
      omega
    · rw [item_ofList (by omega) (by omega)]
      omega

end IntegralArray

open IntegralArray

structure IntegralLineFit where
  xx : List Int := []
  xy : List Int := []
  yy : List Int := []
  x : List Int := []
  y : List Int := []
  n : Int
  minLen : Int

/-- The integers of `GetLineErrorRate`. -/
structure Moments where
  nv : Int
  px : Int
  py : Int
  pxx : Int
  pxy : Int
  pyy : Int
  deriving DecidableEq, Repr

/-- The number of the points, and their sums. -/
def momentsOf (l : List Point) : Moments :=
  ⟨l.length, (l.map Point.x).sum, (l.map Point.y).sum, (l.map fun p => p.x * p.x).sum, (l.map fun p => p.x * p.y).sum,
    (l.map fun p => p.y * p.y).sum⟩

/-- What the error is computed from. -/
def Moments.central (m : Moments) : Int × Int × Int :=
  (m.pxx * m.nv - m.px * m.px, m.pxy * m.nv - m.px * m.py, m.pyy * m.nv - m.py * m.py)

namespace IntegralLineFit

variable (fit : IntegralLineFit) (st ed : Int)

def addPt (pt : Point) : IntegralLineFit :=
  { fit with
    xx := add fit.xx (pt.x * pt.x)
    xy := add fit.xy (pt.x * pt.y)
    yy := add fit.yy (pt.y * pt.y)
    x := add fit.x pt.x
    y := add fit.y pt.y }

def getNForRange : Int :=
  let nv := ed + 1 - st
  if ed < st then nv + fit.n else nv

def getLineErrorRate : Moments :=
  ⟨fit.getNForRange st ed, get fit.x st ed, get fit.y st ed, get fit.xx st ed, get fit.xy st ed, get fit.yy st ed⟩

/-- How far an arc is extended on both sides. -/
def widening : Int := (max (fit.minLen - fit.getNForRange st ed) 0).tdiv 2

def getErrorLineRange : Moments :=
  let j := fit.widening st ed
  fit.getLineErrorRate ((st - j + fit.n).tmod fit.n) ((ed + 1 + j + fit.n).tmod fit.n)

/-- Where `getErrorLineRange` reads each of its arrays. -/
def errorLineReads : List Int :=
  let j := fit.widening st ed
  reads fit.x.length ((st - j + fit.n).tmod fit.n) ((ed + 1 + j + fit.n).tmod fit.n)

end IntegralLineFit

open IntegralLineFit

/-- The fit of a contour in `HierarchicalMerge`. -/
def lineFit (points : List Point) (minLen : Int) : IntegralLineFit :=
  points.foldl addPt { n := points.length, minLen }

section

variable (points : List Point) (minLen st ed : Int)

/-- The points of the arc from `st` to `ed` after it was widened. -/
def arc : List Point :=
  let fit := lineFit points minLen
  let j := fit.widening st ed
  (points.rotate ((st - j) % points.length).toNat).take (fit.getNForRange st ed + 2 * j).toNat

/-- An arc of the contour, from before its first point at the earliest, that is not all of it after it was widened. -/
structure IsPartial : Prop where
  start : -1 ≤ st ∧ st < points.length
  stop : 0 ≤ ed ∧ ed < points.length
  lt : (lineFit points minLen).getNForRange st ed + 2 * (lineFit points minLen).widening st ed < points.length

end

theorem foldl_addPt (points : List Point) (n minLen : Int) : points.foldl addPt { n, minLen } = {
      xx := ofList (points.map fun p => p.x * p.x)
      xy := ofList (points.map fun p => p.x * p.y)
      yy := ofList (points.map fun p => p.y * p.y)
      x := ofList (points.map Point.x)
      y := ofList (points.map Point.y)
      n, minLen } := by
  induction points using reverseRecOn with
  | nil => rfl
  | append_singleton points p ih => simp [foldl_append, ih, addPt, ofList_concat]

variable {points : List Point} {minLen st ed : Int}

theorem IntegralLineFit.widening_nonneg (fit : IntegralLineFit) (st ed : Int) : 0 ≤ fit.widening st ed :=
  Int.tdiv_nonneg (le_max_right _ _) (by decide)

theorem getNForRange_mod {fit : IntegralLineFit} {a m n : Nat} (hn : fit.n = n) (ha : a < n) (hm : m < n) :
    fit.getNForRange a ((a + m) % n : Nat) = m + 1 := by
  rw [getNForRange, hn]
  obtain hlt | hle := lt_or_ge (a + m) n
  · rw [Nat.mod_eq_of_lt hlt, if_neg (by omega)]
    omega
  · rw [Nat.mod_eq_sub_mod hle, Nat.mod_eq_of_lt (by omega), if_pos (by omega)]
    omega

/-- The sums are those of the arc, and the number of points is one too many. -/
theorem getErrorLineRange_eq (h : IsPartial points minLen st ed) : (lineFit points minLen).getErrorLineRange st ed =
      { momentsOf (arc points minLen st ed) with nv := (arc points minLen st ed).length + 1 } := by
  obtain ⟨hst, hed, hlt⟩ := h
  have hj := (lineFit points minLen).widening_nonneg st ed
  rw [arc, getErrorLineRange]
  generalize (lineFit points minLen).widening st ed = j at *
  have hnv : (lineFit points minLen).getNForRange st ed =
      if ed < st then ed + 1 - st + points.length else ed + 1 - st := by
    rw [getNForRange, lineFit, foldl_addPt]
  obtain ⟨m, hm⟩ := Int.eq_ofNat_of_zero_le (a := (lineFit points minLen).getNForRange st ed + 2 * j)
    (by split at hnv <;> omega)
  obtain ⟨a, ha⟩ := Int.eq_ofNat_of_zero_le (Int.emod_nonneg (st - j) (b := points.length) (by omega))
  have hlast := Int.emod_lt_of_pos (st - j) (b := points.length) (by omega)
  have hstart : (st - j + points.length).tmod points.length = a := by
    rw [Int.tmod_eq_emod_of_nonneg (by omega), Int.add_emod_right, ha]
  have hstop : (ed + 1 + j + points.length).tmod points.length = ((a + m) % points.length : Nat) := by
    rw [Int.tmod_eq_emod_of_nonneg (by omega), Int.add_emod_right, Int.natCast_emod, Int.natCast_add, ← ha, ← hm,
      Int.emod_add_emod, hnv]
    split
    · rw [← Int.add_emod_right]
      congr 1
      omega
    · congr 1
      omega
  have hget : ∀ f : Point → Int, get (ofList (points.map f)) a ((a + m) % points.length : Nat) =
      (((points.rotate a).take m).map f).sum := by
    intro f
    have hsum := get_ofList (l := points.map f) (a := a) (m := m)
    rw [length_map, ← map_rotate, ← map_take] at hsum
    exact hsum (by omega) (by split at hnv <;> omega) (by omega)
  have hlength : ((points.rotate a).take m).length = m := by
    rw [length_take, length_rotate]
    omega
  rw [hm, ha, Int.toNat_natCast, Int.toNat_natCast, hlength, lineFit, foldl_addPt, hstart, hstop, getLineErrorRate,
    getNForRange_mod rfl (by omega) (by omega)]
  simp only [hget, momentsOf]

theorem getErrorLineRange_never (h : IsPartial points minLen st ed) :
    (lineFit points minLen).getErrorLineRange st ed =
        { momentsOf (arc points minLen st ed) with nv := (arc points minLen st ed).length + 1 } ∧
      (lineFit points minLen).getErrorLineRange st ed ≠ momentsOf (arc points minLen st ed) := by
  refine ⟨getErrorLineRange_eq h, ?_⟩
  rw [getErrorLineRange_eq h]
  intro heq
  exact Int.ne_of_gt (Int.lt_succ _) (congrArg Moments.nv heq)

/-- The remainder of a start so far before the contour that adding its length once leaves it negative is negative
too, unless it is zero. -/
theorem errorLineReads_inside_iff (hed : 0 ≤ ed ∧ ed < points.length) :
    (∀ i ∈ (lineFit points minLen).errorLineReads st ed, 0 ≤ i ∧ i < points.length) ↔
      0 ≤ st - (lineFit points minLen).widening st ed + points.length ∨
        (points.length : Int) ∣ st - (lineFit points minLen).widening st ed := by
  have hj := (lineFit points minLen).widening_nonneg st ed
  have hsize : (lineFit points minLen).x.length = points.length ∧ (lineFit points minLen).n = points.length := by
    simp [lineFit, foldl_addPt, length_ofList]
  rw [errorLineReads, reads, hsize.1, hsize.2]
  generalize (lineFit points minLen).widening st ed = j at *
  have hmod : ∀ a n, mod a n = a.tmod n := fun a n => (Int.tmod_def a n).symm
  have hb : (ed + 1 + j + points.length).tmod points.length = (ed + 1 + j + points.length) % points.length :=
    Int.tmod_eq_emod_of_nonneg (by omega)
  have hblo := Int.emod_nonneg (ed + 1 + j + points.length) (b := points.length) (by omega)
  have hbhi := Int.emod_lt_of_pos (ed + 1 + j + points.length) (b := points.length) (by omega)
  have halo := Int.emod_nonneg (st - j + points.length) (b := points.length) (by omega)
  have hahi := Int.emod_lt_of_pos (st - j + points.length) (b := points.length) (by omega)
  have hdvd : (points.length : Int) ∣ st - j ↔ (points.length : Int) ∣ st - j + points.length := by simp
  have ha := Int.tmod_eq_emod (a := st - j + points.length) (b := points.length)
  rw [hmod, hmod, Int.tmod_tmod, Int.tmod_tmod, hb, hdvd]
  split at ha
  · rename_i hcase
    refine iff_of_true (fun i hi => ?_) hcase
    rw [ha] at hi
    split_ifs at hi <;> simp only [mem_cons, not_mem_nil, or_false] at hi <;> omega
  · rename_i hcase
    refine iff_of_false (fun hall => ?_) hcase
    rw [ha, if_neg (by omega), if_neg (by omega), if_neg (by omega)] at hall
    have := hall _ (mem_cons_of_mem _ mem_cons_self)
    omega

/-- A square with its lower side as the arc, and the same square one to the right. -/
def square (x : Int) : List Point := [⟨x, 0⟩, ⟨x + 1, 0⟩, ⟨x + 1, 1⟩, ⟨x, 1⟩]

theorem getErrorLineRange_never_square :
    (lineFit (square 0) 0).getErrorLineRange 0 1 ≠ momentsOf (arc (square 0) 0 0 1) :=
  (getErrorLineRange_never ⟨by decide, by decide, by decide⟩).2

theorem errorLineReads_outside : (lineFit (square 0) 12).errorLineReads 0 1 = [2, -2] := by decide

theorem errorLineReads_inside_iff_square : (square 0).length = 4 ∧
    ∀ i ∈ (lineFit (square 0) 10).errorLineReads 0 1, 0 ≤ i ∧ i < (square 0).length :=
  ⟨rfl, (errorLineReads_inside_iff (by decide)).mpr (by decide)⟩

theorem central_moves : arc (square 0) 0 0 1 = [⟨0, 0⟩, ⟨1, 0⟩] ∧ arc (square 1) 0 0 1 = [⟨1, 0⟩, ⟨2, 0⟩] ∧
    ((lineFit (square 0) 0).getErrorLineRange 0 1).nv = 3 ∧
    ((lineFit (square 0) 0).getErrorLineRange 0 1).central = (2, 0, 0) ∧
    ((lineFit (square 1) 0).getErrorLineRange 0 1).central = (6, 0, 0) := by
  decide

end RobotCode.Vision
