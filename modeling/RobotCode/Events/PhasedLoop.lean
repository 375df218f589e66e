import RobotCode.Events.EventLoop

/-!
# What a phased loop counts

A phased loop wakes up at the times of a grid, those a whole number of intervals after its offset. `iterate` counts
the times of the grid since the call before it, where a reset counts as a call one interval earlier.
-/

namespace RobotCode.Events.PhasedLoop

open Finset

/-- `OffsetFromIntervalAndTime` -/
def offsetFromIntervalAndTime (interval trigger : Int) : Except SimError Int :=
  if interval > 0 then .ok (trigger - trigger.tdiv interval * interval + if trigger ≥ 0 then 0 else interval)
  else .error .badPhase

/-- What a sequence of calls returns, with `sleep_time()` after each of them. -/
def iterateAll (l : PhasedLoop) : List Int → Except SimError (List (Int × Int))
  | [] => .ok []
  | now :: times => do
    let (cycles, l') ← l.iterate now
    let rest ← l'.iterateAll times
    .ok ((cycles, l'.lastTime) :: rest)

/-- The times of the grid after `since` and up to `now`. -/
noncomputable def gridTimes (l : PhasedLoop) (since now : Int) : Finset Int :=
  {t ∈ Ioc since now | t ≡ l.offset [ZMOD l.interval]}

variable {l : PhasedLoop}

theorem nextTime_modEq (h : l.Valid) (now : Int) : l.nextTime now ≡ l.offset [ZMOD l.interval] :=
  (Int.modEq_iff_dvd.mpr (Int.dvd_of_tmod_eq_zero (nextTime_spec h now).1)).symm

theorem nextTime_isLeast (h : l.Valid) (now : Int) :
    IsLeast {t | now < t ∧ t ≡ l.offset [ZMOD l.interval]} (l.nextTime now) := by
  obtain ⟨-, hafter, hclose⟩ := nextTime_spec h now
  refine ⟨⟨hafter, nextTime_modEq h now⟩, fun t ht => ?_⟩
  by_contra hlt
  have hdvd : l.interval ∣ l.nextTime now - t := (ht.2.trans (nextTime_modEq h now).symm).dvd
  have hle := Int.le_of_dvd (by omega) hdvd
  have := ht.1
  omega

theorem nextTime_eq (h : l.Valid) (now : Int) :
    l.nextTime now = ((now - l.offset) / l.interval + 1) * l.interval + l.offset := by
  have hpos := h.2.1
  have hdiv := Int.emod_add_mul_ediv (now - l.offset) l.interval
  have hlo := Int.emod_nonneg (now - l.offset) hpos.ne'
  have hhi := Int.emod_lt_of_pos (now - l.offset) hpos
  apply (nextTime_isLeast h now).unique
  refine ⟨⟨by nlinarith, by simp [Int.ModEq]⟩, fun t ht => ?_⟩
  obtain ⟨k, hk⟩ := (ht.2.symm).dvd
  have := ht.1
  have hlt : (now - l.offset) / l.interval < k := by
    rw [Int.ediv_lt_iff_lt_mul hpos]
    linarith
  nlinarith

theorem card_gridTimes (h : l.Valid) {since now : Int} (hle : since ≤ now) :
    (#(l.gridTimes since now) : Int) = (l.nextTime now - l.nextTime since).tdiv l.interval := by
  have hpos := h.2.1
  have hmono := Int.ediv_le_ediv hpos (sub_le_sub_right hle l.offset)
  rw [gridTimes, Int.Ioc_filter_modEq_card _ _ hpos, nextTime_eq h, nextTime_eq h, add_sub_add_right_eq_sub, ← sub_mul,
    Int.mul_tdiv_cancel _ hpos.ne', add_sub_add_right_eq_sub, ← Int.cast_sub, ← Int.cast_sub,
    Int.floor_div_cast_of_nonneg hpos.le, Int.floor_div_cast_of_nonneg hpos.le, Int.floor_intCast, Int.floor_intCast]
  omega

theorem iterateAll_eq (h : l.Valid) {since : Int} (hlast : l.lastTime = l.nextTime since) (times : List Int)
    (hmono : (since :: times).Pairwise (· ≤ ·)) : l.iterateAll times =
      .ok (List.zipWith (fun since now => ((#(l.gridTimes since now) : Int), l.nextTime now)) (since :: times) times) := by
  induction times generalizing l since with
  | nil => rfl
  | cons now times ih =>
    rw [List.pairwise_cons] at hmono
    have hiterate : l.iterate now = .ok (#(l.gridTimes since now), { l with lastTime := l.nextTime now }) := by
      rw [card_gridTimes h (hmono.1 now (by simp)), ← hlast]
      exact if_pos (nextTime_spec h now)
    rw [iterateAll, hiterate]
    show Except.bind (iterateAll { l with lastTime := l.nextTime now } times) _ = _
    rw [ih (h.lastTime (l.nextTime now)) rfl hmono.2]
    rfl

/-- Every call returns the number of times of the grid since the call before it, and the loop sleeps until the next. -/
theorem iterateAll_counts (h : l.Valid) (t0 : Int) {times : List Int}
    (hmono : ((t0 - l.interval) :: times).Pairwise (· ≤ ·)) :
    (l.reset t0 >>= (·.iterateAll times)) = .ok (List.zipWith
      (fun since now => ((#(l.gridTimes since now) : Int), l.nextTime now)) ((t0 - l.interval) :: times) times) ∧
    (∀ now, IsLeast {t | now < t ∧ t ≡ l.offset [ZMOD l.interval]} (l.nextTime now)) ∧
    (l.reset t0 >>= (·.iterateAll [t0])) = .ok [(1, l.nextTime t0)] := by
  have hpos := h.2.1
  have hreset : l.reset t0 = .ok { l with lastTime := l.nextTime (t0 - l.interval) } := by
    rw [reset, iterate, if_pos (nextTime_spec h _)]
    rfl
  have hcounts := iterateAll_eq (h.lastTime (l.nextTime (t0 - l.interval))) rfl
  have hone : (#(l.gridTimes (t0 - l.interval) t0) : Int) = 1 := by
    have hback := Int.add_mul_ediv_right (t0 - l.offset) (-1) hpos.ne'
    rw [neg_one_mul, ← sub_eq_add_neg, sub_right_comm] at hback
    rw [card_gridTimes h (by omega), nextTime_eq h, nextTime_eq h, hback]
    ring_nf
    exact Int.tdiv_self hpos.ne'
  rw [hreset]
  refine ⟨hcounts times hmono, nextTime_isLeast h, (hcounts [t0] (by simpa using hpos.le)).trans ?_⟩
  show Except.ok [((#(l.gridTimes (t0 - l.interval) t0) : Int), l.nextTime t0)] = _
  rw [hone]

theorem iterateAll_backwards :
    (reset ⟨2, 0, 0⟩ 10 >>= (·.iterateAll [0])) = .ok [(-4, 2)] ∧ #(gridTimes ⟨2, 0, 0⟩ (10 - 2) 0) = 0 := by
  refine ⟨rfl, ?_⟩
  simp [gridTimes]

theorem iterateAll_counts_below_zero : (reset ⟨100, 1, 0⟩ (-1000) >>= (·.iterateAll [-250, -199, -99, 1])) =
    .ok (List.zipWith (fun since now => ((#(gridTimes ⟨100, 1, 0⟩ since now) : Int), nextTime ⟨100, 1, 0⟩ now))
      [-1100, -250, -199, -99, 1] [-250, -199, -99, 1]) :=
  (iterateAll_counts (l := ⟨100, 1, 0⟩) (by decide) (-1000) (by decide)).1

/-- The offset for a trigger time is one that makes the loop sleep until it, except for the negative multiples of
the interval, whose offset the constructor refuses. -/
theorem offsetFromIntervalAndTime_hits_iff {interval : Int} (hinterval : 0 < interval) (trigger now : Int) :
    (∃ o l cycles l', offsetFromIntervalAndTime interval trigger = .ok o ∧ 0 ≤ o ∧ o < interval ∧
      create interval now o = .ok l ∧ l.iterate (trigger - 1) = .ok (cycles, l') ∧ l'.lastTime = trigger) ↔
    0 ≤ trigger ∨ ¬ interval ∣ trigger := by
  have hmod := Int.tmod_def trigger interval
  rw [mul_comm] at hmod
  rw [offsetFromIntervalAndTime, if_pos hinterval, ← hmod]
  constructor
  · rintro ⟨o, l, cycles, l', ho, hlo, hhi, -⟩
    by_contra hneg
    rw [not_or, not_not] at hneg
    rw [Int.tmod_eq_zero_of_dvd hneg.2, if_neg hneg.1] at ho
    injection ho with ho
    omega
  · intro hcase
    have ho : trigger.tmod interval + (if trigger ≥ 0 then 0 else interval) = trigger % interval := by
      rw [Int.tmod_eq_emod]
      grind
    rw [ho]
    have hlo := Int.emod_nonneg trigger hinterval.ne'
    have hhi := Int.emod_lt_of_pos trigger hinterval
    have hvalid : Valid ⟨interval, trigger % interval, trigger % interval⟩ := ⟨hlo, hinterval, hhi⟩
    obtain ⟨time, hreset⟩ := reset_spec hvalid now
    obtain ⟨cycles, hiterate⟩ := iterate_spec (hvalid.lastTime time) (trigger - 1)
    refine ⟨_, _, cycles, _, rfl, hlo, hhi, (if_pos hvalid).trans hreset, hiterate, ?_⟩
    apply (nextTime_isLeast (hvalid.lastTime time) _).unique
    exact ⟨⟨by simp, (Int.mod_modEq _ _).symm⟩, fun t ht => Int.sub_one_lt_iff.mp ht.1⟩

theorem offsetFromIntervalAndTime_negative_multiple :
    offsetFromIntervalAndTime 2 (-2) = .ok 2 ∧ create 2 0 2 = .error .badPhase := by decide

theorem offsetFromIntervalAndTime_hits_iff_negative :
    ∃ o l cycles l', offsetFromIntervalAndTime 2 (-3) = .ok o ∧ 0 ≤ o ∧ o < 2 ∧ create 2 7 o = .ok l ∧
      l.iterate (-3 - 1) = .ok (cycles, l') ∧ l'.lastTime = -3 :=
  (offsetFromIntervalAndTime_hits_iff (by decide) (-3) 7).mpr (by decide)

end RobotCode.Events.PhasedLoop
