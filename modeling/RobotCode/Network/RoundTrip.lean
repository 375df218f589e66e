import RobotCode.Network.LazyConversion

/-!
# Distributed time converts back

Between two points the distributed clock advances at least as much as the clock of every node that did not
reboot. So a time of a node is spread out when it is converted to the distributed clock, and rounding back
finds it again.
-/

namespace RobotCode.Network

open Logging Rounding Fallible List BootTimestamp

variable {n : Nat}

/-! ### The points -/

section Times

variable {ta tb : Fin n → BootTimestamp}

structure Comparison.Describes (ta tb : Fin n → BootTimestamp) (seen : List (Fin n)) (s : Comparison) : Prop where
  less : s.isLess = true → ∃ i ∈ seen, Comparable ta tb i ∧ (ta i).time < (tb i).time
  greater : s.isGreater = false → ∀ i ∈ seen, Comparable ta tb i → (ta i).time ≤ (tb i).time
  someEq : s.someEq = false → ∀ i ∈ seen, Comparable ta tb i → (ta i).time ≠ (tb i).time

theorem Comparison.Describes.step {seen : List (Fin n)} {s : Comparison} (h : s.Describes ta tb seen) (i : Fin n) :
    (s.step ta tb i).Describes ta tb (i :: seen) := by
  have hless : s.isLess = true → ∃ j ∈ i :: seen, Comparable ta tb j ∧ (ta j).time < (tb j).time :=
    fun hl => exists_mem_cons_of_exists (h.less hl)
  rw [Comparison.step]
  split
  · next hskip =>
    exact ⟨hless, fun hg => forall_mem_cons.mpr ⟨(absurd · hskip), h.greater hg⟩,
      fun he => forall_mem_cons.mpr ⟨(absurd · hskip), h.someEq he⟩⟩
  next hcomparable =>
  rw [not_not] at hcomparable
  split
  · next hlt =>
    exact ⟨fun _ => ⟨i, mem_cons_self, hcomparable, hlt⟩, fun hg => forall_mem_cons.mpr ⟨fun _ => hlt.le, h.greater hg⟩,
      fun he => forall_mem_cons.mpr ⟨fun _ => hlt.ne, h.someEq he⟩⟩
  next hge =>
  split
  · next hgt => exact ⟨hless, nofun, fun he => forall_mem_cons.mpr ⟨fun _ => hgt.ne', h.someEq he⟩⟩
  · exact ⟨hless, fun hg => forall_mem_cons.mpr ⟨fun _ => by omega, h.greater hg⟩, nofun⟩

theorem Comparison.Describes.foldl {seen : List (Fin n)} {s : Comparison} (h : s.Describes ta tb seen)
    (l : List (Fin n)) : (l.foldl (Comparison.step ta tb) s).Describes ta tb (l.reverse ++ seen) := by
  induction l generalizing s seen with
  | nil => exact h
  | cons i l ih => simpa using ih (h.step i)

theorem compareTimes_before (h : compareTimes ta tb = .before) :
    (∀ i, Comparable ta tb i → (ta i).time < (tb i).time) ∧ ∃ i, Comparable ta tb i := by
  have hstart : (⟨false, false, true, false⟩ : Comparison).Describes ta tb [] := ⟨nofun, by simp, by simp⟩
  have hflags := hstart.foldl (finRange n)
  rw [compareTimes] at h
  split at h
  · cases h
  generalize (finRange n).foldl (Comparison.step ta tb) ⟨false, false, true, false⟩ = s at h hflags
  have hs : s.someEq = false ∧ s.isLess = true ∧ s.isGreater = false := by
    rcases s with ⟨_ | _, _ | _, _ | _, _ | _⟩ <;> simp_all
  refine ⟨fun i hi => ?_, ?_⟩
  · have hmem : i ∈ (finRange n).reverse ++ [] := by simp
    exact lt_of_le_of_ne (hflags.greater hs.2.2 i hmem hi) (hflags.someEq hs.1 i hmem hi)
  · obtain ⟨i, -, hi, -⟩ := hflags.less hs.2.1
    exact ⟨i, hi⟩

private theorem foldl_elapsedStep (l : List (Fin n)) (dt : Option Int) :
    (∀ d ∈ dt, ∃ m ∈ l.foldl (elapsedStep ta tb) dt, d ≤ m) ∧
      (∀ i ∈ l, Comparable ta tb i → ∃ m ∈ l.foldl (elapsedStep ta tb) dt, (tb i).time - (ta i).time ≤ m) := by
  induction l generalizing dt with
  | nil => exact ⟨fun d hd => ⟨d, hd, le_rfl⟩, by simp⟩
  | cons i l ih =>
    obtain ⟨hkeep, hall⟩ := ih (elapsedStep ta tb dt i)
    have hstep : (∀ d ∈ dt, ∃ d' ∈ elapsedStep ta tb dt i, d ≤ d') ∧
        (Comparable ta tb i → ∃ d' ∈ elapsedStep ta tb dt i, (tb i).time - (ta i).time ≤ d') := by
      rw [elapsedStep]
      split
      · next hskip => exact ⟨fun d hd => ⟨d, hd, le_rfl⟩, fun hi => absurd hi hskip⟩
      · cases dt with
        | none => simp
        | some d =>
          simp only [Option.mem_some_iff, forall_eq']
          split
          · next hlt => exact ⟨⟨_, rfl, hlt.le⟩, fun _ => ⟨_, rfl, le_rfl⟩⟩
          · next hge => exact ⟨⟨d, rfl, le_rfl⟩, fun _ => ⟨d, rfl, not_lt.mp hge⟩⟩
    have htrans : ∀ x, (∃ d' ∈ elapsedStep ta tb dt i, x ≤ d') →
        ∃ m ∈ l.foldl (elapsedStep ta tb) (elapsedStep ta tb dt i), x ≤ m := by
      intro x ⟨d', hd', hle⟩
      obtain ⟨m, hm, hle'⟩ := hkeep d' hd'
      exact ⟨m, hm, hle.trans hle'⟩
    exact ⟨fun d hd => htrans d (hstep.1 d hd), forall_mem_cons.mpr ⟨fun hi => htrans _ (hstep.2 hi), hall⟩⟩

theorem le_maxElapsedTime {dt : Int} (h : maxElapsedTime ta tb = .ok dt) {i : Fin n} (hi : Comparable ta tb i) :
    (tb i).time - (ta i).time ≤ dt := by
  obtain ⟨m, hm, hle⟩ := (foldl_elapsedStep (finRange n) none).2 i (mem_finRange i) hi
  rw [maxElapsedTime, Option.mem_def.mp hm] at h
  cases h
  exact hle

end Times

/-- The distributed clock advances at least as much as the clock of a node that did not reboot. -/
structure Advances (p q : TimePoint n) : Prop where
  nodes : ∀ i, (p.nodes i).boot = (q.nodes i).boot →
    (p.nodes i).time < (q.nodes i).time ∧ (q.nodes i).time - (p.nodes i).time ≤ q.distributed - p.distributed
  alive : ∃ i, (p.nodes i).boot = (q.nodes i).boot

namespace Estimator

variable {e e' : Estimator n} {p : TimePoint n} {resultTimes : Fin n → BootTimestamp}
  {solutions solutions' : List (Fin n → BootTimestamp)}

def last (e : Estimator n) : TimePoint n := ⟨e.lastDistributed, e.lastMonotonics⟩

def Known (e : Estimator n) : Prop := ∀ i, .minTime < e.lastMonotonics i

theorem advance_spec (h : e.advance resultTimes = .ok (p, e')) :
    e'.last = p ∧ e'.firstSolution = false ∧
      ∃ dt, maxElapsedTime e.lastMonotonics resultTimes = .ok dt ∧ p.distributed = e.lastDistributed + dt ∧
        ∀ i, p.nodes i = if resultTimes i = .minTime then (e.lastMonotonics i).add dt else resultTimes i := by
  rw [advance, bind_eq_ok] at h
  obtain ⟨dt, hdt, h⟩ := h
  cases h
  exact ⟨rfl, rfl, dt, hdt, rfl, fun _ => rfl⟩

theorem advances_of_before (hknown : e.Known) (hbefore : compareTimes e.lastMonotonics resultTimes = .before)
    (hrange : ∀ i, .minTime ≤ resultTimes i) (h : e.advance resultTimes = .ok (p, e')) :
    Advances e.last p ∧ e'.last = p ∧ e'.firstSolution = false ∧ e'.Known := by
  obtain ⟨hlast, hfirst, dt, hdt, hdistributed, hnodes⟩ := advance_spec h
  obtain ⟨hlt, j, hj⟩ := compareTimes_before hbefore
  have hpos : 0 < dt := by
    have := le_maxElapsedTime hdt hj
    have := hlt j hj
    omega
  have hnode : ∀ i, (e.lastMonotonics i).boot = (p.nodes i).boot →
      (e.lastMonotonics i).time < (p.nodes i).time ∧ (p.nodes i).time - (e.lastMonotonics i).time ≤ dt := by
    intro i hboot
    rw [hnodes i] at hboot ⊢
    split at hboot
    · next hunknown =>
      rw [if_pos hunknown]
      simp only [add]
      omega
    · next hresult =>
      rw [if_neg hresult]
      have hi : Comparable e.lastMonotonics resultTimes i := ⟨(hknown i).ne', hresult, hboot⟩
      exact ⟨hlt i hi, le_maxElapsedTime hdt hi⟩
  refine ⟨⟨fun i hboot => ?_, j, ?_⟩, hlast, hfirst, fun i => ?_⟩
  · obtain ⟨hless, hle⟩ := hnode i hboot
    exact ⟨hless, by simp only [last, hdistributed] at hle ⊢; omega⟩
  · rw [hnodes j, if_neg hj.2.1]
    exact hj.2.2
  · have hmono : e'.lastMonotonics i = p.nodes i := by rw [← hlast]; rfl
    rw [hmono, hnodes i]
    split
    · have hmin := hknown i
      rw [lt_iff] at hmin ⊢
      simp only [add]
      omega
    · next hresult => exact lt_of_le_of_ne (hrange i) (Ne.symm hresult)

theorem nextTimestamp_spec (hfirst : e.firstSolution = false) (hknown : e.Known)
    (hrange : ∀ r ∈ solutions, ∀ i, .minTime ≤ r i)
    (h : e.nextTimestamp solutions = .ok (some (p, e', solutions'))) :
    Advances e.last p ∧ e'.last = p ∧ e'.firstSolution = false ∧ e'.Known ∧ ∀ r ∈ solutions', r ∈ solutions := by
  induction solutions with
  | nil => simp [nextTimestamp, hfirst] at h
  | cons r solutions ih =>
    have hrest := ih fun r' hr' => hrange r' (mem_cons_of_mem r hr')
    simp only [nextTimestamp, hfirst, Bool.false_eq_true, if_false] at h
    split at h
    · next hbefore =>
      obtain ⟨⟨p', e''⟩, hadvance, h⟩ := bind_eq_ok.mp h
      cases h
      obtain ⟨hadvances, hlast, hfirst', hknown'⟩ :=
        advances_of_before hknown hbefore (hrange r mem_cons_self) hadvance
      exact ⟨hadvances, hlast, hfirst', hknown', fun r' hr' => mem_cons_of_mem r hr'⟩
    · cases h
    · obtain ⟨hadvances, hlast, hfirst', hknown', hmem⟩ := hrest h
      exact ⟨hadvances, hlast, hfirst', hknown', fun r' hr' => mem_cons_of_mem r (hmem r' hr')⟩
    · obtain ⟨distance, -, h⟩ := bind_eq_ok.mp h
      split at h
      · obtain ⟨hadvances, hlast, hfirst', hknown', hmem⟩ := hrest h
        exact ⟨hadvances, hlast, hfirst', hknown', fun r' hr' => mem_cons_of_mem r (hmem r' hr')⟩
      · cases h

theorem Emits.isChain {points : List (TimePoint n)} (h : Emits e solutions points) (hfirst : e.firstSolution = false)
    (hknown : e.Known) (hrange : ∀ r ∈ solutions, ∀ i, .minTime ≤ r i) :
    (e.last :: points).IsChain Advances := by
  induction h with
  | done => exact List.IsChain.singleton _
  | next p e' solutions' hnext hrest ih =>
    obtain ⟨hadvances, hlast, hfirst', hknown', hmem⟩ := nextTimestamp_spec hfirst hknown hrange hnext
    have htail := ih hfirst' hknown' fun r hr => hrange r (hmem r hr)
    rw [hlast] at htail
    exact List.IsChain.cons_cons hadvances htail

theorem Emits.start_isChain {points : List (TimePoint n)} {maxInvalidDistance : Int}
    (h : Emits (start n maxInvalidDistance) solutions points)
    (hrange : ∀ r ∈ solutions, ∀ i, .minTime ≤ r i) : points.IsChain Advances := by
  cases h with
  | done => exact List.IsChain.nil
  | @next _ _ points p e' solutions' hnext hrest =>
    cases solutions with
    | nil =>
      simp only [nextTimestamp, start, if_true, Except.ok.injEq, Option.some.injEq, Prod.mk.injEq] at hnext
      obtain ⟨rfl, rfl, rfl⟩ := hnext
      refine hrest.isChain rfl (fun i => ?_) (by simp)
      simp [lt_iff, BootTimestamp.minTime, epoch]
    | cons r solutions =>
      simp only [nextTimestamp, start, if_true] at hnext
      obtain ⟨⟨p', e''⟩, hadvance, hnext⟩ := bind_eq_ok.mp hnext
      cases hnext
      obtain ⟨hlast, hfirst, dt, -, -, hnodes⟩ := advance_spec hadvance
      have hepoch : .minTime < epoch := by decide
      have hknown : e''.Known := by
        intro i
        have hmono : e''.lastMonotonics i = p'.nodes i := by rw [← hlast]; rfl
        rw [hmono, hnodes i]
        by_cases hmin : r i = .minTime
        · simp [hmin, hepoch, hepoch.ne']
        · simpa [hmin] using lt_of_le_of_ne (hrange r mem_cons_self i) (Ne.symm hmin)
      rw [← hlast]
      exact hrest.isChain hfirst hknown fun r' hr' => hrange r' (mem_cons_of_mem r hr')

end Estimator

/-! ### There and back -/

section RoundTrip

variable {points before after : List (TimePoint n)} {p q : TimePoint n} {node : Fin n} {time : BootTimestamp}

theorem advancing_of_isChain (hchain : points.IsChain Advances)
    (hboots : ∀ node, points.Pairwise fun p q => (p.nodes node).boot ≤ (q.nodes node).boot) : Advancing points := by
  induction points with
  | nil => exact ⟨List.Pairwise.nil, fun _ => List.Pairwise.nil⟩
  | cons p points ih =>
    have htail := ih hchain.tail fun node => (hboots node).tail
    cases points with
    | nil => exact ⟨pairwise_singleton _ p, fun _ => pairwise_singleton _ p⟩
    | cons q points =>
      obtain ⟨hadvances, -⟩ := isChain_cons_cons.mp hchain
      have hdistributed : p.distributed < q.distributed := by
        obtain ⟨i, hi⟩ := hadvances.alive
        have := hadvances.nodes i hi
        omega
      have hnodes : ∀ node, p.nodes node < q.nodes node := by
        intro node
        have hle := rel_of_pairwise_cons (hboots node) mem_cons_self
        rw [lt_iff]
        rcases hle.lt_or_eq with hlt | heq
        · exact .inl hlt
        · exact .inr ⟨heq, (hadvances.nodes node heq).1⟩
      refine ⟨pairwise_cons.mpr ⟨forall_mem_cons.mpr ⟨hdistributed, fun r hr => ?_⟩, htail.distributed⟩,
        fun node => pairwise_cons.mpr ⟨forall_mem_cons.mpr ⟨hnodes node, fun r hr => ?_⟩, htail.nodes node⟩⟩
      · exact hdistributed.trans (htail.lt_of_mem hr).1
      · exact (hnodes node).trans ((htail.lt_of_mem hr).2 node)

theorem toDistributedIn_point (h : Advancing points) (hL : points = before ++ p :: after) :
    toDistributedIn node (p.nodes node) false points = .ok p.distributed := by
  cases after with
  | cons q after =>
    have hlt := ((hL ▸ h).of_append.lt_of_mem (q := q) mem_cons_self).2 node
    rw [toDistributedIn_append before h hL false le_rfl (.inr hlt), toDistributedBetween_left hlt]
  | nil =>
    rcases eq_nil_or_concat before with rfl | ⟨before, f, rfl⟩
    · simp [hL, toDistributedIn, toDistributedAtFirst]
    · have hfp := (hL ▸ h).le_of_append (q := f) (by simp)
      rw [toDistributedIn_append before h (by simpa using hL) false (hfp.2 node).le (.inl rfl),
        toDistributedBetween_right (hfp.2 node) hfp.1]

theorem fromDistributedIn_point (h : Advancing points) (hL : points = before ++ p :: after) :
    fromDistributedIn node p.distributed (p.nodes node).boot false points = .ok (p.nodes node) := by
  rcases eq_nil_or_concat before with rfl | ⟨before, f, rfl⟩
  · cases after with
    | nil => simp [hL, fromDistributedIn]
    | cons q after =>
      have hlt := ((hL ▸ h).of_append.lt_of_mem (q := q) mem_cons_self).1
      rw [fromDistributedIn_append [] h hL _ false le_rfl (by simp) (.inr hlt.le), fromDistributedBetween_left hlt]
  · have hfp := ((hL ▸ h).le_of_append (q := f) (by simp)).1
    rw [concat_append] at hL
    rw [fromDistributedIn_append before h hL _ false hfp.le (fun _ => hfp) (.inr le_rfl)]
    simp [fromDistributedBetween, add]

theorem roundTrip_between (h : Advancing points) (hL : points = before ++ p :: q :: after) (hadvances : Advances p q)
    (hp : (p.nodes node).boot = time.boot) (hq : (q.nodes node).boot = time.boot)
    (hpt : (p.nodes node).time < time.time) (htq : time.time < (q.nodes node).time) :
    ∃ d, toDistributedIn node time false points = .ok d ∧ fromDistributedIn node d time.boot false points = .ok time := by
  obtain ⟨hlt, hle⟩ := hadvances.nodes node (hp.trans hq.symm)
  have hnode : p.nodes node ≤ time ∧ time < q.nodes node := by
    rw [le_iff, lt_iff]
    omega
  have ht : 0 < (q.nodes node).time - (p.nodes node).time := by omega
  generalize hx : time.time - (p.nodes node).time = x at *
  generalize hT : (q.nodes node).time - (p.nodes node).time = T at *
  generalize hD : q.distributed - p.distributed = D at *
  have hpos := roundDiv_scale_pos ht hle (show 0 < x by omega)
  have hless := roundDiv_scale_lt ht hle (show 0 ≤ x by omega) (by omega)
  have hback := roundDiv_scale_scale ht hle (show 0 ≤ x by omega)
  refine ⟨p.distributed + roundDiv (x * D) T, ?_, ?_⟩
  · rw [toDistributedIn_append before h hL false hnode.1 (.inr hnode.2), toDistributedBetween]
    simp [if_neg hnode.2.not_gt, hp, hq, ne_eq, not_true_eq_false, interpolate, hx, hT, hD, if_neg ht.ne']
  · rw [fromDistributedIn_append before h hL time.boot false (by omega) (fun _ => by omega) (.inr (by omega)),
      fromDistributedBetween]
    simp only [hp, hq, ne_eq, not_true_eq_false, if_false, add_sub_cancel_left, hT, hD, hback,
      if_neg (show ¬ p.distributed + roundDiv (x * D) T = q.distributed by omega),
      if_neg (show ¬ q.distributed < p.distributed + roundDiv (x * D) T by omega), if_neg (show ¬ D = 0 by omega)]
    rw [← hx, add_sub_cancel]

def Covered (points : List (TimePoint n)) (node : Fin n) (time : BootTimestamp) : Prop :=
  (∃ before p q after, points = before ++ p :: q :: after ∧ (p.nodes node).boot = time.boot ∧
      (q.nodes node).boot = time.boot ∧ (p.nodes node).time ≤ time.time ∧ time.time ≤ (q.nodes node).time) ∨
    (∃ p ∈ points.head?, (p.nodes node).boot = time.boot ∧ time.time ≤ (p.nodes node).time) ∨
    ∃ p ∈ points.getLast?, (p.nodes node).boot = time.boot ∧ (p.nodes node).time ≤ time.time

theorem roundTrip_point (h : Advancing points) (hp : p ∈ points) (htime : time = p.nodes node) :
    ∃ d, toDistributedIn node time false points = .ok d ∧ fromDistributedIn node d time.boot false points = .ok time := by
  subst htime
  obtain ⟨before, after, hL⟩ := append_of_mem hp
  exact ⟨p.distributed, toDistributedIn_point h hL, fromDistributedIn_point h hL⟩

theorem roundTrip_last (h : Advancing points) (hL : points = before ++ [p]) (hboot : (p.nodes node).boot = time.boot)
    (hlt : (p.nodes node).time < time.time) :
    ∃ d, toDistributedIn node time false points = .ok d ∧ fromDistributedIn node d time.boot false points = .ok time := by
  have hnode : p.nodes node < time := by rw [lt_iff]; omega
  refine ⟨time.time - (p.nodes node).time + p.distributed, ?_⟩
  rcases eq_nil_or_concat before with rfl | ⟨before, f, rfl⟩
  · simp [hL, toDistributedIn, toDistributedAtFirst, hboot, fromDistributedIn, add_sub_cancel_right, sub_add_cancel]
  · have hfp := (hL ▸ h).le_of_append (q := f) (by simp)
    rw [concat_append] at hL
    rw [toDistributedIn_append before h hL false ((hfp.2 node).trans hnode).le (.inl rfl), toDistributedBetween,
      if_pos hnode, fromDistributedIn_append before h hL time.boot false (by omega) (fun _ => by omega) (.inl rfl),
      fromDistributedBetween, if_neg (by omega), if_pos (by omega), add, hboot, add_sub_cancel_right, add_sub_cancel]
    exact ⟨rfl, rfl⟩

theorem roundTrip_covered (h : Advancing points) (hchain : points.IsChain Advances) (hcovered : Covered points node time) :
    ∃ d, toDistributedIn node time false points = .ok d ∧ fromDistributedIn node d time.boot false points = .ok time := by
  rcases hcovered with ⟨before, p, q, after, hL, hp, hq, hpt, htq⟩ | ⟨p, hp, hboot, hle⟩ | ⟨p, hp, hboot, hle⟩
  · rcases hpt.lt_or_eq with hpt | hpt
    · rcases htq.lt_or_eq with htq | htq
      · have hadvances := (isChain_cons_cons.mp (isChain_append.mp (hL ▸ hchain)).2.1).1
        exact roundTrip_between h hL hadvances hp hq hpt htq
      · exact roundTrip_point h (by simp [hL]) (BootTimestamp.ext hq.symm htq)
    · exact roundTrip_point h (by simp [hL]) (BootTimestamp.ext hp.symm hpt.symm)
  · obtain ⟨rest, rfl⟩ := head?_eq_some_iff.mp hp
    rcases hle.lt_or_eq with hlt | heq
    · have hnode : time < p.nodes node := by rw [lt_iff]; omega
      refine ⟨time.time - (p.nodes node).time + p.distributed, ?_, ?_⟩
      · simp [toDistributedIn, hnode, toDistributedAtFirst, hboot]
      · simp only [fromDistributedIn, if_pos (show time.time - (p.nodes node).time + p.distributed < p.distributed by omega),
          Bool.false_eq_true, if_false, hboot, add_sub_cancel_right, sub_add_cancel]
    · exact roundTrip_point h mem_cons_self (BootTimestamp.ext hboot.symm heq)
  · rcases hle.lt_or_eq with hlt | heq
    · obtain ⟨before, hL⟩ := getLast?_eq_some_iff.mp hp
      exact roundTrip_last h hL hboot hlt
    · exact roundTrip_point h (mem_of_getLast? hp) (BootTimestamp.ext hboot.symm heq.symm)

end RoundTrip

/-! ### The converter -/

namespace Converter

variable {points : List (TimePoint n)} {c : Converter n}

private theorem toDistributedIn_ne_forgotten (node : Fin n) (time : BootTimestamp) (L : List (TimePoint n)) :
    toDistributedIn node time false L ≠ .error .forgotten := by
  rcases L with _ | ⟨p, _ | ⟨q, L⟩⟩ <;>
    simp only [toDistributedIn, toDistributedAtFirst, toDistributedBetween, interpolate, Bool.false_eq_true, if_false] <;>
    repeat' split
  all_goals simp

private theorem fromDistributedIn_ne_forgotten (node : Fin n) (time : Int) (bootCount : Nat) (L : List (TimePoint n)) :
    fromDistributedIn node time bootCount false L ≠ .error .forgotten := by
  rcases L with _ | ⟨p, _ | ⟨q, L⟩⟩ <;>
    simp only [fromDistributedIn, fromDistributedBetween, Bool.false_eq_true, if_false] <;> repeat' split
  all_goals simp

open Converter

section

variable (h : Holds points [] c) (hfirst : ∀ p ∈ points.head?, ∀ node, (p.nodes node).boot = 0) (hn : n ≠ 1) (hne : points ≠ [])

include h hfirst hn hne

theorem Holds.toDistributedClock {node : Fin n} {time : BootTimestamp} {d : Int}
    (hto : toDistributedIn node time false points = .ok d) :
    ∃ c', c.toDistributedClock node time = .ok (d, c') ∧ Holds points [] c' := by
  obtain ⟨c', hqueue⟩ := (h.exists_queueUntil (fun p => decide (p.nodes node < time)) hfirst).resolve_left
    fun hnil => hne hnil.2
  obtain ⟨h', -, -, hne', hstop⟩ := h.queueUntil hqueue
  have hpopped : c'.havePopped = false := by simpa using h'.slice.popped
  have hslice := (toDistributedIn_slice node time h'.slice hne' (by simpa using hstop)).resolve_left
    (hpopped ▸ toDistributedIn_ne_forgotten node time c'.times)
  rw [← h'.points_eq, hto] at hslice
  refine ⟨c', ?_, h'⟩
  simp [Converter.toDistributedClock, if_neg hn, hqueue, bind, Except.bind, hslice]

theorem Holds.fromDistributedClock {node : Fin n} {d : Int} {bootCount : Nat} {time : BootTimestamp}
    (hfrom : fromDistributedIn node d bootCount false points = .ok time) :
    ∃ c', c.fromDistributedClock node d bootCount = .ok (time, c') := by
  obtain ⟨c', hqueue⟩ := (h.exists_queueUntil (fun p => decide (p.distributed < d)) hfirst).resolve_left
    fun hnil => hne hnil.2
  obtain ⟨h', -, -, hne', hstop⟩ := h.queueUntil hqueue
  have hpopped : c'.havePopped = false := by simpa using h'.slice.popped
  have hslice : fromDistributedIn node d bootCount c'.havePopped c'.times = .ok time := by
    have hpoints := h'.points_eq
    cases htimes : c'.times with
    | nil => exact absurd htimes hne'
    | cons p L =>
      have hs := h'.slice
      rw [htimes] at hs hstop hpoints
      have hor := (fromDistributedIn_slice node bootCount hs (by simpa using hstop)).mpr (by simp [hpopped])
      have heq := hor.resolve_left (hpopped ▸ fromDistributedIn_ne_forgotten node d bootCount (p :: L))
      rw [heq, ← hpoints, hfrom]
  refine ⟨c', ?_⟩
  simp [Converter.fromDistributedClock, if_neg hn, hqueue, bind, Except.bind, hslice]

end

end Converter

private theorem boot_eq_zero (hn : n = 1) {points : List (TimePoint n)} (hchain : points.IsChain Advances)
    (hfirst : ∀ p ∈ points.head?, ∀ node, (p.nodes node).boot = 0) : ∀ p ∈ points, ∀ node, (p.nodes node).boot = 0 := by
  subst hn
  induction points with
  | nil => simp
  | cons p points ih =>
    have hp : ∀ node, (p.nodes node).boot = 0 := hfirst p rfl
    refine forall_mem_cons.mpr ⟨hp, ih hchain.tail fun r hr node => ?_⟩
    obtain ⟨rest, rfl⟩ := head?_eq_some_iff.mp hr
    obtain ⟨i, hi⟩ := (isChain_cons_cons.mp hchain).1.alive
    rw [Subsingleton.elim node i, ← hi]
    exact hp i

theorem Covered.exists_mem {points : List (TimePoint n)} {node : Fin n} {time : BootTimestamp}
    (h : Covered points node time) : ∃ p ∈ points, (p.nodes node).boot = time.boot := by
  rcases h with ⟨before, p, q, after, rfl, hp, -⟩ | ⟨p, hp, hboot, -⟩ | ⟨p, hp, hboot, -⟩
  · exact ⟨p, by simp, hp⟩
  · exact ⟨p, mem_of_mem_head? hp, hboot⟩
  · exact ⟨p, mem_of_getLast? hp, hboot⟩

/-- Every point after the first advances the distributed clock at least as much as every node that did not reboot. Where boots are
sequential, the times of a node convert to the distributed clock and back. -/
theorem distributed_round_trip (maxInvalidDistance buffer : Int) (solutions : List (Fin n → BootTimestamp))
    {points : List (TimePoint n)} (hemits : Estimator.Emits (.start n maxInvalidDistance) solutions points)
    (hrange : ∀ r ∈ solutions, ∀ i, .minTime ≤ r i) :
    (points.IsChain fun p q => ∀ i, (p.nodes i).boot = (q.nodes i).boot →
        (p.nodes i).time < (q.nodes i).time ∧
          (q.nodes i).time - (p.nodes i).time ≤ q.distributed - p.distributed) ∧
      ((∀ p ∈ points.head?, ∀ i, (p.nodes i).boot = 0) →
        (∀ i, points.Pairwise fun p q => (p.nodes i).boot ≤ (q.nodes i).boot) →
        ∀ node time, Covered points node time →
          ∃ d c c', (Converter.start buffer points).toDistributedClock node time = .ok (d, c) ∧
            c.fromDistributedClock node d time.boot = .ok (time, c')) := by
  have hchain := hemits.start_isChain hrange
  refine ⟨hchain.imp fun _ _ h => h.nodes, fun hfirst hboots node time hcovered => ?_⟩
  obtain ⟨p, hp, hboot⟩ := hcovered.exists_mem
  by_cases hn : n = 1
  · have hzero := boot_eq_zero hn hchain hfirst p hp node
    refine ⟨time.time, _, .start buffer points, by rw [Converter.toDistributedClock, if_pos hn], ?_⟩
    rw [Converter.fromDistributedClock, if_pos hn]
    have : BootTimestamp.epoch.add time.time = time :=
      BootTimestamp.ext (hzero.symm.trans hboot) (zero_add time.time)
    rw [this]
  · have hadvancing := advancing_of_isChain hchain hboots
    obtain ⟨d, hto, hfrom⟩ := roundTrip_covered hadvancing hchain hcovered
    have hne := ne_nil_of_mem hp
    obtain ⟨c, hc, h⟩ := (Converter.Holds.start hadvancing buffer).toDistributedClock hfirst hn hne hto
    obtain ⟨c', hc'⟩ := h.fromDistributedClock hfirst hn hne hfrom
    exact ⟨d, c, c', hc, hc'⟩

/-- Two nodes whose clocks run at different rates. -/
theorem distributed_round_trip_two_rates :
    ∃ d c c', (Converter.start 0 [⟨0, ![⟨0, 0⟩, ⟨0, 0⟩]⟩, ⟨10, ![⟨0, 10⟩, ⟨0, 7⟩]⟩]).toDistributedClock 1 ⟨0, 3⟩ = .ok (d, c) ∧
      c.fromDistributedClock 1 d 0 = .ok (⟨0, 3⟩, c') := by
  have hemits : Estimator.Emits (.start 2 0) [![⟨0, 0⟩, ⟨0, 0⟩], ![⟨0, 10⟩, ⟨0, 7⟩]]
      [⟨0, ![⟨0, 0⟩, ⟨0, 0⟩]⟩, ⟨10, ![⟨0, 10⟩, ⟨0, 7⟩]⟩] :=
    .next _ ⟨0, ![⟨0, 0⟩, ⟨0, 0⟩], false, 0⟩ [![⟨0, 10⟩, ⟨0, 7⟩]] (by decide +kernel)
      (.next _ ⟨10, ![⟨0, 10⟩, ⟨0, 7⟩], false, 0⟩ [] (by decide +kernel) .done)
  exact (distributed_round_trip 0 0 _ hemits (by decide)).2 (by decide) (by decide) 1 ⟨0, 3⟩
    (.inl ⟨[], _, _, [], rfl, by decide⟩)

def Strays (solutions : List (Fin n → BootTimestamp)) (node : Fin n) (time : BootTimestamp) : Prop :=
  ∃ points, Estimator.Emits (.start n 0) solutions points ∧ (∀ r ∈ solutions, ∀ i, .minTime ≤ r i) ∧
    Covered points node time ∧
    ¬ ∃ d c c', (Converter.start 0 points).toDistributedClock node time = .ok (d, c) ∧
      c.fromDistributedClock node d time.boot = .ok (time, c')

/-- A node goes back to an earlier boot, or its first boot is not the boot zero. -/
theorem round_trip_strays :
    Strays [![⟨0, 0⟩, ⟨0, 0⟩], ![⟨1, 0⟩, ⟨0, 10⟩], ![⟨0, 5⟩, ⟨0, 20⟩], ![⟨0, 15⟩, ⟨0, 30⟩]] 0 ⟨0, 12⟩ ∧
      Strays [![⟨1, 5⟩, ⟨0, 0⟩]] 0 ⟨1, 5⟩ := by
  constructor
  · refine ⟨[⟨0, ![⟨0, 0⟩, ⟨0, 0⟩]⟩, ⟨10, ![⟨1, 0⟩, ⟨0, 10⟩]⟩, ⟨20, ![⟨0, 5⟩, ⟨0, 20⟩]⟩, ⟨30, ![⟨0, 15⟩, ⟨0, 30⟩]⟩],
      ?_, by decide, .inl ⟨[⟨0, ![⟨0, 0⟩, ⟨0, 0⟩]⟩, ⟨10, ![⟨1, 0⟩, ⟨0, 10⟩]⟩], _, _, [], rfl, by decide⟩, ?_⟩
    · exact .next _ ⟨0, ![⟨0, 0⟩, ⟨0, 0⟩], false, 0⟩
          [![⟨1, 0⟩, ⟨0, 10⟩], ![⟨0, 5⟩, ⟨0, 20⟩], ![⟨0, 15⟩, ⟨0, 30⟩]] (by decide +kernel)
        (.next _ ⟨10, ![⟨1, 0⟩, ⟨0, 10⟩], false, 0⟩ [![⟨0, 5⟩, ⟨0, 20⟩], ![⟨0, 15⟩, ⟨0, 30⟩]] (by decide +kernel)
        (.next _ ⟨20, ![⟨0, 5⟩, ⟨0, 20⟩], false, 0⟩ [![⟨0, 15⟩, ⟨0, 30⟩]] (by decide +kernel)
        (.next _ ⟨30, ![⟨0, 15⟩, ⟨0, 30⟩], false, 0⟩ [] (by decide +kernel) .done)))
    · rintro ⟨d, c, c', hto, hfrom⟩
      have hback : ((Converter.start 0 [⟨0, ![⟨0, 0⟩, ⟨0, 0⟩]⟩, ⟨10, ![⟨1, 0⟩, ⟨0, 10⟩]⟩, ⟨20, ![⟨0, 5⟩, ⟨0, 20⟩]⟩,
          ⟨30, ![⟨0, 15⟩, ⟨0, 30⟩]⟩]).toDistributedClock 0 ⟨0, 12⟩ >>= fun r =>
            r.2.fromDistributedClock 0 r.1 0).toOption.any (fun r => decide (r.1 = ⟨1, 2⟩)) = true := by decide +kernel
      simp [hto, hfrom, bind, Except.bind, Except.toOption] at hback
  · refine ⟨[⟨0, ![⟨1, 5⟩, ⟨0, 0⟩]⟩], ?_, by decide, .inr (.inl ⟨_, rfl, by decide⟩), ?_⟩
    · exact .next _ ⟨0, ![⟨1, 5⟩, ⟨0, 0⟩], false, 0⟩ [] (by decide +kernel) .done
    · rintro ⟨d, c, c', hto, -⟩
      have habort : (Converter.start 0 [⟨0, ![⟨1, 5⟩, ⟨0, 0⟩]⟩]).toDistributedClock 0 ⟨1, 5⟩ = .error .firstBoot := by
        decide +kernel
      rw [habort] at hto
      cases hto

end RobotCode.Network
