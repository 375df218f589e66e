import RobotCode.Lib.Rounding
import RobotCode.Network.OrderIndependence
import RobotCode.Network.Slopes

/-!
# The time on the other node

Adding the offset to a time gives the time on the other node at that moment. The line never falls faster than one
part in a thousand, so neither rounding the interpolated offsets nor passing from one segment to the next makes that
time run backwards.
-/

namespace RobotCode.Network

open Rounding List SingleFilter

/-! ### Samples only -/

namespace SingleFilter

variable {f f' : SingleFilter} {x : Point}

theorem exists_backPropagate {L : List Point} (hL : ∀ p ∈ L.dropLast, ¬ f.Frozen p.time) :
    ∃ kept, f.backPropagate x L = .ok kept := by
  induction L with
  | nil => exact ⟨[], rfl⟩
  | cons back rest ih =>
    cases rest with
    | nil => exact ⟨[back], rfl⟩
    | cons before rest =>
      rw [dropLast_cons_cons] at hL
      rw [backPropagate]
      split
      · rw [if_neg (hL back mem_cons_self)]
        exact ih fun p hp => hL p (mem_cons_of_mem back hp)
      · exact ⟨_, rfl⟩

theorem exists_propagate {before : List Point} (after : List Point) (hbefore : ∀ p ∈ before.dropLast, ¬ f.Frozen p.time) :
    ∃ kept, f.propagate x before after = .ok kept := by
  -- what is removed in front of `x` has something before it, so it is not the last of `before`
  have hprior : ∀ {prior before}, (∀ p ∈ (prior :: before : List Point).dropLast, ¬ f.Frozen p.time) → before ≠ [] →
      ¬ f.Frozen prior.time ∧ ∀ p ∈ before.dropLast, ¬ f.Frozen p.time := by
    intro prior before hdrop hne
    rw [dropLast_cons_of_ne_nil hne] at hdrop
    exact ⟨hdrop prior mem_cons_self, fun p hp => hdrop p (mem_cons_of_mem prior hp)⟩
  fun_induction propagate f x before after with
  | case2 _ _ _ _ _ ih => exact ih hbefore
  | case3 _ _ _ _ _ hpositive hfrozen | case6 _ _ hpositive hfrozen =>
    exact absurd hfrozen (hprior hbefore hpositive.1).1
  | case4 _ _ _ _ _ hpositive _ ih | case7 _ _ hpositive _ ih => exact ih (hprior hbefore hpositive.1).2
  | _ => exact ⟨_, rfl⟩

theorem exists_sample (htail : ∀ p ∈ f.timestamps.tail, ¬ f.Frozen p.time) (hfully : f.fullyFrozen = false)
    (hx : ¬ f.Frozen x.time) : ∃ f', f.sample x = .ok f' := by
  rw [sample]
  cases hback : f.timestamps.getLast? with
  | none => simp [hfully]
  | some back =>
    simp only [hx, if_false]
    split
    · exact ⟨f, rfl⟩
    split
    · split
      · exact ⟨f, rfl⟩
      · obtain ⟨kept, hkept⟩ := exists_backPropagate (f := f) (x := x) (L := f.timestamps.reverse) fun p hp =>
          htail p (by rwa [dropLast_reverse, mem_reverse] at hp)
        simp [hfully, hkept, bind, Except.bind]
    · rename_i hdt
      have htake : ∀ p ∈ (f.timestamps.takeWhile (·.time < x.time)).reverse.dropLast, ¬ f.Frozen p.time := by
        intro p hp
        rw [dropLast_reverse, mem_reverse] at hp
        exact htail p ((takeWhile_sublist _).tail.mem hp)
      cases hdrop : f.timestamps.dropWhile (·.time < x.time) with
      | nil =>
        have hlt := dropWhile_eq_nil_iff.mp hdrop back (mem_of_getLast? hback)
        simp only [decide_eq_true_eq] at hlt
        omega
      | cons next after =>
        have hhead := head?_dropWhile_not (fun p : Point => decide (p.time < x.time)) f.timestamps
        have hle : x.time ≤ next.time := by simpa [hdrop] using hhead
        have hnext : ¬ f.Frozen next.time := fun hfrozen => hx (hfrozen.mono hle)
        cases htaken : (f.timestamps.takeWhile (·.time < x.time)).reverse with
        | nil =>
          simp only [insert, hnext, if_false]
          split <;> exact ⟨_, rfl⟩
        | cons prior before =>
          rw [htaken] at htake
          obtain ⟨kept, hkept⟩ := exists_propagate (x := x) (next :: after) htake
          simp only [insert, hnext, if_false, hkept, bind, Except.bind]
          split
          · exact ⟨_, rfl⟩
          · split <;> exact ⟨_, rfl⟩

structure SampledOnly (f : SingleFilter) : Prop where
  frozenTime : f.frozenTime = none
  fullyFrozen : f.fullyFrozen = false
  hasPopped : f.hasPopped = false
  ordered : Ordered f.timestamps
  slopes : Sloped f.timestamps

theorem SampledOnly.initial : SampledOnly initial := ⟨rfl, rfl, rfl, List.Pairwise.nil, isChain_nil, isChain_nil⟩

theorem SampledOnly.sample (h : SampledOnly f) (x : Point) :
    ∃ f', f.sample x = .ok f' ∧ SampledOnly f' ∧ f'.timestamps ≠ [] := by
  have hfrozen := not_frozen_of_none h.frozenTime
  obtain ⟨f', hsample⟩ := exists_sample (fun p _ => hfrozen p.time) h.fullyFrozen (hfrozen x.time)
  have hsampled := sampled_of_sample h.ordered hsample
  refine ⟨f', hsample, ⟨?_, ?_, ?_, hsampled.ordered h.ordered, (sample_sloped h.slopes hsample).1⟩, ?_⟩
  · cases hsampled <;> exact h.frozenTime
  · cases hsampled <;> exact h.fullyFrozen
  · cases hsampled <;> exact h.hasPopped
  · cases hsampled with
    | ignored =>
      -- the first sample is never ignored
      intro hempty
      simp only [SingleFilter.sample, hempty, getLast?_nil, h.fullyFrozen] at hsample
      have hone := congrArg timestamps (Except.ok.inj hsample)
      simp [hempty] at hone
    | first | inserted => simp

theorem SampledOnly.sampleAll (h : SampledOnly f) (samples : List Point) :
    ∃ f', f.sampleAll samples = .ok f' ∧ SampledOnly f' ∧
      (f.timestamps ≠ [] ∨ samples ≠ [] → f'.timestamps ≠ []) := by
  induction samples generalizing f with
  | nil => exact ⟨f, rfl, h, fun hne => hne.resolve_right (by simp)⟩
  | cons x samples ih =>
    obtain ⟨f1, hsample, h1, hne1⟩ := h.sample x
    obtain ⟨f', hall, h', hne'⟩ := ih h1
    refine ⟨f', ?_, h', fun _ => hne' (.inl hne1)⟩
    rw [sampleAll, foldlM_cons, hsample]
    exact hall

theorem points_ne_nil (h : f.timestamps ≠ []) : f.points ≠ [] := by
  obtain ⟨p, hp⟩ := exists_mem_of_ne_nil _ h
  obtain ⟨q, hq, -⟩ := exists_mem_points hp
  exact ne_nil_of_mem hq

end SingleFilter

def exactSegment (p q : Point) (t : Int) : ℚ :=
  p.offset + (q.offset - p.offset) / (q.time - p.time) * (t - p.time)

/-- `o` is one of the integers nearest to the line through two points. -/
def Near (p q : Point) (t o : Int) : Prop :=
  -(q.time - p.time) ≤ 2 * ((o - p.offset) * (q.time - p.time) - (t - p.time) * (q.offset - p.offset)) ∧
    2 * ((o - p.offset) * (q.time - p.time) - (t - p.time) * (q.offset - p.offset)) ≤ q.time - p.time

section Segment

variable {p q : Point} {t t' o o' : Int}

theorem near_interpolateOffset (h : p.time < q.time) (t : Int) : Near p q t (interpolateOffset p q t) := by
  have hround := roundDiv_near ((t - p.time) * (q.offset - p.offset)) (show 0 < q.time - p.time by omega)
  have heq : interpolateOffset p q t - p.offset =
      roundDiv ((t - p.time) * (q.offset - p.offset)) (q.time - p.time) := by
    simp only [interpolateOffset, roundDiv]
    omega
  rw [Near, heq]
  exact hround

theorem near_left (h : p.time ≤ q.time) : Near p q p.time p.offset := by
  simp only [Near, sub_self, zero_mul]
  omega

theorem near_right (h : p.time ≤ q.time) : Near p q q.time q.offset := by
  rw [Near, mul_comm (q.offset - p.offset)]
  omega

/-- Along a segment that does not fall too fast the other node's time does not run backwards: half a nanosecond of rounding on
either side is less than what has passed. -/
theorem Near.le (hfall : NoFall p q) (h : p.time < q.time) (ht : t < t') (ho : Near p q t o) (ho' : Near p q t' o') :
    t + o ≤ t' + o' := by
  obtain ⟨-, hfall⟩ := hfall
  obtain ⟨-, hle⟩ := ho
  obtain ⟨hge, -⟩ := ho'
  rw [SlopeTooNegative, not_lt] at hfall
  have hdt : 0 < q.time - p.time := by omega
  generalize q.time - p.time = dt at *
  generalize q.offset - p.offset = doffset at *
  by_contra hlt
  -- over `t' - t` the line falls by a thousandth of that at most
  have hline : -((t' - t) * dt) ≤ 1000 * ((t' - t) * doffset) := by nlinarith
  have hdrop : (t' - t + 1) * dt ≤ (o - o') * dt := by
    refine mul_le_mul_of_nonneg_right ?_ hdt.le
    omega
  have hwide : dt ≤ (t' - t) * dt := by nlinarith
  nlinarith

theorem Near.dist_le (h : p.time < q.time) (ho : Near p q t o) : |(o : ℚ) - exactSegment p q t| ≤ 1 / 2 := by
  obtain ⟨hge, hle⟩ := ho
  have hdt : (0 : ℚ) < q.time - p.time := by
    have : (p.time : ℚ) < q.time := by exact_mod_cast h
    linarith
  have hge' : -((q.time : ℚ) - p.time) ≤
      2 * ((o - p.offset) * (q.time - p.time) - (t - p.time) * (q.offset - p.offset)) := by exact_mod_cast hge
  have hle' : 2 * (((o : ℚ) - p.offset) * (q.time - p.time) - (t - p.time) * (q.offset - p.offset)) ≤
      q.time - p.time := by exact_mod_cast hle
  have hsegment : (o : ℚ) - exactSegment p q t =
      ((o - p.offset) * (q.time - p.time) - (t - p.time) * (q.offset - p.offset)) / (q.time - p.time) := by
    rw [exactSegment]
    field_simp
    ring
  rw [hsegment, abs_div, abs_of_pos hdt, div_le_iff₀ hdt, abs_le]
  constructor <;> linarith

end Segment

theorem extrapolateOffset_before_le {p : Point} {t t' : Int} (hle : t ≤ t') (h : t' ≤ p.time) :
    t + extrapolateOffset p t ≤ t' + extrapolateOffset p t' := by
  have hdiv := Int.tdiv_le_tdiv (c := 1000) (by decide) (show t - p.time ≤ t' - p.time by omega)
  simp only [extrapolateOffset, if_pos (show t - p.time ≤ 0 by omega), if_pos (show t' - p.time ≤ 0 by omega)]
  omega

theorem extrapolateOffset_of_le {p : Point} {t : Int} (h : p.time ≤ t) :
    extrapolateOffset p t = p.offset - (t - p.time) / 1000 := by
  rw [extrapolateOffset, Int.tdiv_eq_ediv_of_nonneg (by omega)]
  split <;> omega

/-! ### The whole line -/

section Line

variable {p q : Point} {L C R : List Point} {t t' o o' : Int}

theorem exists_lineOffset (h : Ordered (p :: L)) (t : Int) : ∃ o, lineOffset t (p :: L) = .ok o := by
  induction L generalizing p with
  | nil => exact ⟨_, lineOffset_singleton p t⟩
  | cons q L ih =>
    rw [lineOffset_cons_cons h]
    split
    · exact ⟨_, rfl⟩
    split
    · exact ⟨_, rfl⟩
    · exact ih h.tail

theorem lineOffset_drop (h : Ordered (C ++ p :: R)) (ht : p.time ≤ t) :
    lineOffset t (C ++ p :: R) = lineOffset t (p :: R) := by
  induction C with
  | nil => rfl
  | cons c C ih =>
    rw [← ih h.tail]
    have hle : ∀ a ∈ c :: C, a.time ≤ t := by
      intro a ha
      rcases (pairwise_append.mp h).2.2 a ha p mem_cons_self with hlt | rfl
      · exact hlt.le.trans ht
      · exact ht
    have hc := hle c mem_cons_self
    cases C with
    | nil =>
      rw [singleton_append, lineOffset_cons_cons h, if_neg (by omega), if_neg (by omega)]
      rfl
    | cons c' C =>
      have hc' := hle c' (mem_cons_of_mem c mem_cons_self)
      rw [cons_append, cons_append] at h ⊢
      rw [lineOffset_cons_cons h, if_neg (by omega), if_neg (by omega)]

theorem lineOffset_at (h : Ordered (C ++ p :: R)) : lineOffset p.time (C ++ p :: R) = .ok p.offset := by
  rw [lineOffset_drop h le_rfl, lineOffset_cons_of_le (h.sublist (sublist_append_right C _)) le_rfl,
    extrapolateOffset_self]

theorem near_lineOffset (h : Ordered (C ++ p :: q :: R)) (hp : p.time ≤ t) (hq : t ≤ q.time)
    (ho : lineOffset t (C ++ p :: q :: R) = .ok o) : Near p q t o := by
  have hordered : Ordered (p :: q :: R) := h.sublist (sublist_append_right C _)
  rw [lineOffset_drop h hp, lineOffset_cons_cons hordered, if_neg (by omega)] at ho
  rcases hq.lt_or_eq with hlt | rfl
  · rw [if_pos hlt] at ho
    cases ho
    exact near_interpolateOffset (by omega) t
  · rw [if_neg (lt_irrefl _), lineOffset_cons_of_le hordered.tail le_rfl, extrapolateOffset_self] at ho
    cases ho
    exact near_right hp

theorem first_le_lineOffset (h : Ordered (p :: L)) (hfall : (p :: L).IsChain NoFall) (ht : p.time ≤ t)
    (ho : lineOffset t (p :: L) = .ok o) : p.time + p.offset ≤ t + o := by
  induction L generalizing p with
  | nil =>
    rw [lineOffset_singleton, extrapolateOffset_of_le ht] at ho
    cases ho
    omega
  | cons q L ih =>
    obtain ⟨hpq, hfall'⟩ := isChain_cons_cons.mp hfall
    rcases le_or_gt q.time t with hq | hq
    · have hfirst : p.time + p.offset ≤ q.time + q.offset := by
        obtain ⟨hle, hslope⟩ := hpq
        rw [SlopeTooNegative] at hslope
        omega
      rw [lineOffset_cons_cons h, if_neg (by omega), if_neg (by omega)] at ho
      exact hfirst.trans (ih h.tail hfall' hq ho)
    · have hnear := near_lineOffset (C := []) h ht hq.le ho
      rcases ht.lt_or_eq with hlt | rfl
      · exact (near_left hpq.1).le hpq (by omega) hlt hnear
      · rw [lineOffset_cons_of_le h le_rfl, extrapolateOffset_self] at ho
        cases ho
        exact le_rfl

theorem lineOffset_monotone (h : Ordered (p :: L)) (hfall : (p :: L).IsChain NoFall) (ht : t ≤ t')
    (ho : lineOffset t (p :: L) = .ok o) (ho' : lineOffset t' (p :: L) = .ok o') : t + o ≤ t' + o' := by
  -- before the first point
  have hbefore : ∀ {p L o o'}, Ordered (p :: L) → (p :: L).IsChain NoFall → t < p.time →
      lineOffset t (p :: L) = .ok o → lineOffset t' (p :: L) = .ok o' → t + o ≤ t' + o' := by
    intro p L o o' h hfall htp ho ho'
    rw [lineOffset_cons_of_le h htp.le] at ho
    cases ho
    rcases le_or_gt t' p.time with ht' | ht'
    · rw [lineOffset_cons_of_le h ht'] at ho'
      cases ho'
      exact extrapolateOffset_before_le ht ht'
    · have hup := extrapolateOffset_before_le htp.le (le_refl p.time)
      rw [extrapolateOffset_self] at hup
      exact hup.trans (first_le_lineOffset h hfall ht'.le ho')
  induction L generalizing p with
  | nil =>
    rcases lt_or_ge t p.time with htp | htp
    · exact hbefore h hfall htp ho ho'
    · rw [lineOffset_singleton, extrapolateOffset_of_le (by omega)] at ho ho'
      cases ho
      cases ho'
      omega
  | cons q L ih =>
    obtain ⟨hpq, hfall'⟩ := isChain_cons_cons.mp hfall
    rcases lt_or_ge t p.time with htp | htp
    · exact hbefore h hfall htp ho ho'
    rcases lt_or_ge t q.time with htq | htq
    · -- the first time is on the first segment, the second one there or behind it
      have hnear := near_lineOffset (C := []) h htp htq.le ho
      rcases le_or_gt t' q.time with htq' | htq'
      · rcases ht.lt_or_eq with hlt | rfl
        · exact hnear.le hpq (by omega) hlt (near_lineOffset (C := []) h (by omega) htq' ho')
        · obtain rfl := Except.ok.inj (ho.symm.trans ho')
          exact le_rfl
      · have hend := hnear.le hpq (by omega) htq (near_right hpq.1)
        rw [lineOffset_cons_cons h, if_neg (by omega), if_neg (by omega)] at ho'
        exact hend.trans (first_le_lineOffset h.tail hfall' htq'.le ho')
    · rw [lineOffset_cons_cons h, if_neg (by omega), if_neg (by omega)] at ho ho'
      exact ih h.tail hfall' ho ho'

end Line

theorem exists_split_of_timestamp {f : SingleFilter} {i : Nat} {p : Point} (h : f.timestamp i = .ok p) :
    ∃ C R, f.points = C ++ p :: R ∧ C.length = i := by
  obtain ⟨hi, hp⟩ := List.getElem?_eq_some_iff.mp (getElem?_of_timestamp h)
  refine ⟨f.points.take i, f.points.drop (i + 1), ?_, by simp; omega⟩
  rw [← hp, getElem_cons_drop, take_append_drop]

/-- After any samples the other node's time never runs backwards. The offset is that of the point at each point of the line, and
within half a nanosecond of the line between two. -/
theorem remote_time_monotone (samples : List Point) :
    ∃ f, initial.sampleAll samples = .ok f ∧
      (samples ≠ [] → ∀ t, ∃ o, f.offset t = .ok o) ∧
      (∀ ta tb oa ob, ta ≤ tb → f.offset ta = .ok oa → f.offset tb = .ok ob → ta + oa ≤ tb + ob) ∧
      (∀ i p, f.timestamp i = .ok p → f.offset p.time = .ok p.offset) ∧
      ∀ i p q t o, f.timestamp i = .ok p → f.timestamp (i + 1) = .ok q → p.time ≤ t → t ≤ q.time →
        f.offset t = .ok o → |(o : ℚ) - exactSegment p q t| ≤ 1 / 2 := by
  obtain ⟨f, hall, h, hne⟩ := SingleFilter.SampledOnly.initial.sampleAll samples
  have hordered : Ordered f.points := ordered_points h.ordered
  have hfall : f.points.IsChain NoFall := (h.slopes.points h.hasPopped).imp fun _ _ hslopes => hslopes.1
  refine ⟨f, hall, ?_, ?_, ?_, ?_⟩
  · intro hsamples t
    obtain ⟨p, L, hpoints⟩ := exists_cons_of_ne_nil (points_ne_nil (hne (.inr hsamples)))
    rw [offset, hpoints]
    exact exists_lineOffset (hpoints ▸ hordered) t
  · intro ta tb oa ob hle hoa hob
    rw [offset] at hoa hob
    cases hpoints : f.points with
    | nil =>
      rw [hpoints] at hoa
      cases hoa
    | cons p L =>
      rw [hpoints] at hordered hfall hoa hob
      exact lineOffset_monotone hordered hfall hle hoa hob
  · intro i p hp
    obtain ⟨C, R, hpoints, -⟩ := exists_split_of_timestamp hp
    rw [offset, hpoints]
    exact lineOffset_at (hpoints ▸ hordered)
  · intro i p q t o hp hq hpt htq ho
    obtain ⟨C, R, hpoints, hi⟩ := exists_split_of_timestamp hp
    have hnext : R.head? = some q := by
      have hget := getElem?_of_timestamp hq
      rw [hpoints, ← hi, getElem?_append_right (by omega)] at hget
      simpa [head?_eq_getElem?] using hget
    obtain ⟨R', rfl⟩ := head?_eq_some_iff.mp hnext
    rw [offset, hpoints] at ho
    rw [hpoints] at hordered
    rcases hpt.lt_or_eq with hlt | rfl
    · exact (near_lineOffset hordered hpt htq ho).dist_le (by omega)
    · obtain rfl := Except.ok.inj ((lineOffset_at hordered).symm.trans ho)
      simp [exactSegment]

end RobotCode.Network
