import RobotCode.Network.RemoteTime

/-!
# No sample is above the line

The line is meant to be through the highest samples. A sample is left out only because it is below the cone of one
that is kept, and cones that start below a cone stay below it, so what has been left out stays below the line however
often the timestamps that were better are themselves replaced.
-/

namespace RobotCode.Network

open List

/-- `s` is not above the cone of `p`. -/
def Point.Under (s p : Point) : Prop := 1000 * s.offset + |s.time - p.time| ≤ 1000 * p.offset

theorem Point.Under.refl (p : Point) : p.Under p := by simp [Point.Under]

variable {p s q : Point} {L : List Point}

theorem Point.Under.trans (h : s.Under p) (h' : p.Under q) : s.Under q := by
  have := abs_sub_le s.time p.time q.time
  unfold Point.Under at *
  omega

theorem Point.Below.under (h : s.Below p) : s.Under p := le_of_lt h

/-- `s` is not above the cone of one of the timestamps. -/
def Covers (L : List Point) (s : Point) : Prop := ∃ p ∈ L, s.Under p

theorem covers_of_mem (h : s ∈ L) : Covers L s := ⟨s, h, .refl s⟩

theorem Covers.trans {L' : List Point} (h : Covers L s) (h' : ∀ p ∈ L, Covers L' p) : Covers L' s := by
  obtain ⟨p, hp, hs⟩ := h
  obtain ⟨q, hq, hpq⟩ := h' p hp
  exact ⟨q, hq, hs.trans hpq⟩

theorem Covers.mono {L' : List Point} (h : Covers L s) (hsub : L ⊆ L') : Covers L' s :=
  h.trans fun _ hp => covers_of_mem (hsub hp)

theorem covers_cons (hq : q ∈ L) (hs : s.Under q) : ∀ p ∈ s :: L, Covers L p :=
  forall_mem_cons.mpr ⟨⟨q, hq, hs⟩, fun _ => covers_of_mem⟩

theorem covers_middle {A B : List Point} (x : Point) : ∀ p ∈ A ++ B, Covers (A ++ x :: B) p := fun _ hp =>
  covers_of_mem (mem_append.mpr ((mem_append.mp hp).imp_right (mem_cons_of_mem x)))

/-! ### One sample -/

namespace SingleFilter

variable {f f' : SingleFilter} {x : Point}

theorem backPropagate_covers {L kept : List Point} (hle : ∀ p ∈ L, p.time ≤ x.time)
    (h : f.backPropagate x L = .ok kept) : ∀ p ∈ L, Covers (x :: kept) p := by
  fun_induction backPropagate f x L with
  | case1 => cases h
  | case3 | case4 =>
    cases h
    exact fun p hp => covers_of_mem (mem_cons_of_mem x hp)
  | case2 back before rest hpositive hfrozen ih =>
    have hback := (slopeTooPositive_iff (hle back mem_cons_self)).mp hpositive
    exact forall_mem_cons.mpr ⟨⟨x, mem_cons_self, hback.under⟩, ih (fun q hq => hle q (mem_cons_of_mem back hq)) h⟩

theorem removeSecond_covers {L : List Point} (hordered : Ordered L) (hle : ∀ p ∈ L, x.time ≤ p.time) :
    ∀ p ∈ L, Covers (x :: removeSecond x L) p := by
  fun_induction removeSecond x L with
  | case1 => simp
  | case2 second hnegative =>
    intro p hp
    obtain rfl := mem_singleton.mp hp
    exact ⟨x, mem_cons_self, ((slopeTooNegative_iff (hle p hp)).mp hnegative).under⟩
  | case3 | case6 => exact fun p hp => covers_of_mem (mem_cons_of_mem x hp)
  | case4 second third rest hnegative ih =>
    have hsecond := (slopeTooNegative_iff (hle second mem_cons_self)).mp hnegative
    exact forall_mem_cons.mpr ⟨⟨x, mem_cons_self, hsecond.under⟩,
      ih hordered.tail fun q hq => hle q (mem_cons_of_mem second hq)⟩
  | case5 second third rest hnegative hpositive ih =>
    have hrest := ih hordered.tail fun q hq => hle q (mem_cons_of_mem second hq)
    have hbelow := (slopeTooPositive_iff (hordered.le mem_cons_self)).mp hpositive
    obtain ⟨q, hq, hthird⟩ := hrest third mem_cons_self
    exact forall_mem_cons.mpr ⟨⟨q, hq, hbelow.under.trans hthird⟩, hrest⟩

theorem propagate_covers {before after before' after' : List Point} (hbefore : ∀ p ∈ before, p.time ≤ x.time)
    (hafter : ∀ p ∈ after, x.time ≤ p.time) (h : f.propagate x before after = .ok (before', after')) :
    ∀ p ∈ before ++ after, Covers (before' ++ x :: after') p := by
  fun_induction propagate f x before after with
  | case1 | case5 | case8 =>
    cases h
    exact covers_middle x
  | case2 prior before next after hnegative ih =>
    have hrest := ih hbefore (fun q hq => hafter q (mem_cons_of_mem next hq)) h
    have hnext := (slopeTooNegative_iff (hafter next mem_cons_self)).mp hnegative
    rw [forall_mem_append] at hrest ⊢
    exact ⟨hrest.1, forall_mem_cons.mpr ⟨⟨x, by simp, hnext.under⟩, hrest.2⟩⟩
  | case3 | case6 => cases h
  | case4 prior before next after hnegative hpositive hfrozen ih | case7 prior before hpositive hfrozen ih =>
    have hprior := (slopeTooPositive_iff (hbefore prior mem_cons_self)).mp hpositive.2
    exact forall_mem_cons.mpr ⟨⟨x, by simp, hprior.under⟩,
      ih (fun q hq => hbefore q (mem_cons_of_mem prior hq)) hafter h⟩

theorem insert_covers {before after : List Point} (hts : f.timestamps = before.reverse ++ after)
    (hordered : Ordered f.timestamps) (hbefore : ∀ p ∈ before, p.time ≤ x.time) (hafter : ∀ p ∈ after, x.time ≤ p.time)
    (h : f.insert x before after = .ok f') : ∀ p ∈ x :: f.timestamps, Covers f'.timestamps p := by
  -- it is enough to cover the new timestamp when it is ignored
  have hignored : ∀ {q}, q ∈ f.timestamps → x.Under q → f' = f → ∀ p ∈ x :: f.timestamps, Covers f'.timestamps p := by
    intro q hq hx hsame
    rw [hsame]
    exact covers_cons hq hx
  cases after with
  | nil => cases before <;> cases h
  | cons next after =>
    have hnext : next ∈ f.timestamps := by simp [hts]
    cases before with
    | nil =>
      rw [insert] at h
      split at h
      · cases h
      split at h
      · rename_i hsame
        refine hignored hnext ?_ (Except.ok.inj h).symm
        rw [Point.Under, abs_of_nonneg] <;> omega
      · cases h
        rw [reverse_nil, nil_append] at hts
        rw [hts] at hordered ⊢
        exact forall_mem_cons.mpr ⟨covers_of_mem mem_cons_self, removeSecond_covers hordered hafter⟩
    | cons prior before =>
      have hprior : prior ∈ f.timestamps := by simp [hts]
      rw [insert] at h
      split at h
      · cases h
      split at h
      · rename_i hnegative
        refine hignored hprior ?_ (Except.ok.inj h).symm
        exact ((slopeTooNegative_iff (hbefore prior mem_cons_self)).mp hnegative).under
      split at h
      · rename_i hpositive
        refine hignored hnext ?_ (Except.ok.inj h).symm
        exact ((slopeTooPositive_iff (hafter next mem_cons_self)).mp hpositive).under
      · obtain ⟨⟨before', after'⟩, hpropagate, heq⟩ := Fallible.bind_eq_ok.mp h
        cases heq
        refine forall_mem_cons.mpr ⟨covers_of_mem (by simp), fun p hp => ?_⟩
        have hmem : p ∈ (prior :: before) ++ (next :: after) := by
          rwa [hts, mem_append, mem_reverse, ← mem_append] at hp
        refine (propagate_covers hbefore hafter hpropagate p hmem).mono fun q hq => ?_
        simpa using hq

theorem sample_covers (hordered : Ordered f.timestamps) (h : f.sample x = .ok f') :
    ∀ p ∈ x :: f.timestamps, Covers f'.timestamps p := by
  unfold sample at h
  split at h
  · rename_i hnone
    have hempty : f.timestamps = [] := by simpa using hnone
    split at h
    · cases h
    · cases h
      rw [hempty]
      exact fun p hp => covers_of_mem hp
  · rename_i back hlast
    have hback : back ∈ f.timestamps := mem_of_getLast? hlast
    simp only [] at h
    split at h
    · cases h
    split at h
    · rename_i hsame
      cases h
      refine covers_cons hback ?_
      rw [Point.Under, hsame.1, abs_zero]
      omega
    split at h
    · rename_i hdt
      split at h
      · rename_i hnegative
        cases h
        exact covers_cons hback ((slopeTooNegative_iff (by omega)).mp hnegative).under
      split at h
      · cases h
      · obtain ⟨kept, hkept, heq⟩ := Fallible.bind_eq_ok.mp h
        cases heq
        have hle : ∀ p ∈ f.timestamps.reverse, p.time ≤ x.time := by
          intro p hp
          have := hordered.le_getLast hlast (mem_reverse.mp hp)
          omega
        refine forall_mem_cons.mpr ⟨covers_of_mem (by simp), fun p hp => ?_⟩
        refine (backPropagate_covers hle hkept p (mem_reverse.mpr hp)).mono fun q hq => ?_
        simpa [or_comm] using hq
    · refine insert_covers ?_ hordered ?_ ?_ h
      · rw [reverse_reverse, takeWhile_append_dropWhile]
      · intro p hp
        have hlt := mem_takeWhile_imp (mem_reverse.mp hp)
        exact (of_decide_eq_true hlt).le
      · exact hordered.le_of_mem_dropWhile

theorem sampleAll_covers (samples : List Point) (h : SampledOnly f) (hall : f.sampleAll samples = .ok f') :
    ∀ p ∈ samples ++ f.timestamps, Covers f'.timestamps p := by
  induction samples generalizing f with
  | nil =>
    cases hall
    exact fun p hp => covers_of_mem hp
  | cons x samples ih =>
    obtain ⟨f1, hsample, h1, -⟩ := h.sample x
    have hrest : f1.sampleAll samples = .ok f' := by
      rw [sampleAll, foldlM_cons, hsample] at hall
      exact hall
    obtain ⟨hsamples, hkept⟩ := forall_mem_append.mp (ih h1 hrest)
    obtain ⟨hx, hold⟩ := forall_mem_cons.mp (sample_covers h.ordered hsample)
    exact forall_mem_cons.mpr ⟨hx.trans hkept, forall_mem_append.mpr ⟨hsamples, fun p hp => (hold p hp).trans hkept⟩⟩

end SingleFilter

/-! ### The line -/

theorem Point.under_clip (h : p.time ≤ q.time) : p.Under (p.clip q) := by
  rw [Point.Under, clip_time, sub_self, abs_zero]
  by_cases hrise : SlopeTooPositive (q.time - p.time) (q.offset - p.offset)
  · rw [clip, if_pos hrise, Int.tdiv_eq_ediv_of_nonneg (by omega)]
    rw [SlopeTooPositive] at hrise
    simp only
    omega
  · rw [clip, if_neg hrise, add_zero]

theorem SingleFilter.points_covers {f : SingleFilter} (hordered : Ordered f.timestamps) :
    ∀ p ∈ f.timestamps, Covers f.points p := by
  unfold points
  split
  · rename_i p q rest hts
    rw [hts] at hordered ⊢
    split
    · exact fun _ => covers_of_mem
    · exact forall_mem_cons.mpr ⟨⟨p.clip q, mem_cons_self, Point.under_clip (hordered.le mem_cons_self)⟩,
        fun s hs => covers_of_mem (mem_cons_of_mem _ hs)⟩
  · exact fun _ => covers_of_mem

/-- The exact line through the points, which falls off on both sides at the velocity limit. -/
def exactLine (t : Int) : List Point → ℚ
  | [] => 0
  | [p] => p.offset - |(t : ℚ) - p.time| / 1000
  | p :: q :: L =>
    if t < p.time then p.offset + ((t : ℚ) - p.time) / 1000
    else if t < q.time then exactSegment p q t
    else exactLine t (q :: L)

/-- Neither point is above the cone of the other. -/
def Gentle (p q : Point) : Prop :=
  p.time ≤ q.time ∧ 1000 * (q.offset - p.offset) ≤ q.time - p.time ∧ -(q.time - p.time) ≤ 1000 * (q.offset - p.offset)

theorem Gentle.trans {r : Point} (h : Gentle p q) (h' : Gentle q r) : Gentle p r := by
  unfold Gentle at *
  omega

theorem gentle_of_slopes (h : NoFall p q ∧ NoRise p q) : Gentle p q := ⟨h.1.1, not_lt.mp h.2, not_lt.mp h.1.2⟩

section Gentle

variable {p q : Point} {t : Int}

theorem Gentle.bounds (h : Gentle p q) : (p.time : ℚ) ≤ q.time ∧
    (q.offset : ℚ) - (q.time - p.time) / 1000 ≤ p.offset ∧ (p.offset : ℚ) - (q.time - p.time) / 1000 ≤ q.offset := by
  obtain ⟨hle, hrise, hfall⟩ := h
  have hrise' : (1000 : ℚ) * (q.offset - p.offset) ≤ q.time - p.time := by exact_mod_cast hrise
  have hfall' : -((q.time : ℚ) - p.time) ≤ 1000 * (q.offset - p.offset) := by exact_mod_cast hfall
  refine ⟨by exact_mod_cast hle, ?_, ?_⟩ <;> linarith

theorem Gentle.le_exactSegment (h : Gentle p q) (hp : p.time ≤ t) (hq : t < q.time) :
    (p.offset : ℚ) - (t - p.time) / 1000 ≤ exactSegment p q t ∧
      (q.offset : ℚ) - (q.time - t) / 1000 ≤ exactSegment p q t := by
  obtain ⟨-, hrise, hfall⟩ := h.bounds
  have hp' : (p.time : ℚ) ≤ t := by exact_mod_cast hp
  have hq' : (t : ℚ) < q.time := by exact_mod_cast hq
  have hdt : (0 : ℚ) < q.time - p.time := by linarith
  have hoffset : (q.offset : ℚ) = p.offset + (q.offset - p.offset) / (q.time - p.time) * (q.time - p.time) := by
    rw [div_mul_cancel₀ _ hdt.ne']
    ring
  have hle : ((q.offset : ℚ) - p.offset) / (q.time - p.time) ≤ 1 / 1000 := by
    rw [div_le_iff₀ hdt]
    linarith
  have hge : -1 / 1000 ≤ ((q.offset : ℚ) - p.offset) / (q.time - p.time) := by
    rw [le_div_iff₀ hdt]
    linarith
  unfold exactSegment
  generalize ((q.offset : ℚ) - p.offset) / (q.time - p.time) = slope at *
  constructor <;> nlinarith

end Gentle

theorem cone_le_exactLine (h : L.Pairwise Gentle) (hp : p ∈ L) (t : Int) :
    (p.offset : ℚ) - |(t : ℚ) - p.time| / 1000 ≤ exactLine t L := by
  induction L generalizing p with
  | nil => simp at hp
  | cons a L ih =>
    cases L with
    | nil => rw [mem_singleton.mp hp, exactLine]
    | cons b L =>
      obtain ⟨hhead, htail⟩ := pairwise_cons.mp h
      have hab := hhead b mem_cons_self
      rw [exactLine]
      split
      · -- before the first point
        rename_i hta
        have hta' : (t : ℚ) < a.time := by exact_mod_cast hta
        rcases mem_cons.mp hp with rfl | hp
        · rw [abs_of_neg (by linarith)]
          linarith
        · obtain ⟨hle, hrise, -⟩ := (hhead p hp).bounds
          rw [abs_of_neg (by linarith)]
          linarith
      split
      · -- on the first segment
        rename_i hta htb
        have hta' : (a.time : ℚ) ≤ t := by exact_mod_cast not_lt.mp hta
        have htb' : (t : ℚ) < b.time := by exact_mod_cast htb
        obtain ⟨hleft, hright⟩ := hab.le_exactSegment (not_lt.mp hta) htb
        rcases mem_cons.mp hp with rfl | hp
        · rw [abs_of_nonneg (by linarith)]
          exact hleft
        · refine le_trans ?_ hright
          rcases mem_cons.mp hp with rfl | hp
          · rw [abs_of_neg (by linarith)]
            linarith
          · obtain ⟨hle, hrise, -⟩ := (rel_of_pairwise_cons htail hp).bounds
            rw [abs_of_neg (by linarith)]
            linarith
      · -- behind it
        rename_i hta htb
        have htb' : (b.time : ℚ) ≤ t := by exact_mod_cast not_lt.mp htb
        rcases mem_cons.mp hp with rfl | hp
        · obtain ⟨hle, -, hfall⟩ := hab.bounds
          refine le_trans ?_ (ih htail mem_cons_self)
          rw [abs_of_nonneg (by linarith), abs_of_nonneg (by linarith)]
          linarith
        · exact ih htail hp

theorem Point.Under.le_cone (h : s.Under p) : (s.offset : ℚ) ≤ p.offset - |(s.time : ℚ) - p.time| / 1000 := by
  have h' : (1000 : ℚ) * s.offset + |(s.time : ℚ) - p.time| ≤ 1000 * p.offset := by exact_mod_cast h
  linarith

/-- After any samples, none of them is above the line, whether it is still there or not. -/
theorem sample_le_exactLine (samples : List Point) :
    ∃ f, SingleFilter.initial.sampleAll samples = .ok f ∧
      ∀ s ∈ samples, (s.offset : ℚ) ≤ exactLine s.time f.points := by
  obtain ⟨f, hall, h, -⟩ := SingleFilter.SampledOnly.initial.sampleAll samples
  have hgentle : f.points.Pairwise Gentle := by
    have htrans : Trans Gentle Gentle Gentle := ⟨Gentle.trans⟩
    exact isChain_iff_pairwise.mp ((h.slopes.points h.hasPopped).imp fun _ _ => gentle_of_slopes)
  refine ⟨f, hall, fun s hs => ?_⟩
  have hcovers := SingleFilter.sampleAll_covers samples SingleFilter.SampledOnly.initial hall s (mem_append_left _ hs)
  obtain ⟨p, hp, hunder⟩ := hcovers.trans (SingleFilter.points_covers h.ordered)
  exact hunder.le_cone.trans (cone_le_exactLine hgentle hp s.time)

end RobotCode.Network
