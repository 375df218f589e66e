import RobotCode.Lib.Fallible
import RobotCode.Network.TimestampFilter

/-!
# Frozen offsets

What has been read of the line is frozen, so that later samples do not change it. No call removes a frozen
timestamp or adds one before the frozen time. The line up to a time is the same whenever the points up to
that time are, so it remains to see when a later sample leaves those points alone.
-/

namespace RobotCode.Network

open List

/-! ### The line before a point -/

def Ordered (L : List Point) : Prop := L.Pairwise fun a b => a.time < b.time ∨ a = b

variable {L : List Point} {q p : Point} {t : Int}

theorem Ordered.le {a b : Point} (h : Ordered (a :: L)) (hb : b ∈ L) : a.time ≤ b.time := by
  rcases rel_of_pairwise_cons h hb with hlt | rfl
  · exact hlt.le
  · exact le_rfl

theorem Ordered.tail {a : Point} (h : Ordered (a :: L)) : Ordered L := List.Pairwise.tail h

theorem Ordered.le_getLast {a b : Point} (h : Ordered L) (hb : L.getLast? = some b) (ha : a ∈ L) :
    a.time ≤ b.time := by
  obtain ⟨P, rfl⟩ := getLast?_eq_some_iff.mp hb
  rcases mem_append.mp ha with ha | ha
  · rcases (pairwise_append.mp h).2.2 a ha b (by simp) with hlt | rfl
    · exact hlt.le
    · exact le_rfl
  · rw [mem_singleton.mp ha]

theorem Ordered.le_of_mem_dropWhile (h : Ordered L) : ∀ p ∈ L.dropWhile (·.time < t), t ≤ p.time := by
  have hhead := head?_dropWhile_not (fun p : Point => decide (p.time < t)) L
  have hdrop : Ordered (L.dropWhile (·.time < t)) := h.sublist (dropWhile_sublist _)
  cases hL : L.dropWhile (·.time < t) with
  | nil => simp
  | cons n B =>
    rw [hL] at hhead hdrop
    have hn : t ≤ n.time := by simpa using hhead
    intro p hp
    rcases mem_cons.mp hp with rfl | hp
    · exact hn
    · exact hn.trans (hdrop.le hp)

theorem Point.clip_time (p q : Point) : (p.clip q).time = p.time := by
  rw [clip]
  split <;> rfl

theorem extrapolateOffset_self (p : Point) : extrapolateOffset p p.time = p.offset := by
  simp [extrapolateOffset]

theorem interpolateOffset_self (h : p.time < q.time) : interpolateOffset p q p.time = p.offset := by
  have hdt : 0 < q.time - p.time := by omega
  have hlt : (q.time - p.time).tdiv 2 < q.time - p.time := by
    rw [Int.tdiv_eq_ediv_of_nonneg hdt.le]
    omega
  have hle : 0 ≤ (q.time - p.time).tdiv 2 := Int.tdiv_nonneg hdt.le (by decide)
  simp [interpolateOffset, Int.neg_tdiv, Int.tdiv_eq_zero_of_lt hle hlt]

theorem lineOffset_singleton (p : Point) (t : Int) : lineOffset t [p] = .ok (extrapolateOffset p t) := by
  simp [lineOffset]

private theorem time_le_getLastD (h : Ordered (p :: L)) : p.time ≤ (L.getLastD p).time := by
  cases hL : L.getLast? with
  | none => simp [getLastD_eq_getLast?, hL]
  | some q =>
    simp only [getLastD_eq_getLast?, hL, Option.getD_some]
    exact h.le (mem_of_getLast? hL)

theorem lineOffset_cons_cons (h : Ordered (p :: q :: L)) (t : Int) :
    lineOffset t (p :: q :: L) =
      if t < p.time then .ok (extrapolateOffset p t)
      else if t < q.time then .ok (interpolateOffset p q t)
      else lineOffset t (q :: L) := by
  have hlast : q.time ≤ (L.getLastD q).time := time_le_getLastD h.tail
  have hpq : p.time ≤ q.time := h.le mem_cons_self
  simp only [lineOffset, getLastD_cons, reduceCtorEq, false_or]
  by_cases htp : t < p.time
  · rw [if_pos htp, if_pos (.inl htp), if_neg (by omega)]
  rw [if_neg htp]
  by_cases htq : t < q.time
  · have hnot : ¬ (t < p.time ∨ (L.getLastD q).time ≤ t) := by omega
    rw [if_neg hnot, if_pos htq]
    cases L <;> simp [findTimestamps, htq]
  · cases L with
    | nil => simp [htp, show q.time ≤ t by omega]
    | cons r L =>
      simp only [htp, htq, false_or, reduceCtorEq, findTimestamps, if_false]
      split <;> rfl

theorem lineOffset_cons_of_le (h : Ordered (p :: L)) (ht : t ≤ p.time) :
    lineOffset t (p :: L) = .ok (extrapolateOffset p t) := by
  induction L with
  | nil => exact lineOffset_singleton p t
  | cons q L ih =>
    rw [lineOffset_cons_cons h]
    by_cases htp : t < p.time
    · rw [if_pos htp]
    · obtain rfl : t = p.time := by omega
      rw [if_neg htp]
      rcases rel_of_pairwise_cons h mem_cons_self with hlt | rfl
      · rw [if_pos hlt, interpolateOffset_self hlt, extrapolateOffset_self]
      · rw [if_neg htp]
        exact ih h.tail

theorem lineOffset_append {R : List Point} (ht : t ≤ q.time) :
    ∀ {C : List Point}, Ordered (C ++ q :: R) → lineOffset t (C ++ q :: R) = lineOffset t (C ++ [q])
  | [], h => by rw [nil_append, lineOffset_cons_of_le h ht, nil_append, lineOffset_singleton]
  | [p], h => by
      have h' : Ordered (p :: [q]) := h.sublist (by simp)
      rw [singleton_append, singleton_append, lineOffset_cons_cons h, lineOffset_cons_cons h',
        lineOffset_cons_of_le h.tail ht, lineOffset_singleton]
  | p :: p' :: C, h => by
      have h' : Ordered (p :: p' :: (C ++ [q])) := h.sublist (by simp)
      have htail := lineOffset_append ht (Ordered.tail h)
      simp only [cons_append] at h htail ⊢
      rw [lineOffset_cons_cons h, lineOffset_cons_cons h', htail]

theorem lineOffset_eq_of_common {A R R' : List Point} (hq : q ∈ A) (ht : t ≤ q.time)
    (h : Ordered (A ++ R)) (h' : Ordered (A ++ R')) : lineOffset t (A ++ R) = lineOffset t (A ++ R') := by
  obtain ⟨C, D, rfl⟩ := append_of_mem hq
  simp only [append_assoc, cons_append] at h h' ⊢
  rw [lineOffset_append ht h, lineOffset_append ht h']

/-! ### What a sample can do -/

namespace SingleFilter

variable {f f' : SingleFilter} {x : Point}

variable {A : List Point} {t : Int}

theorem frozen_iff : f.Frozen t ↔ ∃ F ∈ f.frozenTime, t ≤ F := by
  simp [Frozen, Option.any_eq_true]

theorem Frozen.mono {s : Int} (h : f.Frozen t) (hle : s ≤ t) : f.Frozen s := by
  obtain ⟨F, hF, htF⟩ := frozen_iff.mp h
  exact frozen_iff.mpr ⟨F, hF, hle.trans htF⟩

theorem backPropagate_spec {R R' : List Point} (h : f.backPropagate x R = .ok R') :
    ∃ M, R = M ++ R' ∧ (∀ m ∈ M, ¬ f.Frozen m.time) ∧ (R ≠ [] → R' ≠ []) := by
  fun_induction backPropagate f x R with
  | case1 => cases h
  | case2 b a R _ hfrozen ih =>
    obtain ⟨M, hM, hall, hne⟩ := ih h
    refine ⟨b :: M, by rw [hM, cons_append], ?_, fun _ => hne (by simp)⟩
    simpa using ⟨hfrozen, hall⟩
  | case3 | case4 =>
    cases h
    exact ⟨[], rfl, by simp, id⟩

theorem removeSecond_spec (A : List Point) : ∃ M, A = M ++ removeSecond x A ∧
    ∀ b ∈ (removeSecond x A).head?, ¬ SlopeTooNegative (b.time - x.time) (b.offset - x.offset) := by
  fun_induction removeSecond x A with
  | case1 => exact ⟨[], rfl, by simp⟩
  | case2 b => exact ⟨[b], rfl, by simp⟩
  | case3 b hb => exact ⟨[], rfl, by simpa using hb⟩
  | case4 b a A _ ih | case5 b a A _ _ ih =>
    obtain ⟨M, hM, hhead⟩ := ih
    exact ⟨b :: M, by rw [cons_append, ← hM], hhead⟩
  | case6 b a A hb => exact ⟨[], rfl, by simpa using hb⟩

theorem propagate_spec {P P' A' : List Point} (h : f.propagate x P A = .ok (P', A')) (hP : P ≠ []) :
    ∃ M N, P = M ++ P' ∧ A = N ++ A' ∧ (∀ m ∈ M, ¬ f.Frozen m.time) ∧ P' ≠ [] ∧
      ∀ b ∈ A'.head?, ¬ SlopeTooNegative (b.time - x.time) (b.offset - x.offset) := by
  fun_induction propagate f x P A with
  | case1 A => exact absurd rfl hP
  | case2 p P n A hneg ih =>
    obtain ⟨M, N, hM, hN, hrest⟩ := ih h hP
    exact ⟨M, n :: N, hM, by rw [hN, cons_append], hrest⟩
  | case3 | case6 => cases h
  | case4 p P n A _ hpos hfrozen ih | case7 p P hpos hfrozen ih =>
    obtain ⟨M, N, hM, hN, hall, hrest⟩ := ih h hpos.1
    exact ⟨p :: M, N, by rw [hM, cons_append], hN, by simpa using ⟨hfrozen, hall⟩, hrest⟩
  | case5 p P n A hneg _ =>
    cases h
    exact ⟨[], [], rfl, rfl, by simp, by simp, by simpa using hneg⟩
  | case8 p P _ =>
    cases h
    exact ⟨[], [], rfl, rfl, by simp, by simp, by simp⟩

/-- `Sample` ignores `x`, or puts it in place of a stretch of timestamps that are not frozen. -/
inductive Sampled (f : SingleFilter) (x : Point) : SingleFilter → Prop
  | ignored : Sampled f x f
  | first (hempty : f.timestamps = []) (hfully : f.fullyFrozen = false) :
      Sampled f x { f with timestamps := [x] }
  | inserted (A M B : List Point) (htimestamps : f.timestamps = A ++ (M ++ B)) (hx : ¬ f.Frozen x.time)
      (hA : ∀ a ∈ A, a.time < x.time) (hM : ∀ m ∈ M, ¬ f.Frozen m.time)
      (hB : ∀ b ∈ B, x.time < b.time ∨ x = b) (hfirst : A = [] → ∀ y ∈ f.timestamps, x.time ≤ y.time)
      (hfully : f.fullyFrozen → ∃ y ∈ f.timestamps, x.time ≤ y.time) :
      Sampled f x { f with timestamps := A ++ x :: B }

section Cases

variable {A B : List Point} {n : Point}

private theorem not_frozen_of_mem (hordered : Ordered (n :: B)) (hn : ¬ f.Frozen n.time) :
    ∀ b ∈ n :: B, ¬ f.Frozen b.time := by
  rintro b (_ | ⟨_, hb⟩) hfrozen
  · exact hn hfrozen
  · exact hn (hfrozen.mono (hordered.le hb))

private theorem after_of_head {N : List Point} (hordered : Ordered (N ++ B)) (hle : ∀ b ∈ N ++ B, x.time ≤ b.time)
    (hbest : ∀ b ∈ N ++ B, b.time = x.time → b.offset ≤ x.offset)
    (hhead : ∀ b ∈ B.head?, ¬ SlopeTooNegative (b.time - x.time) (b.offset - x.offset)) :
    ∀ b ∈ B, x.time < b.time ∨ x = b := by
  cases B with
  | nil => simp
  | cons m B =>
    have hm : x.time < m.time ∨ x = m := by
      rcases (hle m (by simp)).lt_or_eq with hlt | heq
      · exact .inl hlt
      · have hoffset := hbest m (by simp) heq.symm
        have hslope := hhead m rfl
        rw [SlopeTooNegative] at hslope
        refine .inr ?_
        cases x; cases m
        simp only [Point.mk.injEq] at *
        omega
    have hordered : Ordered (m :: B) := hordered.sublist (sublist_append_right N _)
    rintro b (_ | ⟨_, hb⟩)
    · exact hm
    · rcases hm with hlt | rfl
      · exact .inl (hlt.trans_le (hordered.le hb))
      · exact rel_of_pairwise_cons hordered hb

private theorem offset_le_of_head (hordered : Ordered (n :: B)) (hle : ∀ b ∈ n :: B, x.time ≤ b.time)
    (hn : n.time = x.time → n.offset ≤ x.offset) : ∀ b ∈ n :: B, b.time = x.time → b.offset ≤ x.offset := by
  rintro b (_ | ⟨_, hb⟩) htime
  · exact hn htime
  · have hxn := hle n mem_cons_self
    rcases rel_of_pairwise_cons hordered hb with hlt | rfl
    · omega
    · exact hn htime

private theorem insert_sampled (hordered : Ordered f.timestamps) (hA : ∀ a ∈ A, a.time < x.time)
    (hB : ∀ b ∈ n :: B, x.time ≤ b.time) (htimestamps : f.timestamps = A ++ n :: B) (hx : ¬ f.Frozen x.time)
    (h : f.insert x A.reverse (n :: B) = .ok f') : Sampled f x f' := by
  have horderedB : Ordered (n :: B) := by
    rw [htimestamps] at hordered
    exact hordered.sublist (sublist_append_right A _)
  have hfully : ∃ y ∈ f.timestamps, x.time ≤ y.time := ⟨n, by simp [htimestamps], hB n mem_cons_self⟩
  rcases eq_nil_or_concat A with rfl | ⟨A', p, rfl⟩
  · simp only [reverse_nil, insert] at h
    split at h
    · cases h
    next hn =>
    have hunfrozen := not_frozen_of_mem horderedB hn
    split at h
    · cases h
      exact .ignored
    next hbetter =>
    cases h
    obtain ⟨M, hM, hhead⟩ := removeSecond_spec (x := x) (n :: B)
    have hbest := offset_le_of_head horderedB hB (by omega)
    refine .inserted [] M (removeSecond x (n :: B)) (by rw [htimestamps, ← hM]) hx (by simp)
      (fun m hm => hunfrozen m (by rw [hM]; simp [hm])) ?_ (fun _ => by simpa [htimestamps] using hB) fun _ => hfully
    exact after_of_head (hM ▸ horderedB) (hM ▸ hB) (hM ▸ hbest) hhead
  · simp only [concat_eq_append, reverse_append, reverse_singleton, singleton_append,
      insert] at h htimestamps hA
    split at h
    · cases h
    next hn =>
    have hunfrozen := not_frozen_of_mem horderedB hn
    split at h
    · cases h
      exact .ignored
    split at h
    · cases h
      exact .ignored
    next hpositive =>
    cases hprop : f.propagate x (p :: A'.reverse) (n :: B) with
    | error e => simp [hprop, bind, Except.bind] at h
    | ok r =>
      obtain ⟨P, B'⟩ := r
      simp only [hprop, bind, Except.bind] at h
      cases h
      obtain ⟨M, N, hM, hN, hMfrozen, hP, hhead⟩ := propagate_spec hprop (by simp)
      have hA' : A' ++ [p] = P.reverse ++ M.reverse := by
        rw [← reverse_append, ← hM]; simp
      have hbest := offset_le_of_head horderedB hB (fun htime => by
        rw [SlopeTooPositive] at hpositive
        omega)
      rw [hA'] at hA htimestamps
      refine .inserted P.reverse (M.reverse ++ N) B' (by rw [htimestamps, hN]; simp) hx
        (fun a ha => hA a (mem_append_left _ ha)) ?_ ?_ (fun hnil => absurd (by simpa using hnil) hP) fun _ => hfully
      · intro m hm
        rcases mem_append.mp hm with hm | hm
        · exact hMfrozen m (mem_reverse.mp hm)
        · exact hunfrozen m (by rw [hN]; simp [hm])
      · exact after_of_head (hN ▸ horderedB) (hN ▸ hB) (hN ▸ hbest) hhead

theorem sampled_of_sample (hordered : Ordered f.timestamps) (h : f.sample x = .ok f') : Sampled f x f' := by
  rw [sample] at h
  cases hback : f.timestamps.getLast? with
  | none =>
    have hempty : f.timestamps = [] := by simpa using hback
    simp only [hback] at h
    split at h
    · cases h
    · next hfully =>
      cases h
      exact .first hempty (by simpa using hfully)
  | some back =>
    have hmem : back ∈ f.timestamps := mem_of_getLast? hback
    simp only [hback] at h
    split at h
    · cases h
    next hx =>
    split at h
    · cases h
      exact .ignored
    split at h
    · -- at the end
      next hdt =>
      split at h
      · cases h
        exact .ignored
      split at h
      · cases h
      next hfully =>
      cases hprop : f.backPropagate x f.timestamps.reverse with
      | error e => simp [hprop, bind, Except.bind] at h
      | ok R =>
        simp only [hprop, bind, Except.bind] at h
        cases h
        obtain ⟨M, hM, hfrozen, hne⟩ := backPropagate_spec hprop
        have hts : f.timestamps = R.reverse ++ M.reverse := by
          rw [← reverse_append, ← hM, reverse_reverse]
        refine .inserted R.reverse M.reverse [] (by simpa using hts) hx (fun a ha => ?_) (by simpa using hfrozen)
          (by simp) (fun hR => ?_) fun hfull => absurd hfull hfully
        · have := hordered.le_getLast hback (a := a) (by rw [hts]; simp [mem_reverse.mp ha])
          omega
        · exact absurd (by simpa using hR) (hne (by simpa using ne_nil_of_mem hmem))
    · -- before the end
      have happend := takeWhile_append_dropWhile (p := fun p : Point => p.time < x.time) (l := f.timestamps)
      have hbefore : ∀ a ∈ f.timestamps.takeWhile (·.time < x.time), a.time < x.time := fun a ha => by
        simpa using mem_takeWhile_imp ha
      cases hdrop : f.timestamps.dropWhile (·.time < x.time) with
      | nil =>
        rw [hdrop] at h
        simp [insert] at h
      | cons n B =>
        rw [hdrop] at h happend
        exact insert_sampled hordered hbefore (hdrop ▸ hordered.le_of_mem_dropWhile) happend.symm hx h

end Cases

theorem map_time_points (f : SingleFilter) : f.points.map Point.time = f.timestamps.map Point.time := by
  rw [points]
  split
  · next hts => split <;> simp [hts, Point.clip_time]
  · rfl

theorem mem_points {p : Point} (hp : p ∈ f.points) : ∃ q ∈ f.timestamps, q.time = p.time := by
  rw [← mem_map, ← map_time_points]
  exact mem_map_of_mem hp

/-- Freezing leaves the timestamps alone, and moves the frozen time only forwards to one of them. -/
inductive Froze (f : SingleFilter) : SingleFilter → Prop
  | already : Froze f f
  | upTo (p : Point) (hp : p ∈ f.timestamps) (hle : ∀ F ∈ f.frozenTime, F ≤ p.time) :
      Froze f { f with frozenTime := some p.time }
  | fully : Froze f { f with fullyFrozen := true }

theorem froze_of_freezeUntil {now : Int} (h : f.freezeUntil now = .ok f') : Froze f f' := by
  rw [freezeUntil] at h
  split at h
  · cases h
    exact .already
  next hF =>
  split at h
  · next p hfind =>
    cases h
    obtain ⟨q, hq, htime⟩ := mem_points (mem_of_find?_eq_some hfind)
    have hnow : now ≤ p.time := by simpa using find?_some hfind
    rw [← htime] at hnow ⊢
    refine .upTo q hq fun F hmem => ?_
    have : ¬ now < F := by simpa [Option.mem_def.mp hmem] using hF
    omega
  · cases h
    exact .fully
  · split at h
    · cases h
      exact .fully
    · cases h

theorem froze_of_freezeUntilRemote {now : Int} (h : f.freezeUntilRemote now = .ok f') : Froze f f' := by
  rw [freezeUntilRemote] at h
  split at h
  · next p hfind =>
    cases h
    obtain ⟨q, hq, htime⟩ := mem_points (mem_of_find?_eq_some hfind)
    cases hF : f.frozenTime with
    | none =>
      rw [Option.elim_none, ← htime]
      exact .upTo q hq (by simp [hF])
    | some F =>
      rw [Option.elim_some]
      by_cases hle : p.time ≤ F
      · rw [max_eq_right hle, ← hF]
        exact .already
      · rw [max_eq_left (by omega), ← htime]
        exact .upTo q hq (by simp [hF]; omega)
  · cases h
    exact .fully
  · split at h
    · cases h
      exact .fully
    · cases h

/-! ### Invariants -/

/-- The frozen time is that of a timestamp, unless that one is gone and all others are later. -/
structure WellFormed (f : SingleFilter) : Prop where
  ordered : Ordered f.timestamps
  anchored : ∀ F ∈ f.frozenTime,
    (∃ p ∈ f.timestamps, p.time = F) ∨ f.hasPopped = true ∧ ∀ p ∈ f.timestamps, F < p.time
  nonempty : f.hasPopped = true → f.timestamps ≠ []

theorem WellFormed.initial : WellFormed initial :=
  ⟨List.Pairwise.nil, by simp [SingleFilter.initial], by simp [SingleFilter.initial]⟩

theorem WellFormed.frozenTime_eq_none (h : WellFormed f) (hempty : f.timestamps = []) : f.frozenTime = none := by
  cases hF : f.frozenTime with
  | none => rfl
  | some F =>
    rcases h.anchored F hF with ⟨p, hp, -⟩ | ⟨hpopped, -⟩
    · simp [hempty] at hp
    · exact absurd hempty (h.nonempty hpopped)

private theorem not_frozen_iff : ¬ f.Frozen t ↔ ∀ F ∈ f.frozenTime, F < t := by
  simp [frozen_iff]

theorem Sampled.ordered (hstep : Sampled f x f') (h : Ordered f.timestamps) : Ordered f'.timestamps := by
  cases hstep with
  | ignored => exact h
  | first _ _ => exact pairwise_singleton _ x
  | inserted A M B hts _ hA _ hB _ _ =>
    rw [hts, Ordered, pairwise_append, pairwise_append] at h
    obtain ⟨horderedA, ⟨-, horderedB, -⟩, hAB⟩ := h
    refine pairwise_append.mpr ⟨horderedA, pairwise_cons.mpr ⟨hB, horderedB⟩, fun a ha b hb => ?_⟩
    rcases mem_cons.mp hb with rfl | hb
    · exact .inl (hA a ha)
    · exact hAB a ha b (mem_append_right M hb)

theorem WellFormed.sampled (h : WellFormed f) (hstep : Sampled f x f') : WellFormed f' := by
  refine ⟨hstep.ordered h.ordered, ?_, ?_⟩
  · cases hstep with
    | ignored => exact h.anchored
    | first hempty _ => simp [h.frozenTime_eq_none hempty]
    | inserted A M B hts hx hA hM hB _ _ =>
      intro F hF
      refine (h.anchored F hF).imp (fun ⟨p, hp, htime⟩ => ⟨p, ?_, htime⟩) fun ⟨hpopped, hlt⟩ => ⟨hpopped, ?_⟩
      · simp only [hts, mem_append] at hp
        rcases hp with hp | hp | hp
        · simp [hp]
        · have := not_frozen_iff.mp (hM p hp) F hF
          omega
        · simp [hp]
      · rw [hts] at hlt
        simp only [mem_append, mem_cons] at hlt ⊢
        rintro p (hp | rfl | hp)
        · exact hlt p (.inl hp)
        · exact not_frozen_iff.mp hx F hF
        · exact hlt p (.inr (.inr hp))
  · cases hstep with
    | ignored => exact h.nonempty
    | first | inserted => simp

theorem WellFormed.popFront (h : WellFormed f) (hlength : 2 < f.timestamps.length) (hstep : f.popFront = .ok f') :
    WellFormed f' := by
  obtain ⟨p, q, rest, hts⟩ : ∃ p q rest, f.timestamps = p :: q :: rest := by
    match hts : f.timestamps, hlength with
    | p :: q :: rest, _ => exact ⟨p, q, rest, rfl⟩
  have hordered := hts ▸ h.ordered
  obtain ⟨p', hp', htime⟩ : ∃ p', f.timestamp 0 = .ok p' ∧ p'.time = p.time := by
    cases hpopped : f.hasPopped <;> simp [timestamp, points, hts, hpopped, Point.clip_time]
  simp only [SingleFilter.popFront, hp', bind, Except.bind] at hstep
  cases hstep
  refine ⟨?_, fun F hF => ?_, by simp [hts]⟩
  · rw [hts]
    exact hordered.tail
  simp only [Option.mem_some_iff, htime, hts, tail_cons] at hF ⊢
  -- the frozen time is now that of `p`, or was that of one of the others already
  have hpop : (∃ y ∈ q :: rest, y.time = p.time) ∨ True ∧ ∀ y ∈ q :: rest, p.time < y.time := by
    by_cases hsame : ∃ y ∈ q :: rest, y.time = p.time
    · exact .inl hsame
    · push Not at hsame
      exact .inr ⟨trivial, fun y hy => (hordered.le hy).lt_of_ne (hsame y hy).symm⟩
  cases hF' : f.frozenTime with
  | none =>
    obtain rfl : p.time = F := by simpa [hF'] using hF
    exact hpop
  | some F' =>
    have hmax : max F' p.time = F := by simpa [hF'] using hF
    by_cases hle : F' ≤ p.time
    · rw [max_eq_right hle] at hmax
      exact hmax ▸ hpop
    · obtain rfl : F' = F := by omega
      rcases h.anchored F' hF' with ⟨y, hy, hyF⟩ | ⟨-, hlt⟩
      · rw [hts] at hy
        rcases mem_cons.mp hy with rfl | hy
        · omega
        · exact .inl ⟨y, hy, hyF⟩
      · have := hlt p (by simp [hts])
        omega

theorem WellFormed.froze (h : WellFormed f) (hstep : Froze f f') : WellFormed f' := by
  cases hstep with
  | already => exact h
  | upTo p hp _ => exact ⟨h.ordered, by simpa using .inl ⟨p, hp, rfl⟩, h.nonempty⟩
  | fully => exact ⟨h.ordered, h.anchored, h.nonempty⟩

theorem WellFormed.exec {c : Call} (h : WellFormed f) (hstep : f.exec c = .ok f') : WellFormed f' := by
  cases c with
  | sample x => exact h.sampled (sampled_of_sample h.ordered hstep)
  | freezeUntil now => exact h.froze (froze_of_freezeUntil hstep)
  | freezeUntilRemote now => exact h.froze (froze_of_freezeUntilRemote hstep)
  | popFront =>
    rw [SingleFilter.exec] at hstep
    split at hstep
    · next hlength => exact h.popFront hlength hstep
    · cases hstep
      exact h

theorem run_cons_eq_ok {c : Call} {calls : List Call} :
    f.run (c :: calls) = .ok f' ↔ ∃ g, f.exec c = .ok g ∧ g.run calls = .ok f' := by
  rw [run, foldlM_cons]
  cases f.exec c <;> simp [bind, Except.bind, run]

theorem WellFormed.run {calls : List Call} (h : WellFormed f) (hrun : f.run calls = .ok f') : WellFormed f' := by
  induction calls generalizing f with
  | nil =>
    cases hrun
    exact h
  | cons c calls ih =>
    obtain ⟨g, hstep, hrun⟩ := run_cons_eq_ok.mp hrun
    exact ih (h.exec hstep) hrun

/-- The line up to `T` has been frozen. -/
def Reached (f : SingleFilter) (T : Int) : Prop :=
  f.Frozen T ∨ f.fullyFrozen = true ∧ ∀ p ∈ f.timestamps, p.time < T

variable {T : Int}

theorem reached_of_freezeUntil (h : WellFormed f) (hstep : f.freezeUntil T = .ok f') : f'.Reached T := by
  rw [freezeUntil] at hstep
  split at hstep
  · next hF =>
    cases hstep
    obtain ⟨F, hF, hlt⟩ := Option.any_eq_true .. |>.mp hF
    exact .inl (frozen_iff.mpr ⟨F, hF, (of_decide_eq_true hlt).le⟩)
  split at hstep
  · next p hfind =>
    cases hstep
    exact .inl (by simpa [Frozen] using find?_some hfind)
  · next _ hempty =>
    cases hstep
    exact .inr ⟨rfl, by simp [getLast?_eq_none_iff.mp hempty]⟩
  · split at hstep
    · next back hback hlt =>
      cases hstep
      exact .inr ⟨rfl, fun p hp => (h.ordered.le_getLast hback hp).trans_lt hlt⟩
    · cases hstep

theorem Reached.froze (h : f.Reached T) (hstep : Froze f f') : f'.Reached T := by
  cases hstep with
  | already => exact h
  | upTo p _ hle =>
    refine h.imp (fun hfrozen => ?_) id
    obtain ⟨F, hF, hTF⟩ := frozen_iff.mp hfrozen
    simpa [Frozen] using hTF.trans (hle F hF)
  | fully => exact h.imp id fun hfully => ⟨rfl, hfully.2⟩

theorem Reached.sampled (h : f.Reached T) (hwell : WellFormed f) (hstep : Sampled f x f') : f'.Reached T := by
  cases hstep with
  | ignored => exact h
  | first hempty hfully =>
    refine h.imp (fun hfrozen => ?_) fun hfully' => ?_
    · simp [Frozen, hwell.frozenTime_eq_none hempty] at hfrozen
    · simp [hfully] at hfully'
  | inserted A M B hts hx hA hM hB hfirst hfully =>
    refine h.imp id fun ⟨hfull, hlt⟩ => ⟨hfull, fun p hp => ?_⟩
    obtain ⟨y, hy, hxy⟩ := hfully hfull
    rcases mem_append.mp hp with hp | hp
    · exact hlt p (by simp [hts, hp])
    · rcases mem_cons.mp hp with rfl | hp
      · exact hxy.trans_lt (hlt y hy)
      · exact hlt p (by simp [hts, hp])

/-! ### What a later sample leaves alone -/

/-- `x` comes after the first point of the line and does not move it: what clips that is frozen, or nothing clips it. -/
def KeepsFirst (f : SingleFilter) (x : Point) : Prop :=
  match f.timestamps with
  | [] => True
  | p₀ :: rest =>
    if f.hasPopped then p₀.time < x.time
    else
      (∃ p₁ ∈ rest.head?, f.Frozen p₁.time) ∨
        ¬ SlopeTooPositive (x.time - p₀.time) (x.offset - p₀.offset) ∧
          ∀ p₁ ∈ rest.head?, ¬ SlopeTooPositive (p₁.time - p₀.time) (p₁.offset - p₀.offset)

/-- `x` comes after the last timestamp, and it removes none. -/
def Extends (f : SingleFilter) (x : Point) : Prop :=
  ∃ back ∈ f.timestamps.getLast?, back.time < x.time ∧
    ¬ SlopeTooPositive (x.time - back.time) (x.offset - back.offset)

/-- The condition on a later sample. -/
def Keeps (f : SingleFilter) (T : Int) (x : Point) : Prop :=
  (f.Frozen T ∨ ∀ p ∈ f.timestamps, f.Frozen p.time) ∧ f.KeepsFirst x ∨ f.Extends x

theorem ordered_points (h : Ordered f.timestamps) : Ordered f.points := by
  rw [points]
  split
  · next p₀ p₁ rest hts =>
    rw [hts] at h
    split
    · exact h
    · refine pairwise_cons.mpr ⟨fun b hb => ?_, h.tail⟩
      rw [Point.clip_time]
      rcases rel_of_pairwise_cons h hb with hlt | rfl
      · exact .inl hlt
      · -- then the second point is the first one again, and does not clip it
        rcases rel_of_pairwise_cons h mem_cons_self with hlt | rfl
        · exact .inl (hlt.trans_le (by
            rcases mem_cons.mp hb with rfl | hb
            · exact le_rfl
            · exact h.tail.le hb))
        · exact .inr (by simp [Point.clip, SlopeTooPositive])
  · exact h

theorem points_of_popped (hpopped : f.hasPopped = true) : f.points = f.timestamps := by
  rw [points]
  split
  · next hts => rw [if_pos hpopped, hts]
  · rfl

theorem points_append (hne : f.timestamps ≠ [])
    (hslope : ∀ p, f.timestamps = [p] → ¬ SlopeTooPositive (x.time - p.time) (x.offset - p.offset)) :
    { f with timestamps := f.timestamps ++ [x] }.points = f.points ++ [x] := by
  cases hts : f.timestamps with
  | nil => exact absurd hts hne
  | cons p₀ rest =>
    cases rest with
    | nil => simp [points, hts, Point.clip, hslope p₀ hts]
    | cons p₁ rest =>
      simp only [points, hts, cons_append]
      split <;> rfl

theorem sample_of_extends (hextends : f.Extends x) (h : f.sample x = .ok f') :
    f' = f ∨ f.fullyFrozen = false ∧ f' = { f with timestamps := f.timestamps ++ [x] } := by
  obtain ⟨back, hback, hlt, hslope⟩ := hextends
  rw [Option.mem_def] at hback
  obtain ⟨P, hP⟩ := getLast?_eq_some_iff.mp hback
  have hprop : f.backPropagate x f.timestamps.reverse = .ok f.timestamps.reverse := by
    rw [hP, reverse_append, reverse_singleton, singleton_append]
    cases P.reverse <;> simp [backPropagate, hslope]
  simp only [sample, hback, hprop, bind, Except.bind, reverse_reverse] at h
  split at h
  · cases h
  split at h
  · cases h
    exact .inl rfl
  split at h
  · split at h
    · cases h
      exact .inl rfl
    split at h
    · cases h
    · next hfully =>
      cases h
      exact .inr ⟨by simpa using hfully, rfl⟩
  · omega

theorem exists_mem_points {p : Point} (hp : p ∈ f.timestamps) : ∃ q ∈ f.points, q.time = p.time := by
  rw [← mem_map, map_time_points]
  exact mem_map_of_mem hp

theorem offset_eq_of_extends (hwell : WellFormed f) (hreached : f.Reached T) (hextends : f.Extends x)
    (h : f.sample x = .ok f') (ht : t ≤ T) : f'.offset t = f.offset t := by
  obtain ⟨back, hback, -, hslope⟩ := id hextends
  have hmem : back ∈ f.timestamps := mem_of_getLast? hback
  have hordered := (hwell.sampled (sampled_of_sample hwell.ordered h)).ordered
  rcases sample_of_extends hextends h with rfl | ⟨hfully, rfl⟩
  · rfl
  have hfrozen : f.Frozen T := hreached.resolve_right (by simp [hfully])
  obtain ⟨F, hF, hTF⟩ := frozen_iff.mp hfrozen
  have hlate : ∃ p ∈ f.timestamps, T ≤ p.time := by
    rcases hwell.anchored F hF with ⟨p, hp, htime⟩ | ⟨-, hlt⟩
    · exact ⟨p, hp, by omega⟩
    · exact ⟨back, hmem, by have := hlt back hmem; omega⟩
  obtain ⟨p, hp, hTp⟩ := hlate
  obtain ⟨q, hq, htime⟩ := exists_mem_points hp
  have hpoints := points_append (f := f) (x := x) (ne_nil_of_mem hmem) fun p hp => by
    obtain rfl : p = back := by simpa [hp] using hback
    exact hslope
  have hbefore : Ordered (f.points ++ []) := by simpa using ordered_points hwell.ordered
  have hafter : Ordered (f.points ++ [x]) := hpoints ▸ ordered_points hordered
  rw [offset, offset, hpoints, lineOffset_eq_of_common hq (by omega) hafter hbefore, append_nil]

private theorem mem_of_frozen {M B : List Point} {q : Point} (hq : q ∈ A ++ (M ++ B)) (hfrozen : f.Frozen q.time)
    (hx : ¬ f.Frozen x.time) (hM : ∀ m ∈ M, ¬ f.Frozen m.time) (hB : ∀ b ∈ B, x.time < b.time ∨ x = b) : q ∈ A := by
  rcases mem_append.mp hq with hq | hq
  · exact hq
  rcases mem_append.mp hq with hq | hq
  · exact absurd hfrozen (hM q hq)
  · rcases hB q hq with hlt | rfl
    · exact absurd (hfrozen.mono hlt.le) hx
    · exact absurd hfrozen hx

private theorem common_points {M B : List Point} (hwell : WellFormed f) (hT : f.Frozen T) (hfirst : f.KeepsFirst x)
    (hts : f.timestamps = A ++ (M ++ B)) (hx : ¬ f.Frozen x.time) (hM : ∀ m ∈ M, ¬ f.Frozen m.time)
    (hB : ∀ b ∈ B, x.time < b.time ∨ x = b) (hbegin : A = [] → ∀ y ∈ f.timestamps, x.time ≤ y.time) :
    ∃ C R R', f.points = C ++ R ∧ { f with timestamps := A ++ x :: B }.points = C ++ R' ∧ ∃ q ∈ C, T ≤ q.time := by
  obtain ⟨F, hF, hTF⟩ := frozen_iff.mp hT
  have hkept : ∀ {q}, q ∈ f.timestamps → f.Frozen q.time → q ∈ A := fun hq hfrozen =>
    mem_of_frozen (hts ▸ hq) hfrozen hx hM hB
  have hanchor : (∃ q ∈ A, q.time = F) ∨ f.hasPopped = true ∧ ∀ p ∈ f.timestamps, F < p.time :=
    (hwell.anchored F hF).imp_left fun ⟨q, hq, htime⟩ =>
      ⟨q, hkept hq (by rw [htime]; simp [Frozen, Option.mem_def.mp hF]), htime⟩
  cases hpopped : f.hasPopped with
  | true =>
    have hlate : ∃ q ∈ A, T ≤ q.time := by
      rcases hanchor with ⟨q, hq, htime⟩ | ⟨-, hlt⟩
      · exact ⟨q, hq, by omega⟩
      · cases A with
        | nil =>
          cases hempty : f.timestamps with
          | nil => exact absurd hempty (hwell.nonempty hpopped)
          | cons p rest =>
            have hpx : p.time < x.time := by simpa [KeepsFirst, hempty, hpopped] using hfirst
            have := hbegin rfl p (by simp [hempty])
            omega
        | cons p A =>
          have := hlt p (by simp [hts])
          exact ⟨p, by simp, by omega⟩
    refine ⟨A, M ++ B, x :: B, ?_, ?_, hlate⟩
    · rw [points_of_popped hpopped, hts]
    · exact points_of_popped rfl
  | false =>
    obtain ⟨q, hq, htime⟩ := hanchor.resolve_right (by simp [hpopped])
    match A, hq with
    | [p₀], hq =>
      obtain rfl : q = p₀ := by simpa using hq
      -- the second timestamp is not frozen, so neither it nor `x` clips the first one
      have hslope : ¬ SlopeTooPositive (x.time - q.time) (x.offset - q.offset) ∧
          ∀ p₁ ∈ (M ++ B).head?, ¬ SlopeTooPositive (p₁.time - q.time) (p₁.offset - q.offset) := by
        have hcases := hfirst
        simp only [KeepsFirst, hts, singleton_append, hpopped, Bool.false_eq_true, if_false] at hcases
        refine hcases.resolve_left ?_
        rintro ⟨p₁, hp1, hfrozen⟩
        have hmem : p₁ ∈ M ++ B := mem_of_mem_head? hp1
        rcases mem_append.mp hmem with hmem | hmem
        · exact hM p₁ hmem hfrozen
        · rcases hB p₁ hmem with hlt | rfl
          · exact hx (hfrozen.mono hlt.le)
          · exact hx hfrozen
      refine ⟨[q], M ++ B, x :: B, ?_, ?_, q, by simp, by omega⟩
      · cases hMB : M ++ B with
        | nil => simp [points, hts, hMB]
        | cons p₁ rest => simp [points, hts, hMB, hpopped, Point.clip, hslope.2 p₁ (by simp [hMB])]
      · simp [points, Point.clip, hslope.1]
    | p₀ :: p₁ :: A, hq =>
      refine ⟨p₀.clip p₁ :: p₁ :: A, M ++ B, x :: B, by simp [points, hts, hpopped], by simp [points], ?_⟩
      rcases mem_cons.mp hq with rfl | hq
      · exact ⟨q.clip p₁, by simp, by rw [Point.clip_time]; omega⟩
      · exact ⟨q, mem_cons_of_mem _ hq, by omega⟩

theorem offset_eq_of_keepsFirst (hwell : WellFormed f) (hreached : f.Reached T)
    (hfrozen : f.Frozen T ∨ ∀ p ∈ f.timestamps, f.Frozen p.time) (hfirst : f.KeepsFirst x)
    (h : f.sample x = .ok f') (ht : t ≤ T) : f'.offset t = f.offset t := by
  have hstep := sampled_of_sample hwell.ordered h
  have hordered := ordered_points (hwell.sampled hstep).ordered
  have hordered' := ordered_points hwell.ordered
  cases hstep with
  | ignored => rfl
  | first hempty hfully =>
    rcases hreached with hfrozen | ⟨hfull, -⟩
    · simp [Frozen, hwell.frozenTime_eq_none hempty] at hfrozen
    · simp [hfully] at hfull
  | inserted A M B hts hx hA hM hB hbegin hfully =>
    by_cases hT : f.Frozen T
    · obtain ⟨C, R, R', hC, hC', q, hq, hTq⟩ := common_points hwell hT hfirst hts hx hM hB hbegin
      rw [offset, offset, hC, hC']
      exact lineOffset_eq_of_common hq (by omega) (hC' ▸ hordered) (hC ▸ hordered')
    · -- everything is frozen, so there is nowhere to insert
      obtain ⟨y, hy, hxy⟩ := hfully (hreached.resolve_left hT).1
      exact absurd (((hfrozen.resolve_left hT) y hy).mono hxy) hx

theorem offset_eq_of_froze (hstep : Froze f f') (t : Int) : f'.offset t = f.offset t := by
  cases hstep <;> rfl

theorem offset_eq_of_exec {c : Call} (hwell : WellFormed f) (hreached : f.Reached T) (hstep : f.exec c = .ok f')
    (hpop : c ≠ .popFront) (hkeeps : ∀ x, c = .sample x → f.Keeps T x) :
    f'.Reached T ∧ ∀ t ≤ T, f'.offset t = f.offset t := by
  cases c with
  | sample x =>
    refine ⟨hreached.sampled hwell (sampled_of_sample hwell.ordered hstep), fun t ht => ?_⟩
    rcases hkeeps x rfl with ⟨hfrozen, hfirst⟩ | hextends
    · exact offset_eq_of_keepsFirst hwell hreached hfrozen hfirst hstep ht
    · exact offset_eq_of_extends hwell hreached hextends hstep ht
  | freezeUntil now =>
    have hfroze := froze_of_freezeUntil hstep
    exact ⟨hreached.froze hfroze, fun t _ => offset_eq_of_froze hfroze t⟩
  | freezeUntilRemote now =>
    have hfroze := froze_of_freezeUntilRemote hstep
    exact ⟨hreached.froze hfroze, fun t _ => offset_eq_of_froze hfroze t⟩
  | popFront => exact absurd rfl hpop

private theorem offset_eq_of_run {later : List Call} (hwell : WellFormed f) (hreached : f.Reached T)
    (hrun : f.run later = .ok f') (hpop : Call.popFront ∉ later)
    (hkeeps : ∀ before x after s, later = before ++ .sample x :: after → f.run before = .ok s → s.Keeps T x) :
    ∀ t ≤ T, f'.offset t = f.offset t := by
  induction later generalizing f with
  | nil =>
    cases hrun
    exact fun _ _ => rfl
  | cons c later ih =>
    obtain ⟨g, hstep, hrun⟩ := run_cons_eq_ok.mp hrun
    rw [mem_cons, not_or] at hpop
    obtain ⟨hreached', heq⟩ := offset_eq_of_exec hwell hreached hstep (Ne.symm hpop.1) fun x hx =>
      hkeeps [] x later f (by rw [hx]; rfl) rfl
    have hrest := ih (hwell.exec hstep) hreached' hrun hpop.2 fun before x after s hlater hbefore =>
      hkeeps (c :: before) x after s (by rw [hlater]; rfl) (run_cons_eq_ok.mpr ⟨g, hstep, hbefore⟩)
    exact fun t ht => (hrest t ht).trans (heq t ht)

/-- After `FreezeUntil(T)`, calls whose samples all keep what is frozen do not change the offset at or before
`T`. -/
theorem freezing_is_final (calls later : List Call) {g h : SingleFilter} (hreachable : initial.run calls = .ok f)
    (hfreeze : f.freezeUntil T = .ok g) (hlater : g.run later = .ok h) (hpop : Call.popFront ∉ later)
    (hkeeps : ∀ before x after s, later = before ++ .sample x :: after → g.run before = .ok s → s.Keeps T x) :
    ∀ t ≤ T, h.offset t = g.offset t := by
  have hwell := WellFormed.initial.run hreachable
  exact offset_eq_of_run (hwell.froze (froze_of_freezeUntil hfreeze)) (reached_of_freezeUntil hwell hfreeze) hlater
    hpop hkeeps

/-- Two of three points are frozen, and a sample behind them is added. -/
theorem freezing_is_final_two_of_three :
    offset ⟨[⟨0, 0⟩, ⟨1000000, 0⟩, ⟨1500000, 100⟩, ⟨2000000, 0⟩], some 1000000, false, false⟩ 1000000 =
      offset ⟨[⟨0, 0⟩, ⟨1000000, 0⟩, ⟨2000000, 0⟩], some 1000000, false, false⟩ 1000000 := by
  refine freezing_is_final [.sample ⟨0, 0⟩, .sample ⟨1000000, 0⟩, .sample ⟨2000000, 0⟩] [.sample ⟨1500000, 100⟩]
    (f := ⟨[⟨0, 0⟩, ⟨1000000, 0⟩, ⟨2000000, 0⟩], none, false, false⟩) (T := 1000000) (by decide +kernel)
    (by decide +kernel) (by decide +kernel) (by decide) (fun before x after s hlater hbefore => .inl ?_) 1000000 le_rfl
  cases before with
  | nil =>
    cases hbefore
    exact ⟨.inl (by decide), .inl ⟨⟨1000000, 0⟩, rfl, by decide⟩⟩
  | cons c before => simp at hlater

/-- A later call changes the offset at a time `t` that was frozen by `FreezeUntil(T)`. -/
def Thaws (calls : List Call) (T : Int) (later : List Call) (t : Int) : Prop :=
  ∃ f g h, initial.run calls = .ok f ∧ f.freezeUntil T = .ok g ∧ g.run later = .ok h ∧
    Call.popFront ∉ later ∧ t ≤ T ∧ h.offset t ≠ g.offset t

/-- After freezing past the last timestamp, samples before it are still inserted. A new second timestamp clips a frozen first
one. And when the frozen timestamp has been popped, a new first one is inserted. -/
theorem frozen_offset_changes :
    Thaws [.sample ⟨0, 0⟩, .sample ⟨1000000, 0⟩] 5000000 [.sample ⟨500000, 400⟩] 500000 ∧
      Thaws [.sample ⟨0, 0⟩, .sample ⟨1000000, 0⟩] 0 [.sample ⟨1000, 2⟩] 0 ∧
      Thaws [.sample ⟨0, 0⟩, .sample ⟨1000000, 0⟩, .sample ⟨2000000, 0⟩, .popFront] (-5) [.sample ⟨500000, 400⟩]
        (-5) := by
  simp only [Thaws, exists_and_left]
  decide +kernel

end SingleFilter

end RobotCode.Network
