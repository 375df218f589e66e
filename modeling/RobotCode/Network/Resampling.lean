import RobotCode.Network.Slopes

/-!
# Sampling a retained timestamp again

`Sample` recognises a timestamp it has already got by a comparison with the last timestamp, or with the first one
when it would be inserted there. Between those two there is no such comparison: the timestamp fits where it already
is, and is put there a second time.
-/

namespace RobotCode.Network

open List Fallible ConsumedFilter List.Pairwise

def Increasing (L : List Point) : Prop := L.Pairwise fun a b => a.time < b.time

instance (L : List Point) : Decidable (Increasing L) := inferInstanceAs (Decidable (List.Pairwise _ L))

/-- Timestamps in order are strictly so unless one is there twice. -/
theorem increasing_iff {L : List Point} (h : Ordered L) : Increasing L ↔ L.Nodup := by
  refine ⟨imp fun hlt heq => ?_, fun hnodup => ?_⟩
  · rw [heq] at hlt
    exact lt_irrefl _ hlt
  · refine imp₂ (fun a b horder hne => ?_) h hnodup
    exact horder.resolve_right hne

namespace SingleFilter

variable {f f' : SingleFilter} {x : Point}

/-- `x` is retained, and it is neither the first nor the last timestamp. -/
def Inside (f : SingleFilter) (x : Point) : Prop :=
  x ∈ f.timestamps ∧ f.timestamps.head? ≠ some x ∧ f.timestamps.getLast? ≠ some x

instance (f : SingleFilter) (x : Point) : Decidable (f.Inside x) := inferInstanceAs (Decidable (_ ∧ _))

/-! ### One sample -/

theorem not_frozen_of_sample (hne : f.timestamps ≠ []) (h : f.sample x = .ok f') : ¬ f.Frozen x.time := by
  intro hfrozen
  obtain ⟨back, hback⟩ := Option.ne_none_iff_exists'.mp (by simpa using hne : f.timestamps.getLast? ≠ none)
  simp [sample, hback, hfrozen] at h

theorem sample_last (hx : ¬ f.Frozen x.time) (hlast : f.timestamps.getLast? = some x) : f.sample x = .ok f := by
  simp [sample, hlast, hx]

section

variable (hordered : Ordered f.timestamps)

include hordered

theorem sample_head (hx : ¬ f.Frozen x.time) (hhead : f.timestamps.head? = some x) : f.sample x = .ok f := by
  obtain ⟨rest, hts⟩ := head?_eq_some_iff.mp hhead
  obtain ⟨back, hback⟩ := Option.ne_none_iff_exists'.mp (by simp [hts] : f.timestamps.getLast? ≠ none)
  have hle : x.time ≤ back.time := hordered.le_getLast hback (mem_of_mem_head? hhead)
  have hdt : ¬ 0 < x.time - back.time := by omega
  simp only [sample, hback, hx, if_false, hdt]
  split
  · rfl
  · -- nothing is before `x`, so it is compared with the first timestamp
    simp [hts, insert, hx]

theorem splitAt_retained (hx : x ∈ f.timestamps) :
    ∃ B, f.timestamps = f.timestamps.takeWhile (·.time < x.time) ++ x :: B ∧
      f.timestamps.dropWhile (·.time < x.time) = x :: B := by
  have happend := takeWhile_append_dropWhile (p := fun p : Point => p.time < x.time) (l := f.timestamps)
  have hnotBefore : x ∉ f.timestamps.takeWhile (·.time < x.time) := fun hmem => by
    simpa using mem_takeWhile_imp hmem
  have hdrop : x ∈ f.timestamps.dropWhile (·.time < x.time) := by
    rw [← happend] at hx
    exact (mem_append.mp hx).resolve_left hnotBefore
  cases hB : f.timestamps.dropWhile (·.time < x.time) with
  | nil => simp [hB] at hdrop
  | cons n B =>
    have hn : x.time ≤ n.time := hordered.le_of_mem_dropWhile n (by simp [hB])
    have hordered' : Ordered (n :: B) := by
      rw [← hB]
      exact hordered.sublist (dropWhile_sublist _)
    have heq : n = x := by
      rcases mem_cons.mp (hB ▸ hdrop) with heq | hmem
      · exact heq.symm
      · exact (rel_of_pairwise_cons hordered' hmem).resolve_left (by omega)
    subst heq
    exact ⟨B, by rw [← hB, happend], rfl⟩

theorem sample_inside (hslopes : Sloped f.timestamps) (hx : ¬ f.Frozen x.time) (hinside : f.Inside x) :
    ∃ A B, f.timestamps = A ++ x :: B ∧ f.sample x = .ok { f with timestamps := A ++ x :: x :: B } := by
  obtain ⟨hmem, hhead, hlast⟩ := hinside
  obtain ⟨B, hts, hdrop⟩ := splitAt_retained hordered hmem
  generalize htake : f.timestamps.takeWhile (·.time < x.time) = A at hts
  have hne : A.reverse ≠ [] := by
    intro hnil
    rw [reverse_eq_nil_iff.mp hnil] at hts
    simp [hts] at hhead
  refine ⟨A, B, hts, ?_⟩
  obtain ⟨back, hback⟩ := Option.ne_none_iff_exists'.mp (by simp [hts] : f.timestamps.getLast? ≠ none)
  have hle : x.time ≤ back.time := hordered.le_getLast hback hmem
  have hnotBack : ¬ (x.time - back.time = 0 ∧ x.offset - back.offset = 0) := by
    rintro ⟨htime, hoffset⟩
    obtain rfl : x = back := by
      cases x
      cases back
      simp only [Point.mk.injEq] at *
      omega
    exact hlast hback
  have hdt : ¬ 0 < x.time - back.time := by omega
  simp only [sample, hback, hx, if_false, hnotBack, hdt, hdrop, htake]
  -- the neighbours of the old `x` are those of the new one
  have hback' : SlopedBack x A.reverse := by
    refine ((sloped_append_iff hne).mp (?_ : Sloped (A.reverse.reverse ++ x :: B))).1
    rw [reverse_reverse, ← hts]
    exact hslopes
  cases hA : A.reverse with
  | nil => exact absurd hA hne
  | cons prior before =>
    rw [hA] at hback'
    have hself : ¬ SlopeTooPositive (x.time - x.time) (x.offset - x.offset) ∧
        ¬ SlopeTooNegative (x.time - x.time) (x.offset - x.offset) := by
      simp [SlopeTooPositive, SlopeTooNegative]
    have hrise : ¬ (before ≠ [] ∧ SlopeTooPositive (x.time - prior.time) (x.offset - prior.offset)) := by
      rintro ⟨hbefore, hpositive⟩
      cases before with
      | nil => exact hbefore rfl
      | cons p before => exact hback'.2.1 hpositive
    have hpropagate : f.propagate x (prior :: before) (x :: B) = .ok (prior :: before, x :: B) := by
      rw [propagate, if_neg hself.2, if_neg hrise]
    simp only [insert, hx, if_false, hback'.noFall.2, hself.1, hpropagate, bind, Except.bind]
    rw [← hA, reverse_reverse]

theorem sample_unchanged_iff (hslopes : Sloped f.timestamps)
    (hx : ¬ f.Frozen x.time) (hmem : x ∈ f.timestamps) : (∃ f', f.sample x = .ok f' ∧ f'.timestamps = f.timestamps) ↔
      f.timestamps.head? = some x ∨ f.timestamps.getLast? = some x := by
  refine ⟨fun ⟨f', hsample, hsame⟩ => ?_, fun hends => ⟨f, ?_, rfl⟩⟩
  · by_contra hends
    rw [not_or] at hends
    obtain ⟨A, B, hts, hdouble⟩ := sample_inside hordered hslopes hx ⟨hmem, hends⟩
    rw [hdouble] at hsample
    cases hsample
    have hlength := congrArg length (hsame.trans hts)
    simp at hlength
  · exact hends.elim (sample_head hordered hx) (sample_last hx)

theorem sample_nodup (hinside : ¬ f.Inside x) (hnodup : f.timestamps.Nodup)
    (h : f.sample x = .ok f') : f'.timestamps.Nodup := by
  by_cases hmem : x ∈ f.timestamps
  · -- then it is the first or the last one
    have hx := not_frozen_of_sample (ne_nil_of_mem hmem) h
    have hends : f.timestamps.head? = some x ∨ f.timestamps.getLast? = some x := by
      by_contra hends
      exact hinside ⟨hmem, not_or.mp hends⟩
    have hsame : f.sample x = .ok f := hends.elim (sample_head hordered hx) (sample_last hx)
    obtain rfl := Except.ok.inj (hsame.symm.trans h)
    exact hnodup
  · cases sampled_of_sample hordered h with
    | ignored => exact hnodup
    | first _ _ => exact nodup_singleton x
    | inserted A M B hts _ _ _ _ _ _ =>
      rw [hts] at hmem hnodup
      have hsub : (A ++ B).Sublist (A ++ (M ++ B)) := (sublist_append_right M B).append_left A
      refine nodup_middle.mpr (nodup_cons.mpr ⟨fun hx => hmem (hsub.mem hx), hnodup.sublist hsub⟩)

end

end SingleFilter

namespace ConsumedFilter

variable {c c' : ConsumedFilter}

theorem ordered_initial : Ordered initial.filter.timestamps := nil

theorem exec_ordered {call : Call} (h : Ordered c.filter.timestamps) (hexec : c.exec call = .ok c') :
    Ordered c'.filter.timestamps := by
  rcases exec_cases hexec with ⟨x, -, hsample⟩ | ⟨-, hsame, -⟩ | ⟨-, htail⟩
  · exact (SingleFilter.sampled_of_sample h hsample).ordered h
  · exact hsame ▸ h
  · exact htail ▸ tail h

variable {calls : List Call}

theorem run_append {later : List Call} :
    c.run (calls ++ later) = .ok c' ↔ ∃ d, c.run calls = .ok d ∧ d.run later = .ok c' := by
  rw [run, foldlM_append]
  exact bind_eq_ok

theorem run_ordered (h : Ordered c.filter.timestamps) (hrun : c.run calls = .ok c') :
    Ordered c'.filter.timestamps := by
  induction calls generalizing c with
  | nil =>
    cases hrun
    exact h
  | cons call calls ih =>
    obtain ⟨c1, hexec, hrun⟩ := bind_eq_ok.mp hrun
    exact ih (exec_ordered h hexec) hrun

theorem exec_nodup {call : Call} (h : Ordered c.filter.timestamps) (hnodup : c.filter.timestamps.Nodup)
    (hinside : ∀ x, call = .sample x → ¬ c.filter.Inside x) (hexec : c.exec call = .ok c') :
    c'.filter.timestamps.Nodup := by
  rcases exec_cases hexec with ⟨x, hcall, hsample⟩ | ⟨-, hsame, -⟩ | ⟨-, htail⟩
  · exact SingleFilter.sample_nodup h (hinside x hcall) hnodup hsample
  · exact hsame ▸ hnodup
  · exact htail ▸ hnodup.tail

def NeverInside (calls : List Call) : Prop :=
  ∀ before x after c, calls = before ++ .sample x :: after → initial.run before = .ok c → ¬ c.filter.Inside x

theorem run_nodup (h : NeverInside calls) :
    ∀ before after c, calls = before ++ after → initial.run before = .ok c → c.filter.timestamps.Nodup := by
  intro before
  induction before using reverseRecOn with
  | nil =>
    intro after c _ hrun
    cases hrun
    exact nodup_nil
  | append_singleton before call ih =>
    intro after c hsplit hrun
    obtain ⟨d, hbefore, hlast⟩ := run_append.mp hrun
    obtain ⟨c', hexec, hnil⟩ := bind_eq_ok.mp hlast
    cases hnil
    rw [append_assoc] at hsplit
    refine exec_nodup (run_ordered ordered_initial hbefore) (ih _ _ hsplit hbefore) ?_ hexec
    intro x hcall
    subst hcall
    exact h before x after d hsplit hbefore

end ConsumedFilter

/-- After any calls, sampling a retained timestamp that is not frozen once more changes nothing exactly if it is the first or the
last one. The times stay strictly increasing exactly if no call samples another one. -/
theorem resampling_unchanged_iff (calls : List ConsumedFilter.Call) {c : ConsumedFilter}
    (h : initial.run calls = .ok c) :
    (∀ x ∈ c.filter.timestamps, ¬ c.filter.Frozen x.time →
      ((∃ f', c.filter.sample x = .ok f' ∧ f'.timestamps = c.filter.timestamps) ↔
        c.filter.timestamps.head? = some x ∨ c.filter.timestamps.getLast? = some x)) ∧
    ((∀ before after c', calls = before ++ after → initial.run before = .ok c' →
        Increasing c'.filter.timestamps) ↔ ConsumedFilter.NeverInside calls) := by
  have hordered : ∀ {calls c}, initial.run calls = .ok c → Ordered c.filter.timestamps :=
    run_ordered ordered_initial
  have hslopes : ∀ {calls c}, initial.run calls = .ok c → Sloped c.filter.timestamps := fun hrun =>
    (run_spec (c := .initial) ⟨isChain_nil, isChain_nil⟩ hrun).1
  refine ⟨fun x hmem hx => SingleFilter.sample_unchanged_iff (hordered h) (hslopes h) hx hmem, ?_, ?_⟩
  · intro hincreasing before x after d hsplit hbefore hinside
    rw [hsplit] at h
    obtain ⟨d', hd', hrest⟩ := run_append.mp h
    obtain rfl := Except.ok.inj (hbefore.symm.trans hd')
    obtain ⟨e, hexec, -⟩ := bind_eq_ok.mp hrest
    obtain ⟨f', hsample, heq⟩ := map_eq_ok.mp hexec
    have hx := SingleFilter.not_frozen_of_sample (ne_nil_of_mem hinside.1) hsample
    obtain ⟨A, B, hts, hdouble⟩ := SingleFilter.sample_inside (hordered hbefore) (hslopes hbefore) hx hinside
    have hrun : initial.run (before ++ [.sample x]) = .ok e :=
      run_append.mpr ⟨d, hbefore, bind_eq_ok.mpr ⟨e, hexec, rfl⟩⟩
    have hnodup := (increasing_iff (hordered hrun)).mp (hincreasing _ after e (by simp [hsplit]) hrun)
    rw [hdouble] at hsample
    rw [← heq, ← Except.ok.inj hsample] at hnodup
    simp [nodup_append] at hnodup
  · intro hnever before after d hsplit hbefore
    exact (increasing_iff (hordered hbefore)).mpr (run_nodup hnever before after d hsplit hbefore)

/-- The last of three timestamps is sampled again. -/
theorem resampling_unchanged_ends :
    initial.run [.sample ⟨0, 0⟩, .sample ⟨1000, 0⟩, .sample ⟨2000, 0⟩] =
        .ok ⟨⟨[⟨0, 0⟩, ⟨1000, 0⟩, ⟨2000, 0⟩], none, false, false⟩, 0⟩ ∧
      (∃ f', (⟨[⟨0, 0⟩, ⟨1000, 0⟩, ⟨2000, 0⟩], none, false, false⟩ : SingleFilter).sample ⟨2000, 0⟩ = .ok f' ∧
        f'.timestamps = [⟨0, 0⟩, ⟨1000, 0⟩, ⟨2000, 0⟩]) := by
  refine ⟨?hrun, ((resampling_unchanged_iff _ ?hrun).1 ⟨2000, 0⟩ (by decide) (by decide)).mpr (.inr rfl)⟩
  decide +kernel

/-- The one in the middle is then there twice. -/
theorem resampling_doubles :
    initial.run [.sample ⟨0, 0⟩, .sample ⟨1000, 0⟩, .sample ⟨2000, 0⟩] =
        .ok ⟨⟨[⟨0, 0⟩, ⟨1000, 0⟩, ⟨2000, 0⟩], none, false, false⟩, 0⟩ ∧
      initial.run [.sample ⟨0, 0⟩, .sample ⟨1000, 0⟩, .sample ⟨2000, 0⟩, .sample ⟨1000, 0⟩] =
        .ok ⟨⟨[⟨0, 0⟩, ⟨1000, 0⟩, ⟨1000, 0⟩, ⟨2000, 0⟩], none, false, false⟩, 0⟩ ∧
      ¬ Increasing [⟨0, 0⟩, ⟨1000, 0⟩, ⟨1000, 0⟩, ⟨2000, 0⟩] := by
  decide +kernel

end RobotCode.Network
