import RobotCode.Lib.Envelope
import RobotCode.Network.TimestampFilter

/-!
# The order of the samples does not matter

As long as nothing is frozen, the filter holds the envelope of all samples so far: those that no other
sample has strictly above them in its cone, together with the best sample of the earliest time. `Sample`
computes it in three ways, at the end, at the front and in the middle, and each of them leaves the envelope
of the new set, so the list depends on the set alone.
-/

namespace RobotCode.Network

open Envelope List Point

/-- `q` is strictly below the cone of `p`, whose sides have the slope of the velocity limit. -/
def Point.Below (q p : Point) : Prop := 1000 * q.offset + |q.time - p.time| < 1000 * p.offset

instance : DecidableRel Point.Below := fun _ _ => inferInstanceAs (Decidable (_ < _))

theorem Point.below_iff {q p : Point} : q.Below p ↔ 1000 * q.offset + q.time < 1000 * p.offset + p.time ∧
      1000 * q.offset - q.time < 1000 * p.offset - p.time := by
  have habs : q.Below p ↔ |q.time - p.time| < 1000 * (p.offset - q.offset) := by
    unfold Point.Below
    constructor <;> intro h <;> linarith
  rw [habs, abs_lt]
  constructor <;> rintro ⟨h1, h2⟩ <;> constructor <;> linarith

theorem slopeTooNegative_iff {p q : Point} (h : p.time ≤ q.time) :
    SlopeTooNegative (q.time - p.time) (q.offset - p.offset) ↔ q.Below p := by
  rw [below_iff, SlopeTooNegative]
  omega

theorem slopeTooPositive_iff {p q : Point} (h : p.time ≤ q.time) :
    SlopeTooPositive (q.time - p.time) (q.offset - p.offset) ↔ p.Below q := by
  rw [below_iff, SlopeTooPositive]
  omega

theorem Point.cone : Cone time Point.Below where
  irrefl a := by rw [below_iff]; omega
  trans := by simp only [below_iff]; omega
  between := by simp only [below_iff]; omega
  compare := by
    rintro ⟨t, o⟩ ⟨t', o'⟩ htime
    simp only [below_iff, mk.injEq] at htime ⊢
    omega

/-- `L` is the line that the samples `S` determine. -/
abbrev IsLine (S : Set Point) (L : List Point) : Prop := IsEnvelope time Point.Below S L

namespace SingleFilter

variable {f : SingleFilter} {x e : Point}

@[simp] theorem not_frozen_of_none (hf : f.frozenTime = none) (t : Int) : ¬ f.Frozen t := by
  simp [Frozen, hf]

variable {R : List Point} {b : Point}

private theorem filter_eq_self
    (hR : ∀ a ∈ R, (a.time ≤ b.time ∧ b.time ≤ x.time ∨ x.time ≤ b.time ∧ b.time ≤ a.time) ∧ ¬ a.Below b)
    (hb : ¬ b.Below x) : (b :: R).filter (¬ ·.Below x) = b :: R := by
  refine List.filter_eq_self.mpr fun a ha => ?_
  rcases List.mem_cons.mp ha with rfl | ha
  · simpa using hb
  · obtain ⟨hbetween, hab⟩ := hR a ha
    simpa using fun hax => (cone.between hax hbetween).elim hb hab

/-- What is before `x`, last first. -/
def Falls (x : Point) (R : List Point) : Prop :=
  R.Pairwise (fun b a => a.time ≤ b.time ∧ ¬ a.Below b) ∧ ∀ b ∈ R, b.time ≤ x.time

/-- What is after `x`. -/
def Rises (x : Point) (R : List Point) : Prop :=
  R.Pairwise (fun b a => b.time ≤ a.time ∧ ¬ a.Below b) ∧ ∀ b ∈ R, x.time ≤ b.time

theorem Falls.tail (h : Falls x (b :: R)) : Falls x R := ⟨h.1.tail, fun a ha => h.2 a (mem_cons_of_mem b ha)⟩

theorem Rises.tail (h : Rises x (b :: R)) : Rises x R := ⟨h.1.tail, fun a ha => h.2 a (mem_cons_of_mem b ha)⟩

theorem Falls.filter_eq_self (h : Falls x (b :: R)) (hb : ¬ b.Below x) : (b :: R).filter (¬ ·.Below x) = b :: R := by
  refine SingleFilter.filter_eq_self (fun a ha => ?_) hb
  obtain ⟨hle, hab⟩ := rel_of_pairwise_cons h.1 ha
  exact ⟨.inl ⟨hle, h.2 b mem_cons_self⟩, hab⟩

theorem Rises.filter_eq_self (h : Rises x (b :: R)) (hb : ¬ b.Below x) : (b :: R).filter (¬ ·.Below x) = b :: R := by
  refine SingleFilter.filter_eq_self (fun a ha => ?_) hb
  obtain ⟨hle, hab⟩ := rel_of_pairwise_cons h.1 ha
  exact ⟨.inr ⟨h.2 b mem_cons_self, hle⟩, hab⟩

theorem backPropagate_eq (hf : f.frozenTime = none) :
    ∀ {R : List Point}, Falls x R → f.backPropagate x (R ++ [e]) = .ok (R.filter (¬ ·.Below x) ++ [e])
  | [], _ => rfl
  | b :: R, hR => by
      obtain ⟨a, R', hR'⟩ : ∃ a R', R ++ [e] = a :: R' := by cases R <;> simp
      have hpositive := slopeTooPositive_iff (hR.2 b mem_cons_self)
      by_cases hb : b.Below x
      · rw [cons_append, hR', backPropagate, if_pos (hpositive.mpr hb), if_neg (not_frozen_of_none hf _),
          ← hR', backPropagate_eq hf hR.tail]
        simp [hb]
      · rw [hR.filter_eq_self hb, cons_append, hR', backPropagate, if_neg (fun h => hb (hpositive.mp h))]

theorem removeSecond_eq : ∀ {A : List Point}, Rises x A → (A.Pairwise fun a b => ¬ a.Below b) →
    removeSecond x A = A.filter (¬ ·.Below x)
  | [], _, _ => rfl
  | [b], hA, _ => by
      have hnegative := slopeTooNegative_iff (hA.2 b mem_cons_self)
      by_cases hb : b.Below x <;> simp [removeSecond, hnegative, hb]
  | b :: a :: A, hA, hmax => by
      have hnegative := slopeTooNegative_iff (hA.2 b mem_cons_self)
      have hpositive := slopeTooPositive_iff (rel_of_pairwise_cons hA.1 mem_cons_self).1
      have hba : ¬ b.Below a := rel_of_pairwise_cons hmax mem_cons_self
      by_cases hb : b.Below x
      · rw [removeSecond, if_pos (hnegative.mpr hb), removeSecond_eq hA.tail hmax.tail]
        simp [hb]
      · rw [removeSecond, if_neg (fun h => hb (hnegative.mp h)), if_neg (fun h => hba (hpositive.mp h)),
          hA.filter_eq_self hb]

private theorem propagate_before (hf : f.frozenTime = none) {A : List Point}
    (hA : ∀ b ∈ A.head?, x.time ≤ b.time ∧ ¬ b.Below x) :
    ∀ {R : List Point}, Falls x R → f.propagate x (R ++ [e]) A = .ok (R.filter (¬ ·.Below x) ++ [e], A)
  | [], _ => by
      cases A with
      | nil => simp [propagate]
      | cons a A =>
        obtain ⟨hle, ha⟩ := hA a rfl
        simp [propagate, slopeTooNegative_iff hle, ha]
  | b :: R, hR => by
      have hpositive := slopeTooPositive_iff (hR.2 b mem_cons_self)
      have ih := propagate_before hf hA hR.tail
      by_cases hb : b.Below x
      · cases A with
        | nil => simp [propagate, hpositive, hb, hf, ih]
        | cons a A =>
          obtain ⟨hle, ha⟩ := hA a rfl
          simp [propagate, hpositive, slopeTooNegative_iff hle, ha, hb, hf, ih]
      · rw [hR.filter_eq_self hb]
        cases A with
        | nil => simp [propagate, hpositive, hb]
        | cons a A =>
          obtain ⟨hle, ha⟩ := hA a rfl
          simp [propagate, hpositive, slopeTooNegative_iff hle, ha, hb]

theorem propagate_eq (hf : f.frozenTime = none) (hR : Falls x R) :
    ∀ {A : List Point}, Rises x A →
      f.propagate x (R ++ [e]) A = .ok (R.filter (¬ ·.Below x) ++ [e], A.filter (¬ ·.Below x))
  | [], _ => propagate_before hf (by simp) hR
  | b :: A, hA => by
      have hle := hA.2 b mem_cons_self
      by_cases hb : b.Below x
      · obtain ⟨p, P, hP⟩ : ∃ p P, R ++ [e] = p :: P := by cases R <;> simp
        rw [hP, propagate, if_pos ((slopeTooNegative_iff hle).mpr hb), ← hP, propagate_eq hf hR hA.tail]
        simp [hb]
      · rw [propagate_before hf (by simpa using ⟨hle, hb⟩) hR, hA.filter_eq_self hb]

/-! ### One sample -/

section Envelope

variable {T A B : List Point}

variable {S : Set Point}

private theorem pairwise_tail (h : IsLine S (e :: T)) :
    T.Pairwise fun a b => a.time ≤ b.time ∧ ¬ a.Below b ∧ ¬ b.Below a := by
  have hmax : ∀ a ∈ T, ∀ b ∈ T, ¬ a.Below b := fun a ha b hb =>
    h.maximal_tail ha b (h.subset (mem_cons_of_mem e hb))
  exact List.Pairwise.imp_of_mem (fun ha hb hlt => ⟨hlt.le, hmax _ ha _ hb, hmax _ hb _ ha⟩) h.sorted.tail

private theorem falls_of_isLine (h : IsLine S (e :: (A ++ B)))
    (hA : ∀ a ∈ A, a.time < x.time) : Falls x A.reverse := by
  refine ⟨pairwise_reverse.mpr ?_, fun b hb => (hA b (mem_reverse.mp hb)).le⟩
  exact (pairwise_append.mp (pairwise_tail h)).1.imp fun hab => ⟨hab.1, hab.2.1⟩

private theorem rises_of_isLine (h : IsLine S (e :: (A ++ B))) (hB : ∀ b ∈ B, x.time ≤ b.time) : Rises x B :=
  ⟨(pairwise_append.mp (pairwise_tail h)).2.1.imp fun hab => ⟨hab.1, hab.2.2⟩, hB⟩

private theorem not_below_of_last {p : Point} {P : List Point}
    (h : IsLine {z | z ∈ e :: (A ++ B)} (e :: (A ++ B))) (hP : e :: A = P ++ [p])
    (hA : ∀ a ∈ e :: A, a.time ≤ x.time) (hp : ¬ x.Below p) : ∀ y ∈ e :: A, ¬ x.Below y := by
  intro y hy
  rw [hP] at hy
  rcases mem_append.mp hy with hy | hy
  · cases P with
    | nil => simp at hy
    | cons e' P =>
      rw [cons_append, cons.injEq] at hP
      obtain ⟨rfl, rfl⟩ := hP
      have hsorted := h.sorted
      rw [← cons_append, ← cons_append, append_assoc, pairwise_append] at hsorted
      have hlt := hsorted.2.2 y hy p (by simp)
      have hpy := h.maximal_tail (z := p) (by simp) y (by simp at hy ⊢; tauto)
      exact fun hxy => (cone.between hxy (.inr ⟨hlt.le, hA p (by simp)⟩)).elim hpy hp
  · rw [mem_singleton.mp hy]
    exact hp

theorem sample_append (hf : f.frozenTime = none) (hfully : f.fullyFrozen = false)
    (h : IsLine {z | z ∈ f.timestamps} f.timestamps) (hT : f.timestamps = e :: T)
    (hlast : ∀ a ∈ e :: T, a.time < x.time) :
    ∃ L, f.sample x = .ok { f with timestamps := L } ∧
      IsLine (Insert.insert x {z | z ∈ f.timestamps}) L := by
  obtain ⟨P, p, hP⟩ : ∃ P p, e :: T = P ++ [p] := by
    simpa using (eq_nil_or_concat (e :: T)).resolve_left (by simp)
  have hp : p ∈ e :: T := by rw [hP]; simp
  have hpx := hlast p hp
  have hback : f.timestamps.getLast? = some p := by rw [hT, hP]; simp
  have hdt : ¬ (x.time - p.time = 0 ∧ x.offset - p.offset = 0) := by omega
  rw [sample, hback]
  simp only [not_frozen_of_none hf, if_false, hdt, if_pos (show 0 < x.time - p.time by omega),
    slopeTooNegative_iff hpx.le]
  rw [hT] at h ⊢
  by_cases hbelow : x.Below p
  · refine ⟨e :: T, by rw [if_pos hbelow, ← hT], ?_⟩
    exact h.skip cone ⟨p, hp, hbelow⟩ ⟨p, hp, .inl hpx⟩
  · have h' : IsLine {z | z ∈ e :: (T ++ [])} (e :: (T ++ [])) := by simpa using h
    have hmax := not_below_of_last h' hP (fun a ha => (hlast a ha).le) hbelow
    have hsplice := h'.splice cone (x := x) (by simp) (by simpa using hmax) (hlast e mem_cons_self)
      (fun a ha => hlast a (mem_cons_of_mem e ha)) (by simp)
    have hfalls := falls_of_isLine h' fun a ha => hlast a (mem_cons_of_mem e ha)
    have hprop := backPropagate_eq (f := f) (e := e) hf hfalls
    refine ⟨e :: (T.filter (¬ ·.Below x) ++ [x]), ?_, by simpa using hsplice⟩
    rw [if_neg hbelow, if_neg (by simp [hfully]), reverse_cons, hprop]
    simp [bind, Except.bind, filter_reverse]

private theorem removeSecond_of_isLine (h : IsLine {z | z ∈ e :: T} (e :: T)) (hle : x.time ≤ e.time) :
    removeSecond x (e :: T) =
      (e :: T).filter (fun z => ¬ z.Below x ∧ ∀ y ∈ e :: T, ¬ z.Below y) := by
  have hlt : ∀ y ∈ T, e.time < y.time := fun y hy => rel_of_pairwise_cons h.sorted hy
  have hmax : ∀ z ∈ T, ∀ y ∈ e :: T, ¬ z.Below y := fun z hz => h.maximal_tail hz
  have hfilter : T.filter (fun z => ¬ z.Below x ∧ ∀ y ∈ e :: T, ¬ z.Below y) = T.filter (¬ ·.Below x) :=
    filter_congr fun z hz => by simpa using fun _ => hmax z hz
  have hrises : Rises x T := rises_of_isLine (A := []) h fun b hb => hle.trans (hlt b hb).le
  have hT := removeSecond_eq hrises ((pairwise_tail h).imp fun hab => hab.2.1)
  have hnegative := slopeTooNegative_iff hle
  rw [filter_cons, hfilter, ← hT]
  by_cases hex : e.Below x
  · rw [if_neg (by simp [hex])]
    cases T <;> simp [removeSecond, hnegative, hex]
  cases T with
  | nil => simp [removeSecond, hnegative, hex, cone.irrefl]
  | cons y T =>
    have hpositive := slopeTooPositive_iff (hlt y mem_cons_self).le
    by_cases hey : e.Below y
    · rw [removeSecond, if_neg (fun hneg => hex (hnegative.mp hneg)), if_pos (hpositive.mpr hey),
        if_neg (by simp [hey])]
    · have hemax : ∀ z ∈ e :: y :: T, ¬ e.Below z := by
        rintro z (_ | ⟨_, hz⟩)
        · exact cone.irrefl e
        · rcases mem_cons.mp hz with rfl | hz'
          · exact hey
          · have hyz := (rel_of_pairwise_cons (pairwise_tail h) hz').1
            exact fun hez => (cone.between hez (.inl ⟨(hlt y mem_cons_self).le, hyz⟩)).elim
              (hmax y mem_cons_self z (mem_cons_of_mem e hz)) hey
      have hkeep : ∀ z ∈ y :: T, ¬ z.Below x := fun z hz hzx =>
        (cone.between hzx (.inr ⟨hle, (hlt z hz).le⟩)).elim hex (hmax z hz e mem_cons_self)
      rw [if_pos (by simpa [hex] using hemax), hT, List.filter_eq_self.mpr (by simpa using hkeep), removeSecond,
        if_neg (fun hneg => hex (hnegative.mp hneg)), if_neg (fun hpos => hey (hpositive.mp hpos))]

theorem insert_front (hf : f.frozenTime = none)
    (h : IsLine {z | z ∈ f.timestamps} f.timestamps) (hT : f.timestamps = e :: T)
    (hnew : x ∉ f.timestamps) (hfirst : x.time ≤ e.time) :
    ∃ L, f.insert x [] (e :: T) = .ok { f with timestamps := L } ∧
      IsLine (Insert.insert x {z | z ∈ f.timestamps}) L := by
  rw [hT] at h hnew ⊢
  have hlt : ∀ y ∈ T, e.time < y.time := fun y hy => rel_of_pairwise_cons h.sorted hy
  have hle : ∀ y ∈ e :: T, x.time ≤ y.time := by
    rintro y (_ | ⟨_, hy⟩)
    · exact hfirst
    · exact hfirst.trans (hlt y hy).le
  have hne : x.time = e.time → x = e ∨ x.Below e ∨ e.Below x := cone.compare
  have hxe : x ≠ e := fun heq => hnew (heq ▸ mem_cons_self)
  simp only [insert, not_frozen_of_none hf, if_false]
  by_cases hredundant : e.time - x.time = 0 ∧ 0 ≤ e.offset - x.offset
  · have htime : x.time = e.time := by omega
    have hbelow : x.Below e := by
      refine ((hne htime).resolve_left hxe).resolve_right fun hex => ?_
      rw [below_iff] at hex
      omega
    refine ⟨e :: T, by rw [if_pos hredundant, ← hT], ?_⟩
    exact h.skip cone ⟨e, mem_cons_self, hbelow⟩ ⟨e, mem_cons_self, .inr ⟨htime.symm, hbelow⟩⟩
  · have hbest : ∀ y ∈ e :: T, y.time = x.time → y.Below x := by
      rintro y (_ | ⟨_, hy⟩) htime
      · refine ((hne htime.symm).resolve_left hxe).resolve_left fun hxe => ?_
        rw [below_iff] at hxe
        omega
      · have := hlt y hy
        omega
    refine ⟨_, by rw [if_neg hredundant], ?_⟩
    rw [removeSecond_of_isLine h hfirst]
    exact h.cons cone hle hbest

theorem insert_middle (hf : f.frozenTime = none) {n : Point} (h : IsLine {z | z ∈ f.timestamps} f.timestamps)
    (hT : f.timestamps = e :: (A ++ n :: B)) (hnew : x ∉ f.timestamps) (hA : ∀ a ∈ e :: A, a.time < x.time)
    (hB : ∀ b ∈ n :: B, x.time ≤ b.time) :
    ∃ L, f.insert x (e :: A).reverse (n :: B) = .ok { f with timestamps := L } ∧
      IsLine (Insert.insert x {z | z ∈ f.timestamps}) L := by
  obtain ⟨P, p, hP⟩ : ∃ P p, e :: A = P ++ [p] := by
    simpa using (eq_nil_or_concat (e :: A)).resolve_left (by simp)
  have hpA : p ∈ e :: A := by rw [hP]; simp
  have hpmem : p ∈ e :: (A ++ n :: B) := by
    rw [← cons_append]
    exact mem_append_left _ hpA
  have hnmem : n ∈ A ++ n :: B := by simp
  have hpx := hA p hpA
  have hxn := hB n mem_cons_self
  rw [hT] at h hnew ⊢
  have hreverse : (e :: A).reverse = p :: P.reverse := by rw [hP]; simp
  rw [hreverse]
  simp only [insert, not_frozen_of_none hf, if_false, slopeTooNegative_iff hpx.le, slopeTooPositive_iff hxn]
  by_cases hbelow : x.Below p
  · refine ⟨e :: (A ++ n :: B), by rw [if_pos hbelow, ← hT], ?_⟩
    exact h.skip cone ⟨p, hpmem, hbelow⟩ ⟨p, hpmem, .inl hpx⟩
  by_cases hbelow' : x.Below n
  · refine ⟨e :: (A ++ n :: B), by rw [if_neg hbelow, if_pos hbelow', ← hT], ?_⟩
    exact h.skip cone ⟨n, mem_cons_of_mem e hnmem, hbelow'⟩ ⟨p, hpmem, .inl hpx⟩
  have hmax : ∀ y ∈ e :: (A ++ n :: B), ¬ x.Below y := by
    intro y hy
    rw [← cons_append] at hy
    rcases mem_append.mp hy with hyA | hyB
    · exact not_below_of_last h hP (fun a ha => (hA a ha).le) hbelow y hyA
    · rcases mem_cons.mp hyB with rfl | hyB'
      · exact hbelow'
      · have hny := (rises_of_isLine h hB).1
        have hny := (rel_of_pairwise_cons hny hyB').1
        exact fun hxy => (cone.between hxy (.inl ⟨hxn, hny⟩)).elim (h.maximal_tail hnmem y hy) hbelow'
  have hsplice := h.splice cone (fun hxB => hnew (by simp at hxB ⊢; tauto)) hmax
    (hA e mem_cons_self) (fun a ha => hA a (mem_cons_of_mem e ha)) hB
  have hfalls := falls_of_isLine h fun a ha => hA a (mem_cons_of_mem e ha)
  have hprop := propagate_eq (f := f) (e := e) hf hfalls (rises_of_isLine h hB)
  refine ⟨_, ?_, hsplice⟩
  rw [if_neg hbelow, if_neg hbelow', ← hreverse, reverse_cons, hprop]
  simp [bind, Except.bind, filter_reverse]

theorem sample_isLine (hf : f.frozenTime = none) (hfully : f.fullyFrozen = false)
    (h : IsLine {z | z ∈ f.timestamps} f.timestamps) (hnew : x ∉ f.timestamps) :
    ∃ L, f.sample x = .ok { f with timestamps := L } ∧ IsLine (Insert.insert x {z | z ∈ f.timestamps}) L := by
  cases hts : f.timestamps with
  | nil =>
    refine ⟨[x], by simp [sample, hts, hfully], ?_⟩
    simpa using IsEnvelope.singleton Point.cone x
  | cons e T =>
    rw [← hts]
    by_cases hlast : ∀ a ∈ e :: T, a.time < x.time
    · exact sample_append hf hfully h hts hlast
    obtain ⟨P, back, hP⟩ : ∃ P p, f.timestamps = P ++ [p] := by
      simpa [hts] using (eq_nil_or_concat f.timestamps).resolve_left (by simp [hts])
    have hback : f.timestamps.getLast? = some back := by rw [hP]; simp
    have hbackmem : back ∈ f.timestamps := by rw [hP]; simp
    -- the last element is not before `x`, or all would be
    have hle : x.time ≤ back.time := by
      push Not at hlast
      obtain ⟨a, ha, hxa⟩ := hlast
      have hsorted := h.sorted
      rw [← hts, hP] at ha
      rw [hP] at hsorted
      rcases mem_append.mp ha with ha | ha
      · exact hxa.trans ((pairwise_append.mp hsorted).2.2 a ha back (by simp)).le
      · exact hxa.trans_eq (congrArg _ (mem_singleton.mp ha))
    have hdup : ¬ (x.time - back.time = 0 ∧ x.offset - back.offset = 0) := by
      rintro ⟨htime, hoffset⟩
      have heq : x = back := by
        cases x; cases back; simp only [Point.mk.injEq] at htime hoffset ⊢; omega
      exact hnew (heq ▸ hbackmem)
    have hsample : f.sample x =
        f.insert x (f.timestamps.takeWhile (·.time < x.time)).reverse (f.timestamps.dropWhile (·.time < x.time)) := by
      rw [sample, hback]
      simp only [not_frozen_of_none hf, if_false, hdup, if_neg (show ¬ 0 < x.time - back.time by omega)]
    rw [hsample]
    by_cases hfirst : x.time ≤ e.time
    · have hsplit : f.timestamps.takeWhile (·.time < x.time) = [] ∧
          f.timestamps.dropWhile (·.time < x.time) = e :: T := by
        simp [hts, hfirst]
      rw [hsplit.1, hsplit.2]
      exact insert_front hf h hts hnew hfirst
    · have hsplit : f.timestamps.takeWhile (·.time < x.time) = e :: T.takeWhile (·.time < x.time) ∧
          f.timestamps.dropWhile (·.time < x.time) = T.dropWhile (·.time < x.time) := by
        simp [hts, not_le.mp hfirst]
      have hA : ∀ a ∈ e :: T.takeWhile (·.time < x.time), a.time < x.time := by
        rintro a (_ | ⟨_, ha⟩)
        · exact not_le.mp hfirst
        · simpa using mem_takeWhile_imp ha
      have happend := takeWhile_append_dropWhile (p := fun p : Point => p.time < x.time) (l := T)
      rw [hsplit.1, hsplit.2]
      cases hdrop : T.dropWhile (·.time < x.time) with
      | nil =>
        rw [hdrop, append_nil] at happend
        exact absurd (happend ▸ hA) hlast
      | cons n B =>
        rw [hdrop] at happend
        refine insert_middle hf h (hts.trans (congrArg _ happend.symm)) hnew hA fun b hb => ?_
        have hn : x.time ≤ n.time := by
          have := head?_dropWhile_not (p := fun p : Point => p.time < x.time) (l := T)
          simpa [hdrop] using this
        rcases mem_cons.mp hb with rfl | hb
        · exact hn
        · have hsorted := h.sorted.tail
          rw [hts, tail_cons, ← happend] at hsorted
          exact hn.trans (rel_of_pairwise_cons (pairwise_append.mp hsorted).2.1 hb).le

end Envelope

/-- Passing samples one after the other to `Sample`. -/
def sampleAll (f : SingleFilter) (samples : List Point) : Except FilterCheck SingleFilter :=
  samples.foldlM sample f

theorem sampleAll_isLine (samples : List Point) :
    ∀ {f : SingleFilter} {S : Set Point}, S.Finite → f.frozenTime = none → f.fullyFrozen = false →
      IsLine S f.timestamps → samples.Nodup → (∀ x ∈ samples, x ∉ S) →
      ∃ L, f.sampleAll samples = .ok { f with timestamps := L } ∧ IsLine (S ∪ {x | x ∈ samples}) L := by
  induction samples with
  | nil =>
    intro f S _ _ _ h _ _
    exact ⟨f.timestamps, rfl, by simpa using h⟩
  | cons x samples ih =>
    intro f S hfinite hf hfully h hnodup hnew
    obtain ⟨hx, hnodup⟩ := nodup_cons.mp hnodup
    have hxS : x ∉ S := hnew x mem_cons_self
    obtain ⟨L, hsample, hL⟩ := sample_isLine hf hfully h.self fun hxL => hxS (h.subset hxL)
    have hL : IsLine (Insert.insert x S) L := h.insert cone hfinite hL
    obtain ⟨L', hall, hL'⟩ := ih (f := { f with timestamps := L }) (hfinite.insert x) hf hfully hL hnodup
      fun y hy => by
        rintro (rfl | hyS)
        · exact hx hy
        · exact hnew y (mem_cons_of_mem x hy) hyS
    refine ⟨L', ?_, ?_⟩
    · rw [sampleAll, foldlM_cons, hsample]
      exact hall
    · convert hL' using 1
      ext y
      simp only [Set.mem_union, Set.mem_insert_iff, Set.mem_ofPred_eq, mem_cons]
      tauto

/-- Distinct samples give the same filter in any order: those below no other sample, and the best of the earliest time. -/
theorem sampleAll_order_independent {samples samples' : List Point} (hdistinct : samples.Nodup)
    (hperm : samples.Perm samples') :
    ∃ f, initial.sampleAll samples = .ok f ∧ initial.sampleAll samples' = .ok f ∧
      IsLine {p | p ∈ samples} f.timestamps := by
  have hline : ∀ {l : List Point}, l.Nodup →
      ∃ L, initial.sampleAll l = .ok { initial with timestamps := L } ∧ IsLine {p | p ∈ l} L := fun hl => by
    simpa using sampleAll_isLine _ Set.finite_empty rfl rfl (IsEnvelope.nil) hl (by simp)
  obtain ⟨L, hsamples, hL⟩ := hline hdistinct
  obtain ⟨L', hsamples', hL'⟩ := hline (hperm.nodup_iff.mp hdistinct)
  have hset : {p | p ∈ samples'} = {p | p ∈ samples} := Set.ext fun p => hperm.symm.mem_iff
  obtain rfl : L = L' := hL.unique (hset ▸ hL')
  exact ⟨_, hsamples, hsamples', hL⟩

/-- Three samples, of which the middle one is removed, first to last and last to first. -/
theorem sampleAll_order_independent_reversed :
    ∃ f, initial.sampleAll [⟨0, 0⟩, ⟨1000, -3⟩, ⟨2000, 1⟩] = .ok f ∧
      initial.sampleAll [⟨2000, 1⟩, ⟨1000, -3⟩, ⟨0, 0⟩] = .ok f ∧
      IsLine {p | p ∈ [⟨0, 0⟩, ⟨1000, -3⟩, ⟨2000, 1⟩]} f.timestamps :=
  sampleAll_order_independent (by decide) (by decide)

end SingleFilter

end RobotCode.Network
