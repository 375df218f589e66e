import Mathlib

/-!
# Envelopes of measurements

Measurements carry a time, and one can lie strictly below what another allows. The envelope of a set of
measurements are those that lie below no other one, in the order of their times. The first measurement is
kept in any case, because nothing before it bounds it. The envelope can be computed one measurement at a
time, since what a discarded one would discard is discarded by a kept one as well.
-/

namespace RobotCode.Envelope

open List

variable {α ι : Type*} [LinearOrder ι] (time : α → ι) (below : α → α → Prop)

/-- What is used of `below`. The last two laws hold for cones: a measurement between two others in time is above the lower or
below the higher one, and two at the same time compare. -/
structure Cone : Prop where
  irrefl : ∀ a, ¬ below a a
  trans : ∀ {a b c}, below a b → below b c → below a c
  between : ∀ {a b c}, below a c →
    (time a ≤ time b ∧ time b ≤ time c ∨ time c ≤ time b ∧ time b ≤ time a) → below b c ∨ below a b
  compare : ∀ {a b}, time a = time b → a = b ∨ below a b ∨ below b a

def IsFirst (S : Set α) (x : α) : Prop :=
  ∀ y ∈ S, time x ≤ time y ∧ (time y = time x → ¬ below x y)

/-- `L` is the envelope of `S`. -/
structure IsEnvelope (S : Set α) (L : List α) : Prop where
  sorted : L.Pairwise (time · < time ·)
  mem_iff : ∀ z, z ∈ L ↔ z ∈ S ∧ (IsFirst time below S z ∨ ∀ y ∈ S, ¬ below z y)

variable {time below} {S S' : Set α} {L L' : List α} {x y z : α}

theorem IsFirst.mono (h : IsFirst time below S x) (hsub : S' ⊆ S) : IsFirst time below S' x :=
  fun y hy => h y (hsub hy)

theorem Cone.exists_maximal (c : Cone time below) (hS : S.Finite) (hy : y ∈ S) (hbelow : below z y) :
    ∃ m ∈ S, below z m ∧ ∀ w ∈ S, ¬ below m w := by
  have hstrict : IsStrictOrder α fun a b => below b a :=
    { irrefl := c.irrefl, trans := fun _ _ _ hab hbc => c.trans hbc hab }
  have hwf : S.WellFoundedOn fun a b => below b a := hS.wellFoundedOn
  revert hbelow
  refine hwf.induction (P := fun y => below z y → _) hy fun y hy ih hbelow => ?_
  by_cases hmax : ∀ w ∈ S, ¬ below y w
  · exact ⟨y, hy, hbelow, hmax⟩
  · push Not at hmax
    obtain ⟨w, hw, hyw⟩ := hmax
    exact ih w hw hyw (c.trans hbelow hyw)

theorem Cone.exists_isFirst (c : Cone time below) (hS : S.Finite) (hne : S.Nonempty) :
    ∃ h ∈ S, IsFirst time below S h := by
  obtain ⟨a, ha, hmin⟩ := Set.exists_min_image S time hS hne
  have hsub : S ∩ {y | time y = time a} ⊆ S := Set.inter_subset_left
  by_cases hmax : ∀ y ∈ S ∩ {y | time y = time a}, ¬ below a y
  · exact ⟨a, ha, fun y hy => ⟨hmin y hy, fun htime => hmax y ⟨hy, htime⟩⟩⟩
  · push Not at hmax
    obtain ⟨y, hy, hay⟩ := hmax
    obtain ⟨m, hm, -, hmax⟩ := c.exists_maximal (hS.subset hsub) hy hay
    refine ⟨m, hm.1, fun w hw => ⟨hm.2 ▸ hmin w hw, fun htime => hmax w ⟨hw, ?_⟩⟩⟩
    exact htime.trans hm.2

/-- A first element of a set stays one when elements are added that are not better than a first one. -/
theorem Cone.isFirst_of_isFirst (c : Cone time below) {h : α} (hh : h ∈ S) (hfirst : IsFirst time below S' h)
    (hz : IsFirst time below S z) : IsFirst time below S' z := by
  intro y hy
  obtain ⟨hhy, hbest⟩ := hfirst y hy
  obtain ⟨hzh, hzbest⟩ := hz h hh
  refine ⟨hzh.trans hhy, fun htime hbelow => ?_⟩
  have hzh' : time z = time h := le_antisymm hzh (hhy.trans htime.le)
  have hhy' : time y = time h := htime.trans hzh'
  obtain rfl | hlow | hhigh := c.compare hzh'
  · exact hbest hhy' hbelow
  · exact hzbest hzh'.symm hlow
  · exact hbest hhy' (c.trans hhigh hbelow)

theorem IsEnvelope.subset (h : IsEnvelope time below S L) (hz : z ∈ L) : z ∈ S := ((h.mem_iff z).mp hz).1

theorem IsEnvelope.unique (h : IsEnvelope time below S L) (h' : IsEnvelope time below S L') : L = L' := by
  have hnodup : ∀ {M : List α}, M.Pairwise (time · < time ·) → M.Nodup := fun hM =>
    hM.imp fun hlt heq => (heq ▸ hlt).false
  have hperm : L.Perm L' :=
    (perm_ext_iff_of_nodup (hnodup h.sorted) (hnodup h'.sorted)).mpr fun z =>
      (h.mem_iff z).trans (h'.mem_iff z).symm
  exact hperm.eq_of_pairwise (fun a b _ _ hab hba => (lt_asymm hab hba).elim) h.sorted h'.sorted

theorem IsEnvelope.self (h : IsEnvelope time below S L) : IsEnvelope time below {z | z ∈ L} L := by
  refine ⟨h.sorted, fun z => ⟨fun hz => ⟨hz, ?_⟩, fun hz => hz.1⟩⟩
  exact ((h.mem_iff z).mp hz).2.imp (fun hfirst => hfirst.mono fun _ => h.subset)
    fun hmax y hy => hmax y (h.subset hy)

theorem IsEnvelope.insert (c : Cone time below) (hS : S.Finite) (h : IsEnvelope time below S L)
    (h' : IsEnvelope time below (insert x {z | z ∈ L}) L') : IsEnvelope time below (insert x S) L' := by
  have hsub : Insert.insert x {z | z ∈ L} ⊆ Insert.insert x S := Set.insert_subset_insert fun _ => h.subset
  refine ⟨h'.sorted, fun z => (h'.mem_iff z).trans ⟨fun ⟨hz, hkeep⟩ => ⟨hsub hz, ?_⟩, fun ⟨hz, hkeep⟩ => ⟨?_, ?_⟩⟩⟩
  · -- what bounds `z` in `S` is kept, or is bounded by something that is
    refine hkeep.imp (fun hfirst y hy => ?_) fun hmax y hy hbelow => ?_
    · rcases hy with rfl | hy
      · exact hfirst y (Set.mem_insert y _)
      · obtain ⟨e, he, hefirst⟩ := c.exists_isFirst hS ⟨y, hy⟩
        have heL : e ∈ Insert.insert x {z | z ∈ L} := Or.inr ((h.mem_iff e).mpr ⟨he, .inl hefirst⟩)
        exact c.isFirst_of_isFirst heL hefirst hfirst y hy
    · rcases hy with rfl | hy
      · exact hmax y (Set.mem_insert y _) hbelow
      · obtain ⟨m, hm, hzm, hmmax⟩ := c.exists_maximal hS hy hbelow
        exact hmax m (Or.inr ((h.mem_iff m).mpr ⟨hm, .inr hmmax⟩)) hzm
  · rcases hz with rfl | hz
    · exact Set.mem_insert z _
    · refine Or.inr ((h.mem_iff z).mpr ⟨hz, ?_⟩)
      exact hkeep.imp (fun hfirst => hfirst.mono (Set.subset_insert x S))
        fun hmax y hy => hmax y (Set.mem_insert_of_mem x hy)
  · exact hkeep.imp (fun hfirst => hfirst.mono hsub) fun hmax y hy => hmax y (hsub hy)

theorem IsEnvelope.nil : IsEnvelope time below ∅ [] := ⟨List.Pairwise.nil, fun z => by simp⟩

theorem IsEnvelope.singleton (c : Cone time below) (x : α) : IsEnvelope time below {x} [x] := by
  refine ⟨pairwise_singleton _ x, fun z => ?_⟩
  simp only [mem_singleton, Set.mem_singleton_iff]
  refine ⟨fun hz => ⟨hz, .inr fun y hy => ?_⟩, fun hz => hz.1⟩
  exact hz ▸ hy ▸ c.irrefl x

/-! ### Adding a measurement -/

section Head

variable {e : α} {T : List α}

theorem IsEnvelope.isFirst_head (c : Cone time below) (hS : S.Finite) (h : IsEnvelope time below S (e :: T)) :
    IsFirst time below S e := by
  obtain ⟨f, hf, hfirst⟩ := c.exists_isFirst hS ⟨e, h.subset mem_cons_self⟩
  have hmem : f ∈ e :: T := (h.mem_iff f).mpr ⟨hf, .inl hfirst⟩
  rcases mem_cons.mp hmem with rfl | hT
  · exact hfirst
  · have hlt := rel_of_pairwise_cons h.sorted hT
    exact absurd (hfirst e (h.subset mem_cons_self)).1 hlt.not_ge

theorem IsEnvelope.maximal_tail (h : IsEnvelope time below S (e :: T)) (hz : z ∈ T) : ∀ y ∈ S, ¬ below z y := by
  have hlt := rel_of_pairwise_cons h.sorted hz
  rcases ((h.mem_iff z).mp (mem_cons_of_mem e hz)).2 with hfirst | hmax
  · exact absurd (hfirst e (h.subset mem_cons_self)).1 hlt.not_ge
  · exact hmax

end Head

theorem IsEnvelope.skip (c : Cone time below) (h : IsEnvelope time below {z | z ∈ L} L)
    (hbelow : ∃ y ∈ L, below x y) (hfirst : ∃ y ∈ L, time y < time x ∨ time y = time x ∧ below x y) :
    IsEnvelope time below (Insert.insert x {z | z ∈ L}) L := by
  obtain ⟨y, hy, hxy⟩ := hbelow
  obtain ⟨e, he, hex⟩ := hfirst
  have hle : time e ≤ time x := hex.elim le_of_lt fun heq => heq.1.le
  refine ⟨h.sorted, fun z => ⟨fun hz => ⟨Or.inr hz, ?_⟩, fun ⟨hz, hkeep⟩ => ?_⟩⟩
  · refine ((h.mem_iff z).mp hz).2.imp (fun hz => ?_) fun hmax w hw hzw => ?_
    · rintro w (rfl | hw)
      · have hzw := (hz e he).1
        refine ⟨hzw.trans hle, fun htime hbelow => ?_⟩
        rcases hex with hlt | ⟨heq, hbest⟩
        · exact hlt.not_ge (htime.le.trans hzw)
        · exact (hz e he).2 (heq.trans htime) (c.trans hbelow hbest)
      · exact hz w hw
    · rcases hw with rfl | hw
      · exact hmax y hy (c.trans hzw hxy)
      · exact hmax w hw hzw
  · rcases hz with rfl | hz
    · rcases hkeep with hz | hmax
      · rcases hex with hlt | ⟨heq, hbest⟩
        · exact absurd (hz e (Or.inr he)).1 hlt.not_ge
        · exact absurd hbest ((hz e (Or.inr he)).2 heq)
      · exact absurd hxy (hmax y (Or.inr hy))
    · exact hz

variable [DecidableRel below]

theorem IsEnvelope.splice (c : Cone time below) {e : α} {A B : List α}
    (h : IsEnvelope time below {z | z ∈ e :: (A ++ B)} (e :: (A ++ B))) (hnew : x ∉ B)
    (hmax : ∀ y ∈ e :: (A ++ B), ¬ below x y) (he : time e < time x) (hA : ∀ a ∈ A, time a < time x)
    (hB : ∀ b ∈ B, time x ≤ time b) :
    IsEnvelope time below (Insert.insert x {z | z ∈ e :: (A ++ B)})
      (e :: (A.filter (¬ below · x) ++ x :: B.filter (¬ below · x))) := by
  have hfirst := h.isFirst_head c (finite_toSet _)
  have hAB := (pairwise_cons.mp h.sorted).2
  refine ⟨?_, fun z => ?_⟩
  · have hlt : ∀ b ∈ B.filter (¬ below · x), time x < time b := by
      intro b hb
      obtain ⟨hb, hkeep⟩ : b ∈ B ∧ ¬ below b x := by simpa using hb
      refine (hB b hb).lt_of_ne fun heq => ?_
      obtain rfl | hlow | hhigh := c.compare heq
      · exact hnew hb
      · exact hmax b (by simp [hb]) hlow
      · exact hkeep hhigh
    rw [pairwise_append] at hAB
    rw [pairwise_cons, pairwise_append, pairwise_cons]
    refine ⟨fun z hz => ?_, hAB.1.filter _, ⟨hlt, hAB.2.1.filter _⟩, fun a ha b hb => ?_⟩
    · rcases mem_append.mp hz with hz | hz
      · exact rel_of_pairwise_cons h.sorted (mem_append_left B (mem_of_mem_filter hz))
      · rcases mem_cons.mp hz with rfl | hz
        · exact he
        · exact rel_of_pairwise_cons h.sorted (mem_append_right A (mem_of_mem_filter hz))
    · have hax := hA a (mem_of_mem_filter ha)
      rcases mem_cons.mp hb with rfl | hb
      · exact hax
      · exact hax.trans (hlt b hb)
  · have hkept : ∀ w ∈ A ++ B, ¬ below w x → ∀ y ∈ Insert.insert x {z | z ∈ e :: (A ++ B)}, ¬ below w y := by
      rintro w hw hwx y (rfl | hy)
      · exact hwx
      · exact h.maximal_tail hw y hy
    constructor
    · intro hz
      rcases mem_cons.mp hz with rfl | hz
      · refine ⟨Or.inr mem_cons_self, .inl ?_⟩
        rintro y (rfl | hy)
        · exact ⟨he.le, fun heq => absurd heq he.ne'⟩
        · exact hfirst y hy
      · rcases mem_append.mp hz with hz | hz
        · obtain ⟨hz, hkeep⟩ : z ∈ A ∧ ¬ below z x := by simpa using hz
          exact ⟨by simp [hz], .inr (hkept z (mem_append_left B hz) hkeep)⟩
        · rcases mem_cons.mp hz with rfl | hz
          · refine ⟨Set.mem_insert z _, .inr ?_⟩
            rintro y (rfl | hy)
            · exact c.irrefl y
            · exact hmax y hy
          · obtain ⟨hz, hkeep⟩ : z ∈ B ∧ ¬ below z x := by simpa using hz
            exact ⟨by simp [hz], .inr (hkept z (mem_append_right A hz) hkeep)⟩
    · rintro ⟨rfl | hz, hkeep⟩
      · simp
      · rcases mem_cons.mp hz with rfl | hz
        · exact mem_cons_self
        · have hez := rel_of_pairwise_cons h.sorted hz
          have hzx : ¬ below z x := by
            rcases hkeep with hzfirst | hzmax
            · exact absurd (hzfirst e (by simp)).1 hez.not_ge
            · exact hzmax x (Set.mem_insert x _)
          rcases mem_append.mp hz with hz | hz <;> simp [hz, hzx]

/-- A measurement before all others becomes the first, and what was the first can go. -/
theorem IsEnvelope.cons (c : Cone time below) (h : IsEnvelope time below {z | z ∈ L} L)
    (hle : ∀ y ∈ L, time x ≤ time y) (hbest : ∀ y ∈ L, time y = time x → below y x) :
    IsEnvelope time below (Insert.insert x {z | z ∈ L})
      (x :: L.filter (fun z => ¬ below z x ∧ ∀ y ∈ L, ¬ below z y)) := by
  have hmem : ∀ z, z ∈ L.filter (fun z => ¬ below z x ∧ ∀ y ∈ L, ¬ below z y) ↔
      z ∈ L ∧ ¬ below z x ∧ ∀ y ∈ L, ¬ below z y := by
    intro z
    rw [mem_filter, decide_eq_true_iff]
  refine ⟨pairwise_cons.mpr ⟨fun z hz => ?_, h.sorted.filter _⟩, fun z => ?_⟩
  · obtain ⟨hz, hzx, -⟩ := (hmem z).mp hz
    exact (hle z hz).lt_of_ne fun heq => hzx (hbest z hz heq.symm)
  · rw [mem_cons, hmem]
    constructor
    · rintro (rfl | ⟨hz, hzx, hzmax⟩)
      · refine ⟨Set.mem_insert z _, .inl ?_⟩
        rintro y (rfl | hy)
        · exact ⟨le_rfl, fun _ => c.irrefl y⟩
        · exact ⟨hle y hy, fun heq hbelow => c.irrefl z (c.trans hbelow (hbest y hy heq))⟩
      · refine ⟨Or.inr hz, .inr ?_⟩
        rintro y (rfl | hy)
        · exact hzx
        · exact hzmax y hy
    · rintro ⟨rfl | hz, hkeep⟩
      · exact .inl rfl
      · refine .inr ⟨hz, ?_⟩
        rcases hkeep with hzfirst | hzmax
        · -- only `x` itself is first
          obtain ⟨hzx, hzbest⟩ := hzfirst x (Set.mem_insert x _)
          have heq := le_antisymm hzx (hle z hz)
          exact absurd (hbest z hz heq) (hzbest heq.symm)
        · exact ⟨hzmax x (Set.mem_insert x _), fun y hy => hzmax y (Or.inr hy)⟩

end RobotCode.Envelope
