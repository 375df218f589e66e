import RobotCode.Network.Freezing

/-!
# The slopes of the line

Between any two neighbours of a filter the offset does not fall faster than the clocks can drift apart, and except
after the first it does not rise faster either. A sample that would break this removes neighbours on both sides
until it does not. Removing a neighbour never joins two timestamps that do not belong together: what is taken out
was below the line from one side to the other.
-/

namespace RobotCode.Network

open List Fallible

def NoFall (p q : Point) : Prop := p.time ≤ q.time ∧ ¬ SlopeTooNegative (q.time - p.time) (q.offset - p.offset)

def NoRise (p q : Point) : Prop := ¬ SlopeTooPositive (q.time - p.time) (q.offset - p.offset)

variable {p x q : Point} {before L : List Point}

/-- A timestamp below the line on its right side is not needed on its left side. -/
theorem NoFall.skip (h : NoFall p q) (hle : q.time ≤ x.time)
    (hrise : SlopeTooPositive (x.time - q.time) (x.offset - q.offset)) : NoFall p x := by
  unfold NoFall SlopeTooNegative SlopeTooPositive at *
  omega

/-- A timestamp below the line on its left side is not needed on its right side. -/
theorem NoRise.skip (h : NoRise p q) (hle : x.time ≤ p.time)
    (hfall : SlopeTooNegative (p.time - x.time) (p.offset - x.offset)) : NoRise x q := by
  unfold NoRise SlopeTooNegative SlopeTooPositive at *
  omega

structure Sloped (L : List Point) : Prop where
  noFall : L.IsChain NoFall
  noRise : L.tail.IsChain NoRise

/-- What is before `x`, last first: all neighbours are as they should be, and the very first may rise too fast. -/
def SlopedBack : Point → List Point → Prop
  | _, [] => True
  | x, [p] => NoFall p x
  | x, p :: q :: rest => NoFall p x ∧ NoRise p x ∧ SlopedBack p (q :: rest)

theorem SlopedBack.noFall (h : SlopedBack x (p :: before)) : NoFall p x := by
  cases before with
  | nil => exact h
  | cons q rest => exact h.1

theorem SlopedBack.tail (h : SlopedBack x (p :: before)) : SlopedBack p before := by
  cases before with
  | nil => trivial
  | cons q rest => exact h.2.2

theorem SlopedBack.cons (hfall : NoFall p x) (hback : SlopedBack p before)
    (hrise : ¬ (before ≠ [] ∧ SlopeTooPositive (x.time - p.time) (x.offset - p.offset))) :
    SlopedBack x (p :: before) := by
  cases before with
  | nil => exact hfall
  | cons q rest => exact ⟨hfall, fun hpositive => hrise ⟨cons_ne_nil q rest, hpositive⟩, hback⟩

theorem isChain_and_iff : (L.IsChain fun p q => NoFall p q ∧ NoRise p q) ↔ L.IsChain NoFall ∧ L.IsChain NoRise := by
  simp only [isChain_iff_forall_rel_of_append_cons_cons]
  exact ⟨fun h => ⟨fun _ _ _ _ heq => (h heq).1, fun _ _ _ _ heq => (h heq).2⟩,
    fun h _ _ _ _ heq => ⟨h.1 heq, h.2 heq⟩⟩

theorem sloped_append_iff {after : List Point} (hne : before ≠ []) : Sloped (before.reverse ++ x :: after) ↔
      SlopedBack x before ∧ (x :: after).IsChain fun p q => NoFall p q ∧ NoRise p q := by
  induction before generalizing x after with
  | nil => exact absurd rfl hne
  | cons p before ih =>
    cases before with
    | nil =>
      change Sloped (p :: x :: after) ↔ NoFall p x ∧ _
      rw [isChain_and_iff]
      constructor
      · intro h
        have hfall := isChain_cons_cons.mp h.noFall
        exact ⟨hfall.1, hfall.2, h.noRise⟩
      · rintro ⟨hp, hfall, hrise⟩
        exact ⟨isChain_cons_cons.mpr ⟨hp, hfall⟩, hrise⟩
    | cons q rest =>
      have hshift : (p :: q :: rest).reverse ++ x :: after = (q :: rest).reverse ++ p :: x :: after := by
        rw [reverse_cons, append_assoc]
        rfl
      rw [hshift, ih (cons_ne_nil q rest), isChain_cons_cons]
      constructor
      · rintro ⟨hback, ⟨hfall, hrise⟩, hafter⟩
        exact ⟨⟨hfall, hrise, hback⟩, hafter⟩
      · rintro ⟨⟨hfall, hrise, hback⟩, hafter⟩
        exact ⟨hback, ⟨hfall, hrise⟩, hafter⟩

/-! ### The three ways to add a timestamp -/

namespace SingleFilter

variable {f f' : SingleFilter} {x : Point}

variable {before : List Point}

theorem backPropagate_sloped {back : Point} {kept : List Point} (hfall : NoFall back x)
    (hback : SlopedBack back before) (h : f.backPropagate x (back :: before) = .ok kept) :
    kept ≠ [] ∧ SlopedBack x kept := by
  induction before generalizing back with
  | nil =>
    cases h
    exact ⟨cons_ne_nil _ _, hfall⟩
  | cons p before ih =>
    rw [backPropagate] at h
    split at h
    · rename_i hrise
      split at h
      · cases h
      · exact ih (hback.noFall.skip hfall.1 hrise) hback.tail h
    · rename_i hrise
      cases h
      exact ⟨cons_ne_nil _ _, hfall, hrise, hback⟩

theorem removeSecond_sloped {L : List Point} (hslopes : Sloped L) (hle : ∀ p ∈ L.head?, x.time ≤ p.time) :
    Sloped (x :: removeSecond x L) := by
  fun_induction removeSecond x L with
  | case1 | case2 => exact ⟨isChain_singleton _, isChain_nil⟩
  | case3 second hfall => exact ⟨isChain_pair.mpr ⟨hle second rfl, hfall⟩, isChain_singleton _⟩
  | case4 second third rest hfall ih | case5 second third rest hfall hrise ih =>
    obtain ⟨hnoFall, hrest⟩ := isChain_cons_cons.mp hslopes.noFall
    refine ih ⟨hrest, hslopes.noRise.tail⟩ ?_
    rintro p ⟨⟩
    exact (hle second rfl).trans hnoFall.1
  | case6 second third rest hfall hrise =>
    exact ⟨isChain_cons_cons.mpr ⟨⟨hle second rfl, hfall⟩, hslopes.noFall⟩,
      isChain_cons_cons.mpr ⟨hrise, hslopes.noRise⟩⟩

theorem propagate_sloped {after before' after' : List Point} (hne : before ≠ [])
    (hfall : ∀ p ∈ before.head?, NoFall p x) (hback : ∀ p rest, before = p :: rest → SlopedBack p rest)
    (hafter : after.IsChain fun p q => NoFall p q ∧ NoRise p q)
    (hnext : ∀ p ∈ after.head?, x.time ≤ p.time ∧ NoRise x p)
    (h : f.propagate x before after = .ok (before', after')) :
    before' ≠ [] ∧ SlopedBack x before' ∧ (x :: after').IsChain fun p q => NoFall p q ∧ NoRise p q := by
  fun_induction propagate f x before after with
  | case1 after => exact absurd rfl hne
  | case2 prior before next after hnegative ih =>
    have hnext' := hnext next rfl
    refine ih hne hfall hback hafter.tail ?_ h
    intro p hp
    obtain ⟨hnp, -⟩ := isChain_cons.mp hafter
    obtain ⟨hfall', hrise'⟩ := hnp p hp
    exact ⟨hnext'.1.trans hfall'.1, hrise'.skip hnext'.1 hnegative⟩
  | case3 | case6 => cases h
  | case4 prior before next after hnegative hpositive hfrozen ih | case7 prior before hpositive hfrozen ih =>
    obtain ⟨p, rest, rfl⟩ := exists_cons_of_ne_nil hpositive.1
    have hprior := hback prior _ rfl
    refine ih (cons_ne_nil _ _) ?_ ?_ hafter hnext h
    · rintro p' ⟨⟩
      exact hprior.noFall.skip (hfall prior rfl).1 hpositive.2
    · rintro p' rest' ⟨⟩
      exact hprior.tail
  | case5 prior before next after hnegative hpositive =>
    cases h
    obtain ⟨hle, hrise⟩ := hnext next rfl
    exact ⟨cons_ne_nil _ _, (hback prior before rfl).cons (hfall prior rfl) hpositive,
      isChain_cons_cons.mpr ⟨⟨⟨hle, hnegative⟩, hrise⟩, hafter⟩⟩
  | case8 prior before hpositive =>
    cases h
    exact ⟨cons_ne_nil _ _, (hback prior before rfl).cons (hfall prior rfl) hpositive, isChain_singleton _⟩

theorem insert_sloped {after : List Point} (hslopes : Sloped (before.reverse ++ after))
    (hbefore : ∀ p ∈ before, p.time ≤ x.time) (hafter : ∀ p ∈ after.head?, x.time ≤ p.time)
    (hf : Sloped f.timestamps) (h : f.insert x before after = .ok f') :
    Sloped f'.timestamps ∧ f'.hasPopped = f.hasPopped := by
  cases after with
  | nil => cases before <;> cases h
  | cons next after =>
    have hle := hafter next rfl
    cases before with
    | nil =>
      rw [insert] at h
      split at h
      · cases h
      · split at h
        · cases h
          exact ⟨hf, rfl⟩
        · cases h
          exact ⟨removeSecond_sloped hslopes hafter, rfl⟩
    | cons prior before =>
      obtain ⟨hback, hchain⟩ := (sloped_append_iff (cons_ne_nil prior before)).mp hslopes
      rw [insert] at h
      split at h
      · cases h
      · split at h
        · cases h
          exact ⟨hf, rfl⟩
        · rename_i hnegative
          split at h
          · cases h
            exact ⟨hf, rfl⟩
          · rename_i hpositive
            obtain ⟨⟨before', after'⟩, hpropagate, heq⟩ := bind_eq_ok.mp h
            cases heq
            obtain ⟨hne, hback', hchain'⟩ := propagate_sloped (cons_ne_nil prior before)
              (by rintro p ⟨⟩; exact ⟨hbefore prior mem_cons_self, hnegative⟩)
              (by rintro p rest ⟨⟩; exact hback.tail) hchain (by rintro p ⟨⟩; exact ⟨hle, hpositive⟩) hpropagate
            exact ⟨(sloped_append_iff hne).mpr ⟨hback', hchain'⟩, rfl⟩

theorem sample_sloped (hf : Sloped f.timestamps) (h : f.sample x = .ok f') :
    Sloped f'.timestamps ∧ f'.hasPopped = f.hasPopped := by
  unfold sample at h
  split at h
  · split at h
    · cases h
    · cases h
      exact ⟨⟨isChain_singleton _, isChain_nil⟩, rfl⟩
  · rename_i back hlast
    simp only [] at h
    split at h
    · cases h
    · split at h
      · cases h
        exact ⟨hf, rfl⟩
      · split at h
        · rename_i hdt
          split at h
          · cases h
            exact ⟨hf, rfl⟩
          · rename_i hnegative
            split at h
            · cases h
            · obtain ⟨kept, hkept, heq⟩ := bind_eq_ok.mp h
              cases heq
              obtain ⟨front, hfront⟩ := getLast?_eq_some_iff.mp hlast
              have hreverse : f.timestamps.reverse = back :: front.reverse := by
                rw [hfront, reverse_append]
                rfl
              rw [hreverse] at hkept
              have hback : SlopedBack back front.reverse := by
                by_cases hnil : front.reverse = []
                · rw [hnil]
                  trivial
                · refine ((sloped_append_iff hnil).mp (?_ : Sloped (front.reverse.reverse ++ [back]))).1
                  rw [reverse_reverse, ← hfront]
                  exact hf
              obtain ⟨hne, hback'⟩ := backPropagate_sloped ⟨by omega, hnegative⟩ hback hkept
              exact ⟨(sloped_append_iff hne).mpr ⟨hback', isChain_singleton _⟩, rfl⟩
        · refine insert_sloped ?_ ?_ ?_ hf h
          · rw [reverse_reverse, takeWhile_append_dropWhile]
            exact hf
          · intro p hp
            have hlt := mem_takeWhile_imp (mem_reverse.mp hp)
            exact (of_decide_eq_true hlt).le
          · intro p hp
            have hnot := head?_dropWhile_not (fun p : Point => decide (p.time < x.time)) f.timestamps
            rw [Option.mem_def.mp hp] at hnot
            simpa using hnot

end SingleFilter

structure ConsumedFilter where
  filter : SingleFilter
  nextToConsume : Nat
  deriving DecidableEq

namespace ConsumedFilter

def initial : ConsumedFilter := ⟨.initial, 0⟩

def consume (c : ConsumedFilter) : Except FilterCheck (Option Point × ConsumedFilter) :=
  if c.filter.timestamps.length ≤ c.nextToConsume then .ok (none, c)
  else do
    let p ← c.filter.timestamp c.nextToConsume
    .ok (some p, { c with nextToConsume := c.nextToConsume + 1 })

def popFront (c : ConsumedFilter) : Except FilterCheck ConsumedFilter := do
  let filter ← c.filter.popFront
  .ok ⟨filter, c.nextToConsume - 1⟩

inductive Call where
  | sample (x : Point)
  | freezeUntil (nodeMonotonicNow : Int)
  | freezeUntilRemote (remoteMonotonicNow : Int)
  | consume
  | popFront
  deriving DecidableEq

def exec (c : ConsumedFilter) : Call → Except FilterCheck ConsumedFilter
  | .sample x => (c.filter.sample x).map fun filter => { c with filter }
  | .freezeUntil now => (c.filter.freezeUntil now).map fun filter => { c with filter }
  | .freezeUntilRemote now => (c.filter.freezeUntilRemote now).map fun filter => { c with filter }
  | .consume => c.consume.map Prod.snd
  | .popFront => c.popFront

def run (c : ConsumedFilter) (calls : List Call) : Except FilterCheck ConsumedFilter := calls.foldlM exec c

variable {c c' : ConsumedFilter}

theorem exec_cases {call : Call} (h : c.exec call = .ok c') :
    (∃ x, call = .sample x ∧ c.filter.sample x = .ok c'.filter) ∨
      ((∀ x, call ≠ .sample x) ∧ c'.filter.timestamps = c.filter.timestamps ∧
        c'.filter.hasPopped = c.filter.hasPopped) ∨
      (call = .popFront ∧ c'.filter.timestamps = c.filter.timestamps.tail) := by
  cases call with
  | sample x =>
    obtain ⟨f, hsample, rfl⟩ := map_eq_ok.mp h
    exact .inl ⟨x, rfl, hsample⟩
  | freezeUntil now =>
    obtain ⟨f, hfreeze, rfl⟩ := map_eq_ok.mp h
    cases SingleFilter.froze_of_freezeUntil hfreeze <;> exact .inr (.inl ⟨by simp, rfl, rfl⟩)
  | freezeUntilRemote now =>
    obtain ⟨f, hfreeze, rfl⟩ := map_eq_ok.mp h
    cases SingleFilter.froze_of_freezeUntilRemote hfreeze <;> exact .inr (.inl ⟨by simp, rfl, rfl⟩)
  | consume =>
    obtain ⟨⟨p, c1⟩, hconsume, rfl⟩ := map_eq_ok.mp h
    unfold consume at hconsume
    split at hconsume
    · cases hconsume
      exact .inr (.inl ⟨by simp, rfl, rfl⟩)
    · obtain ⟨q, -, heq⟩ := bind_eq_ok.mp hconsume
      cases heq
      exact .inr (.inl ⟨by simp, rfl, rfl⟩)
  | popFront =>
    obtain ⟨f, hpop, heq⟩ := bind_eq_ok.mp h
    obtain ⟨p, -, hf⟩ := bind_eq_ok.mp hpop
    cases heq
    cases hf
    exact .inr (.inr ⟨rfl, rfl⟩)

theorem exec_spec {call : Call} (hslopes : Sloped c.filter.timestamps) (h : c.exec call = .ok c') :
    Sloped c'.filter.timestamps ∧ (call ≠ .popFront → c'.filter.hasPopped = c.filter.hasPopped) := by
  rcases exec_cases h with ⟨x, -, hsample⟩ | ⟨-, hsame, hpopped⟩ | ⟨hcall, htail⟩
  · obtain ⟨hslopes', hpopped⟩ := SingleFilter.sample_sloped hslopes hsample
    exact ⟨hslopes', fun _ => hpopped⟩
  · exact ⟨hsame ▸ hslopes, fun _ => hpopped⟩
  · exact ⟨htail ▸ ⟨hslopes.noFall.tail, hslopes.noRise.tail⟩, fun hne => absurd hcall hne⟩

theorem run_spec {calls : List Call} (hslopes : Sloped c.filter.timestamps) (h : c.run calls = .ok c') :
    Sloped c'.filter.timestamps ∧ (Call.popFront ∉ calls → c'.filter.hasPopped = c.filter.hasPopped) := by
  induction calls generalizing c with
  | nil =>
    cases h
    exact ⟨hslopes, fun _ => rfl⟩
  | cons call calls ih =>
    obtain ⟨c1, hexec, hrun⟩ := bind_eq_ok.mp h
    obtain ⟨hslopes1, hpopped1⟩ := exec_spec hslopes hexec
    obtain ⟨hslopes', hpopped'⟩ := ih hslopes1 hrun
    refine ⟨hslopes', ?_⟩
    intro hnot
    rw [hpopped' fun hmem => hnot (mem_cons_of_mem _ hmem)]
    exact hpopped1 fun heq => hnot (heq ▸ mem_cons_self)

end ConsumedFilter

/-- A first timestamp that rises too fast is exposed as one that rises as fast as is allowed. -/
theorem clip_spec (h : NoFall p q) : NoFall (p.clip q) q ∧ NoRise (p.clip q) q := by
  unfold Point.clip
  split
  · have hnonneg : 0 ≤ q.time - p.time := by have := h.1; omega
    simp only [NoFall, NoRise, SlopeTooNegative, SlopeTooPositive, Int.tdiv_eq_ediv_of_nonneg hnonneg]
    omega
  · rename_i hrise
    exact ⟨h, hrise⟩

theorem Sloped.points {f : SingleFilter} (h : Sloped f.timestamps) (hpopped : f.hasPopped = false) :
    f.points.IsChain fun p q => NoFall p q ∧ NoRise p q := by
  unfold SingleFilter.points
  split
  · rename_i p q rest hcons
    rw [hcons] at h
    obtain ⟨hfirst, hrest⟩ := isChain_cons_cons.mp h.noFall
    rw [hpopped]
    exact isChain_cons_cons.mpr ⟨clip_spec hfirst, isChain_and_iff.mpr ⟨hrest, h.noRise⟩⟩
  · rename_i hshort
    cases hcons : f.timestamps with
    | nil => exact isChain_nil
    | cons p rest =>
      cases rest with
      | nil => exact isChain_singleton _
      | cons q rest => exact absurd hcons (hshort p q rest)

theorem Sloped.pairwise (h : Sloped L) : L.Pairwise fun p q => p.time ≤ q.time := by
  have htrans : Trans (fun p q : Point => p.time ≤ q.time) (fun p q : Point => p.time ≤ q.time)
      (fun p q : Point => p.time ≤ q.time) := ⟨fun hpq hqr => le_trans hpq hqr⟩
  exact isChain_iff_pairwise.mp (h.noFall.imp fun _ _ hpq => hpq.1)

theorem rel_of_getElem? {R : Point → Point → Prop} (h : L.IsChain R) {i : Nat}
    (hp : L[i]? = some p) (hq : L[i + 1]? = some q) : R p q := by
  obtain ⟨hi, rfl⟩ := List.getElem?_eq_some_iff.mp hp
  obtain ⟨hi', rfl⟩ := List.getElem?_eq_some_iff.mp hq
  exact isChain_iff_getElem.mp h i hi'

theorem getElem?_of_timestamp {f : SingleFilter} {i : Nat} (h : f.timestamp i = .ok p) : f.points[i]? = some p := by
  unfold SingleFilter.timestamp at h
  split at h
  · rename_i p' hp'
    rw [hp', Except.ok.inj h]
  · cases h

theorem slopes_bounded (calls : List ConsumedFilter.Call) {c : ConsumedFilter}
    (h : ConsumedFilter.initial.run calls = .ok c) :
    (c.filter.timestamps.Pairwise fun p q => p.time ≤ q.time) ∧
      (∀ i p q, c.filter.timestamps[i]? = some p → c.filter.timestamps[i + 1]? = some q →
        -(q.time - p.time) ≤ 1000 * (q.offset - p.offset) ∧
          (1 ≤ i → 1000 * (q.offset - p.offset) ≤ q.time - p.time)) ∧
      (ConsumedFilter.Call.popFront ∉ calls →
        ∀ i p q, c.filter.timestamp i = .ok p → c.filter.timestamp (i + 1) = .ok q →
          -(q.time - p.time) ≤ 1000 * (q.offset - p.offset) ∧ 1000 * (q.offset - p.offset) ≤ q.time - p.time) := by
  obtain ⟨hslopes, hpopped⟩ := ConsumedFilter.run_spec (c := .initial) ⟨isChain_nil, isChain_nil⟩ h
  refine ⟨hslopes.pairwise, ?_, ?_⟩
  · intro i p q hp hq
    refine ⟨not_lt.mp (rel_of_getElem? hslopes.noFall hp hq).2, ?_⟩
    intro hi
    obtain ⟨j, rfl⟩ := Nat.exists_eq_add_of_le' hi
    rw [← getElem?_tail] at hp hq
    exact not_lt.mp (rel_of_getElem? hslopes.noRise hp hq)
  · intro hnot i p q hp hq
    obtain ⟨hfall, hrise⟩ :=
      rel_of_getElem? (hslopes.points (hpopped hnot)) (getElem?_of_timestamp hp) (getElem?_of_timestamp hq)
    exact ⟨not_lt.mp hfall.2, not_lt.mp hrise⟩

/-- The first of three timestamps rises too fast, and is exposed 48 higher than it was sampled. -/
theorem slopes_bounded_clipped :
    ConsumedFilter.initial.run
        [.sample ⟨0, 0⟩, .sample ⟨1000, 1⟩, .consume, .sample ⟨3000, 51⟩, .sample ⟨2000, 50⟩] =
        .ok ⟨⟨[⟨0, 0⟩, ⟨2000, 50⟩, ⟨3000, 51⟩], none, false, false⟩, 1⟩ ∧
      -((2000 : Int) - 0) ≤ 1000 * (50 - 48) ∧ 1000 * (50 - 48) ≤ (2000 : Int) - 0 := by
  refine ⟨?hrun, (slopes_bounded _ ?hrun).2.2 (by decide) 0 ⟨0, 48⟩ ⟨2000, 50⟩ (by decide +kernel) (by decide +kernel)⟩
  decide +kernel

end RobotCode.Network
