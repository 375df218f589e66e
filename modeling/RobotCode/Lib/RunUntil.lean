import RobotCode.Lib.Fallible

/-!
# Running a timed system up to a limit

A timed system says when its next step is due, if one is, and takes it. `run` steps it for as long as
something is due by the limit. Nothing bounds how many steps that takes, so `run` has fuel and `Returns`
says that some amount of it is enough.

What matters about the limit is that it only decides where to stop: a run can be cut at any earlier
limit, whether or not it returns.
-/

namespace RobotCode.RunUntil

variable {σ τ ε : Type} [LinearOrder τ]

/-- A system whose steps are due at times in `τ`. -/
structure System (σ τ ε : Type) where
  next : σ → Option τ
  step : σ → Except ε σ

variable {m : System σ τ ε} {limit : τ} {s : σ} {r : Except ε σ}

def System.Idle (m : System σ τ ε) (limit : τ) (s : σ) : Prop := ∀ t ∈ m.next s, limit < t

instance : Decidable (m.Idle limit s) := by
  unfold System.Idle
  infer_instance

/-- Step until nothing is due by the limit, `none` for lack of fuel. -/
def run (m : System σ τ ε) (limit : τ) : Nat → σ → Option (Except ε σ)
  | 0, _ => none
  | fuel + 1, s =>
    if m.Idle limit s then some (.ok s)
    else
      match m.step s with
      | .error e => some (.error e)
      | .ok s' => run m limit fuel s'

/-- The run returns with the result `r`. -/
def Returns (m : System σ τ ε) (limit : τ) (s : σ) (r : Except ε σ) : Prop := ∃ fuel, run m limit fuel s = some r

theorem System.Idle.of_le {limit' : τ} (h : m.Idle limit' s) (hle : limit ≤ limit') : m.Idle limit s := by
  intro t ht
  exact lt_of_le_of_lt hle (h t ht)

theorem returns_of_idle (h : m.Idle limit s) : Returns m limit s r ↔ r = .ok s := by
  constructor
  · rintro ⟨fuel, hrun⟩
    cases fuel with
    | zero => cases hrun
    | succ fuel =>
      rw [run, if_pos h] at hrun
      exact (Option.some.inj hrun).symm
  · rintro rfl
    exact ⟨1, by rw [run, if_pos h]⟩

theorem returns_of_error {e : ε} (h : ¬ m.Idle limit s) (hstep : m.step s = .error e) :
    Returns m limit s r ↔ r = .error e := by
  constructor
  · rintro ⟨fuel, hrun⟩
    cases fuel with
    | zero => cases hrun
    | succ fuel =>
      rw [run, if_neg h, hstep] at hrun
      exact (Option.some.inj hrun).symm
  · rintro rfl
    exact ⟨1, by rw [run, if_neg h, hstep]⟩

theorem returns_of_step {s' : σ} (h : ¬ m.Idle limit s) (hstep : m.step s = .ok s') :
    Returns m limit s r ↔ Returns m limit s' r := by
  constructor
  · rintro ⟨fuel, hrun⟩
    cases fuel with
    | zero => cases hrun
    | succ fuel =>
      rw [run, if_neg h, hstep] at hrun
      exact ⟨fuel, hrun⟩
  · rintro ⟨fuel, hrun⟩
    exact ⟨fuel + 1, by rw [run, if_neg h, hstep]; exact hrun⟩

theorem Returns.induction {P : σ → Except ε σ → Prop} (hidle : ∀ s, m.Idle limit s → P s (.ok s))
    (herror : ∀ s e, ¬ m.Idle limit s → m.step s = .error e → P s (.error e))
    (hstep : ∀ s s' r, ¬ m.Idle limit s → m.step s = .ok s' → Returns m limit s' r → P s' r → P s r)
    (h : Returns m limit s r) : P s r := by
  obtain ⟨fuel, hrun⟩ := h
  induction fuel generalizing s with
  | zero => cases hrun
  | succ fuel ih =>
    rw [run] at hrun
    split at hrun
    · rename_i hi
      cases hrun
      exact hidle s hi
    · rename_i hi
      split at hrun
      · rename_i e he
        cases hrun
        exact herror s e hi he
      · rename_i s' hs'
        exact hstep s s' r hi hs' ⟨fuel, hrun⟩ (ih hrun)

inductive Visits (m : System σ τ ε) (limit : τ) (s : σ) : σ → Prop
  | start : Visits m limit s s
  | step {t u : σ} : Visits m limit s t → ¬ m.Idle limit t → m.step t = .ok u → Visits m limit s u

/-- A run that returns keeps what every step keeps, and ends with nothing due by the limit. It fails as its steps do. -/
theorem Returns.invariant {P : σ → Prop} {E : ε → Prop}
    (hkeep : ∀ t, Visits m limit s t → P t → ¬ m.Idle limit t → Fallible.Ends E P (m.step t))
    (h : Returns m limit s r) (hs : P s) : Fallible.Ends E (fun s' => P s' ∧ m.Idle limit s') r := by
  suffices hall : ∀ t, Returns m limit t r → Visits m limit s t → P t →
      Fallible.Ends E (fun s' => P s' ∧ m.Idle limit s') r from hall s h .start hs
  intro t ht
  apply ht.induction (P := fun t r => Visits m limit s t → P t →
    Fallible.Ends E (fun s' => P s' ∧ m.Idle limit s') r)
  · intro t hi _ hP
    exact ⟨hP, hi⟩
  · intro t e hi he hvisit hP
    have hends := hkeep t hvisit hP hi
    rw [he] at hends
    exact hends
  · intro t t' r hi ht' _ ih hvisit hP
    have hends := hkeep t hvisit hP hi
    rw [ht'] at hends
    exact ih (hvisit.step hi ht') hends

/-- The rest of a run whose first part returned `r`: nothing more after a failure. -/
def Continues (m : System σ τ ε) (limit : τ) : Except ε σ → Except ε σ → Prop
  | .error e, r => r = .error e
  | .ok s, r => Returns m limit s r

theorem returns_iff_split {limit' : τ} (hle : limit ≤ limit') :
    Returns m limit' s r ↔ ∃ r1, Returns m limit s r1 ∧ Continues m limit' r1 r := by
  constructor
  · intro h
    apply h.induction (P := fun s r => ∃ r1, Returns m limit s r1 ∧ Continues m limit' r1 r)
    · intro s hi
      exact ⟨.ok s, (returns_of_idle (hi.of_le hle)).mpr rfl, (returns_of_idle hi).mpr rfl⟩
    · intro s e hi he
      by_cases hi' : m.Idle limit s
      · exact ⟨.ok s, (returns_of_idle hi').mpr rfl, (returns_of_error hi he).mpr rfl⟩
      · exact ⟨.error e, (returns_of_error hi' he).mpr rfl, rfl⟩
    · intro s s' r hi hs' hrest ih
      by_cases hi' : m.Idle limit s
      · exact ⟨.ok s, (returns_of_idle hi').mpr rfl, (returns_of_step hi hs').mpr hrest⟩
      · obtain ⟨r1, hr1, hcont⟩ := ih
        exact ⟨r1, (returns_of_step hi' hs').mpr hr1, hcont⟩
  · rintro ⟨r1, hr1, hcont⟩
    revert hcont
    apply hr1.induction (P := fun s r1 => Continues m limit' r1 r → Returns m limit' s r)
    · intro s _ hcont
      exact hcont
    · intro s e hi he hcont
      have hi' : ¬ m.Idle limit' s := fun h => hi (h.of_le hle)
      exact (returns_of_error hi' he).mpr hcont
    · intro s s' r1 hi hs' _ ih hcont
      have hi' : ¬ m.Idle limit' s := fun h => hi (h.of_le hle)
      exact (returns_of_step hi' hs').mpr (ih hcont)

theorem exists_returns (m : System σ τ ε) (limit : τ) {μ : Type} {lt : μ → μ → Prop} (hwf : WellFounded lt)
    (measure : σ → μ) {P : σ → Prop}
    (hkeep : ∀ t t', Visits m limit s t → P t → ¬ m.Idle limit t → m.step t = .ok t' →
      P t' ∧ lt (measure t') (measure t)) (hs : P s) : ∃ r, Returns m limit s r := by
  suffices hall : ∀ μ0 t, measure t = μ0 → Visits m limit s t → P t → ∃ r, Returns m limit t r from
    hall (measure s) s rfl .start hs
  intro μ0
  induction μ0 using hwf.induction with
  | _ μ0 ih =>
    intro t hμ hvisit hP
    by_cases hi : m.Idle limit t
    · exact ⟨.ok t, (returns_of_idle hi).mpr rfl⟩
    · cases hstep : m.step t with
      | error e => exact ⟨.error e, (returns_of_error hi hstep).mpr rfl⟩
      | ok t' =>
        obtain ⟨hP', hlt⟩ := hkeep t t' hvisit hP hi hstep
        obtain ⟨r, hr⟩ := ih (measure t') (hμ ▸ hlt) t' rfl (hvisit.step hi hstep) hP'
        exact ⟨r, (returns_of_step hi hstep).mpr hr⟩

end RobotCode.RunUntil
