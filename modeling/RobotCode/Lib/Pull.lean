import RobotCode.Lib.Fallible

/-!
# Pulling from a source

A source shows its next element with `front` and forgets it with `popFront`. Both may fail, and `front`
may work on the state, since it has to find the element first. A source delivers a list when alternating
the two yields the elements of the list one after another and then nothing for ever, and when asking for
the front once more never makes a difference.
-/

namespace RobotCode

structure Pull (ε σ α : Type) where
  front : σ → Except ε (Option α × σ)
  popFront : σ → Except ε σ

namespace Pull

variable {ε σ α : Type} {src : Pull ε σ α} {s s' : σ} {a : α} {l l' : List α}

/-- One `front`, followed by a `popFront` when there was something. -/
def next (src : Pull ε σ α) (s : σ) : Except ε (Option α × σ) := do
  match ← src.front s with
  | (none, s') => pure (none, s')
  | (some a, s') => return (some a, ← src.popFront s')

/-- What alternating `front` and `popFront` shows in the first `n` rounds. -/
def rounds (src : Pull ε σ α) : Nat → σ → Except ε (List (Option α))
  | 0, _ => pure []
  | n + 1, s => do
    let (shown, s') ← src.next s
    return shown :: (← rounds src n s')

/-- The first `n` rounds of a source that delivers `l`. -/
def shows (l : List α) (n : Nat) : List (Option α) := (l.map some ++ List.replicate n none).take n

/-- The source has nothing any more. -/
def Ended (src : Pull ε σ α) (s : σ) : Prop := ∀ n, src.rounds n s = .ok (List.replicate n none)

/-- The source delivers `l`, and stays at its front until it is popped. -/
def Delivers (src : Pull ε σ α) : σ → List α → Prop
  | s, [] => src.Ended s
  | s, a :: l => ∃ s', src.front s = .ok (some a, s') ∧ src.front s' = .ok (some a, s') ∧
      ∃ u, src.popFront s' = .ok u ∧ Delivers src u l

theorem rounds_of_front_none (h : src.front s = .ok (none, s')) (n : Nat) :
    src.rounds (n + 1) s = (src.rounds n s').map (none :: ·) := by
  rw [rounds, next, h]
  simp only [bind, Except.bind, pure, Except.pure]
  cases src.rounds n s' <;> rfl

theorem rounds_of_front_some (h : src.front s = .ok (some a, s')) {u : σ} (hpop : src.popFront s' = .ok u) (n : Nat) :
    src.rounds (n + 1) s = (src.rounds n u).map (some a :: ·) := by
  rw [rounds, next, h]
  simp only [bind, Except.bind, pure, Except.pure, hpop]
  cases src.rounds n u <;> rfl

theorem rounds_of_front_error {e : ε} (h : src.front s = .error e) (n : Nat) : src.rounds (n + 1) s = .error e := by
  rw [rounds, next, h]
  rfl

/-- A source that shows nothing and goes on like that. -/
theorem Ended.of_invariant {P : σ → Prop} (hstep : ∀ s, P s → ∃ s', src.front s = .ok (none, s') ∧ P s')
    (hs : P s) : src.Ended s := by
  intro n
  induction n generalizing s with
  | zero => rfl
  | succ n ih =>
    obtain ⟨s', hfront, hs'⟩ := hstep s hs
    rw [rounds_of_front_none hfront, ih hs']
    rfl

theorem Ended.front (h : src.Ended s) : ∃ s', src.front s = .ok (none, s') ∧ src.Ended s' := by
  have hone := h 1
  rw [rounds, next] at hone
  cases hfront : src.front s with
  | error e => simp [hfront, bind, Except.bind] at hone
  | ok r =>
    obtain ⟨shown, s'⟩ := r
    cases shown with
    | some a =>
      rw [hfront] at hone
      cases hpop : src.popFront s' <;> simp [hpop, bind, Except.bind, pure, Except.pure, rounds] at hone
    | none =>
      refine ⟨s', rfl, ?_⟩
      intro n
      have hrounds := h (n + 1)
      rw [rounds_of_front_none hfront, Fallible.map_eq_ok] at hrounds
      obtain ⟨shown, hshown, heq⟩ := hrounds
      rw [hshown, List.cons.inj heq |>.2]

theorem Delivers.front (h : src.Delivers s l) : ∃ s', src.front s = .ok (l.head?, s') ∧ src.Delivers s' l ∧
    ∀ a ∈ l.head?, src.front s' = .ok (some a, s') := by
  cases l with
  | nil =>
    obtain ⟨s', hfront, hended⟩ := Ended.front h
    exact ⟨s', hfront, hended, by simp⟩
  | cons a l =>
    obtain ⟨s', hfront, hagain, hrest⟩ := h
    exact ⟨s', hfront, ⟨s', hagain, hagain, hrest⟩, by simpa using hagain⟩

theorem Delivers.of_front_eq {t : σ} (h : src.Delivers t l) (heq : src.front s = src.front t) : src.Delivers s l := by
  cases l with
  | cons a l =>
    obtain ⟨s', hfront, hrest⟩ := h
    exact ⟨s', heq.trans hfront, hrest⟩
  | nil =>
    intro n
    cases n with
    | zero => rfl
    | succ n =>
      rw [rounds, next, heq]
      exact h (n + 1)

theorem Delivers.popFront (h : src.Delivers s (a :: l)) (hfront : src.front s = .ok (some a, s)) :
    ∃ u, src.popFront s = .ok u ∧ src.Delivers u l := by
  obtain ⟨s', hfront', -, hrest⟩ := h
  rw [hfront] at hfront'
  injection hfront' with heq
  injection heq with _ hs
  subst hs
  exact hrest

theorem shows_nil (n : Nat) : shows ([] : List α) n = List.replicate n none := by
  simp [shows]

theorem shows_cons (n : Nat) : shows (a :: l) (n + 1) = some a :: shows l n := by
  have hlen : n ≤ n + 1 + l.length := by omega
  simp [shows, List.take_append, List.take_replicate, hlen]

theorem map_shows {β : Type} (f : α → β) (l : List α) (n : Nat) :
    (shows l n).map (Option.map f) = shows (l.map f) n := by
  simp [shows, List.map_take]

theorem Delivers.rounds (h : src.Delivers s l) (n : Nat) : src.rounds n s = .ok (shows l n) := by
  induction n generalizing s l with
  | zero => rfl
  | succ n ih =>
    cases l with
    | nil =>
      rw [shows_nil]
      exact h (n + 1)
    | cons a l =>
      obtain ⟨s', hfront, -, u, hpop, hrest⟩ := h
      rw [rounds_of_front_some hfront hpop, ih hrest, shows_cons]
      rfl

end Pull

end RobotCode
