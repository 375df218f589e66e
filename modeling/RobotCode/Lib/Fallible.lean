import Mathlib

/-!
# Loops that may fail

Programs with checks and bounded loops are functions into `Except`. Most failures are ruled out by a
proof and one is not: running out of the fuel that bounds the loops, which a proof rules out only when
there was enough of it. `Meets` says both at once, and its rules follow the program text.
-/

namespace RobotCode.Fallible

open List

variable {ε α β σ : Type} {e₀ : ε} {enough enough' : Prop} {P Q : α → Prop}

/-- The program ended with a result in `P`, or with the error `e₀` for lack of `enough`. -/
def Meets (e₀ : ε) (enough : Prop) (P : α → Prop) : Except ε α → Prop
  | .ok a => P a
  | .error e => e = e₀ ∧ ¬ enough

variable {r : Except ε α} {f : α → Except ε β} {R : β → Prop} {E : ε → Prop}

theorem Meets.mono (h : Meets e₀ enough P r) (henough : enough' → enough)
    (himp : ∀ a, P a → Q a) : Meets e₀ enough' Q r := by
  cases r with
  | ok a => exact himp a h
  | error e => exact ⟨h.1, fun hen => h.2 (henough hen)⟩

theorem Meets.bind (h : Meets e₀ enough P r)
    (hf : ∀ a, P a → Meets e₀ enough R (f a)) : Meets e₀ enough R (r >>= f) := by
  cases r with
  | ok a => exact hf a h
  | error e => exact h

theorem Meets.exists_ok (h : Meets e₀ enough P r) (henough : enough) : ∃ a, r = .ok a ∧ P a := by
  cases r with
  | ok a => exact ⟨a, rfl, h⟩
  | error e => exact absurd henough h.2

theorem Meets.error_eq {e : ε} (h : Meets e₀ enough P r) (he : r = .error e) : e = e₀ := by
  rw [he] at h
  exact h.1

/-- The program ended with a result in `P`, or with an error in `E`. -/
def Ends (E : ε → Prop) (P : α → Prop) : Except ε α → Prop
  | .ok a => P a
  | .error e => E e

theorem Ends.ok {a : α} (h : Ends E P r) (hr : r = .ok a) : P a := by
  rw [hr] at h
  exact h

theorem Ends.mono {E' : ε → Prop} (h : Ends E P r) (herror : ∀ e, E e → E' e)
    (himp : ∀ a, r = .ok a → P a → Q a) : Ends E' Q r := by
  cases r with
  | ok a => exact himp a rfl h
  | error e => exact herror e h

theorem Ends.bind_eq {E' : ε → Prop} (h : Ends E P r) (herror : ∀ e, E e → E' e)
    (hf : ∀ a, r = .ok a → P a → Ends E' R (f a)) : Ends E' R (r >>= f) := by
  cases r with
  | ok a => exact hf a rfl h
  | error e => exact herror e h

theorem Ends.bind (h : Ends E P r) (hf : ∀ a, P a → Ends E R (f a)) : Ends E R (r >>= f) :=
  h.bind_eq (fun _ => id) fun a _ => hf a

/-- `P` holds before every iteration of a loop over a list. -/
def AllSteps (P : σ → β → Prop) (body : σ → β → Except ε σ) : List β → σ → Prop
  | [], _ => True
  | b :: rest, s => P s b ∧ ∀ s', body s b = .ok s' → AllSteps P body rest s'

instance AllSteps.decidable {P : σ → β → Prop} [∀ s b, Decidable (P s b)] {body : σ → β → Except ε σ} :
    (l : List β) → (s : σ) → Decidable (AllSteps P body l s)
  | [], _ => .isTrue trivial
  | b :: rest, s =>
    match h : body s b with
    | .error _ => decidable_of_iff (P s b) ⟨fun hb => ⟨hb, fun s' hs' => by cases h.symm.trans hs'⟩, And.left⟩
    | .ok s' =>
      have : Decidable (AllSteps P body rest s') := decidable rest s'
      decidable_of_iff (P s b ∧ AllSteps P body rest s')
        ⟨fun hand => ⟨hand.1, fun t ht => by cases h.symm.trans ht; exact hand.2⟩, fun hand => ⟨hand.1, hand.2 s' h⟩⟩

theorem Ends.foldlM {P : σ → β → Prop} {Q : σ → Prop} {body : σ → β → Except ε σ}
    (hbody : ∀ s b, P s b → Q s → Ends E Q (body s b)) (l : List β) {s : σ} (hall : AllSteps P body l s)
    (hs : Q s) : Ends E Q (l.foldlM body s) := by
  induction l generalizing s with
  | nil => exact hs
  | cons b rest ih =>
    obtain ⟨hb, hrest⟩ := hall
    rw [foldlM_cons]
    exact (hbody s b hb hs).bind_eq (fun _ => id) fun s' hstep hs' => ih (hrest s' hstep) hs'

theorem Meets.foldlM_range {n : Nat} {body : σ → Nat → Except ε σ} {P : Nat → σ → Prop} {s : σ}
    (hstart : P 0 s) (hbody : ∀ k < n, ∀ t, P k t → Meets e₀ enough (P (k + 1)) (body t k)) :
    Meets e₀ enough (P n) ((range n).foldlM body s) := by
  induction n with
  | zero => exact hstart
  | succ n ih =>
    rw [range_succ, foldlM_append]
    refine (ih fun k hk => hbody k (hk.trans (Nat.lt_succ_self n))).bind fun t ht => ?_
    simpa using hbody n (Nat.lt_succ_self n) t ht

theorem foldl_range {n : Nat} {body : σ → Nat → σ} {P : Nat → σ → Prop} {s : σ} (hstart : P 0 s)
    (hbody : ∀ k < n, ∀ t, P k t → P (k + 1) (body t k)) : P n ((range n).foldl body s) := by
  induction n with
  | zero => exact hstart
  | succ n ih =>
    rw [range_succ, foldl_append]
    exact hbody n (Nat.lt_succ_self n) _ (ih fun k hk => hbody k (hk.trans (Nat.lt_succ_self n)))

theorem foldlM_ok (l : List β) (body : σ → β → Except ε σ) (P : List β → σ → Prop) {s : σ} (hstart : P [] s)
    (hbody : ∀ done b todo, l = done ++ b :: todo → ∀ t, P done t → ∃ t', body t b = .ok t' ∧ P (done ++ [b]) t') :
    ∃ t, l.foldlM body s = .ok t ∧ P l t := by
  suffices hall : ∀ todo done t, l = done ++ todo → P done t → ∃ t', todo.foldlM body t = .ok t' ∧ P l t' from
    hall l [] s rfl hstart
  intro todo
  induction todo with
  | nil =>
    intro done t hl ht
    exact ⟨t, rfl, by rwa [hl, append_nil]⟩
  | cons b todo ih =>
    intro done t hl ht
    obtain ⟨t1, hstep, ht1⟩ := hbody done b todo hl t ht
    obtain ⟨t', hrest, ht'⟩ := ih (done ++ [b]) t1 (by simpa using hl) ht1
    rw [foldlM_cons, hstep]
    exact ⟨t', hrest, ht'⟩

theorem foldlM_foldlM {γ : Type} (l : List β) (inner : β → List γ) (body : β → σ → γ → Except ε σ) (s : σ) :
    l.foldlM (fun s b => (inner b).foldlM (body b) s) s =
      (l.flatMap fun b => (inner b).map (Prod.mk b)).foldlM (fun s pair => body pair.1 s pair.2) s := by
  induction l generalizing s with
  | nil => rfl
  | cons b l ih =>
    rw [foldlM_cons, flatMap_cons, foldlM_append, foldlM_map]
    exact congrArg _ (funext ih)

theorem mapM_ok (l : List α) (hf : ∀ a ∈ l, ∃ b, f a = .ok b ∧ R b) : ∃ l', l.mapM f = .ok l' ∧ ∀ b ∈ l', R b := by
  induction l with
  | nil => exact ⟨[], rfl, fun _ hb => absurd hb not_mem_nil⟩
  | cons a l ih =>
    obtain ⟨b, hb, hRb⟩ := hf a mem_cons_self
    obtain ⟨l', hl', hRl'⟩ := ih fun a ha => hf a (mem_cons_of_mem _ ha)
    refine ⟨b :: l', ?_, forall_mem_cons.mpr ⟨hRb, hRl'⟩⟩
    rw [mapM_cons, hb, hl']
    rfl

/-- A result is found by evaluation. -/
instance decidableExistsOk [DecidablePred P] : Decidable (∃ a, r = .ok a ∧ P a) :=
  match r with
  | .ok a => decidable_of_iff (P a) (by simp)
  | .error _ => isFalse (by simp)

instance decidableEqOk [DecidableEq α] {a : α} : Decidable (r = .ok a) :=
  match r with
  | .ok b => decidable_of_iff (b = a) (by simp)
  | .error _ => isFalse (by simp)

instance decidableEqError [DecidableEq ε] {e : ε} : Decidable (r = .error e) :=
  match r with
  | .ok _ => isFalse (by simp)
  | .error e' => decidable_of_iff (e' = e) (by simp)

def errorOf : Except ε α → Option ε
  | .error e => some e
  | .ok _ => none

theorem bind_eq_ok {b : β} : (r >>= f) = .ok b ↔ ∃ a, r = .ok a ∧ f a = .ok b := by
  cases r <;> simp [bind, Except.bind]

theorem toOption_eq_some {a : α} : r.toOption = some a ↔ r = .ok a := by
  cases r <;> simp [Except.toOption]

theorem map_eq_ok {f : α → β} {b : β} : r.map f = .ok b ↔ ∃ a, r = .ok a ∧ f a = b := by
  cases r <;> simp [Except.map]

theorem map_eq_error {f : α → β} {e : ε} : r.map f = .error e ↔ r = .error e := by
  cases r <;> simp [Except.map]

theorem mapError_eq_ok {ε' : Type*} {f : ε → ε'} {a : α} : r.mapError f = .ok a ↔ r = .ok a := by
  cases r <;> simp [Except.mapError]

theorem map_inj {r' : Except ε α} {f : α → β} (hf : Function.Injective f) : r.map f = r'.map f ↔ r = r' := by
  cases r <;> cases r' <;> simp [Except.map, hf.eq_iff]

end RobotCode.Fallible
