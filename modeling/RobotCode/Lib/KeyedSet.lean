import Mathlib

/-!
# Ordered sets of keyed values

A search tree that compares its elements by a key holds at most one element for each key, in the order of
the keys. It is the list of its elements here. Inserting a value whose key is present changes nothing.
-/

namespace RobotCode.KeyedSet

open List.Pairwise

variable {α κ : Type} {key : α → κ} {a b : α} {l l' : List α}

def keys (key : α → κ) (l : List α) : Set κ := {k | k ∈ l.map key}

theorem mem_keys {k : κ} : k ∈ keys key l ↔ ∃ a ∈ l, key a = k := by
  simp [keys]

theorem keys_cons : keys key (a :: l) = {key a} ∪ keys key l := by
  ext k
  simp [keys]

variable [LinearOrder κ]

def Ordered (key : α → κ) (l : List α) : Prop := l.Pairwise fun a b => key a < key b

def insert (key : α → κ) (a : α) : List α → List α
  | [] => [a]
  | b :: l => if key a < key b then a :: b :: l else if key b < key a then b :: insert key a l else b :: l

theorem eq_or_mem_of_mem_insert (h : b ∈ insert key a l) : b = a ∨ b ∈ l := by
  induction l with
  | nil => simpa [insert] using h
  | cons c l ih =>
    rw [insert] at h
    split at h
    · simpa using h
    · split at h
      · rw [List.mem_cons] at h
        obtain heq | hmem := h
        · exact .inr (heq ▸ List.mem_cons_self)
        · exact (ih hmem).imp_right (List.mem_cons_of_mem c)
      · exact .inr h

theorem length_insert_le (key : α → κ) (a : α) (l : List α) : (insert key a l).length ≤ l.length + 1 := by
  induction l with
  | nil => exact le_rfl
  | cons b l ih =>
    rw [insert]
    split
    · exact le_rfl
    · split
      · exact Nat.succ_le_succ ih
      · exact Nat.le_succ _

theorem Ordered.insert (h : Ordered key l) (a : α) : Ordered key (insert key a l) := by
  induction l with
  | nil => exact List.pairwise_singleton _ _
  | cons b l ih =>
    obtain ⟨hb, hl⟩ := List.pairwise_cons.mp h
    rw [KeyedSet.insert]
    split
    · next hlt =>
      apply cons _ h
      intro c hc
      obtain heq | hmem := List.mem_cons.mp hc
      · exact heq ▸ hlt
      · exact hlt.trans (hb c hmem)
    · split
      · next hgt =>
        apply cons _ (ih hl)
        intro c hc
        obtain heq | hmem := eq_or_mem_of_mem_insert hc
        · exact heq ▸ hgt
        · exact hb c hmem
      · exact h

theorem keys_insert : keys key (insert key a l) = {key a} ∪ keys key l := by
  induction l with
  | nil => exact keys_cons
  | cons b l ih =>
    rw [insert]
    split
    · exact keys_cons
    · next hle =>
      split
      · rw [keys_cons, ih, keys_cons, Set.union_left_comm]
      · next hge =>
        have heq : key a = key b := le_antisymm (not_lt.mp hge) (not_lt.mp hle)
        rw [keys_cons, heq, ← Set.union_assoc, Set.union_self]

theorem Ordered.eq_of_key_eq (h : Ordered key l) (ha : a ∈ l) (hb : b ∈ l) (hkey : key a = key b) : a = b := by
  have hnodup : (l.map key).Nodup := by
    apply imp _ (List.pairwise_map.mpr h)
    intro a b hlt
    exact hlt.ne
  exact List.inj_on_of_nodup_map hnodup ha hb hkey

theorem Ordered.map_key_eq (h : Ordered key l) (h' : Ordered key l') (hkeys : keys key l = keys key l') :
    l.map key = l'.map key := by
  apply eq_of_mem_iff (r := fun a b : κ => a < b)
  · exact List.pairwise_map.mpr h
  · exact List.pairwise_map.mpr h'
  · intro k
    exact Set.ext_iff.mp hkeys k

end RobotCode.KeyedSet
