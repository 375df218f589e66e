import Mathlib

/-!
# Multimaps that keep insertion order

A multimap from an ordered type of keys, as the list of its entries in iteration order. An entry goes in
behind all those with the same key, so entries with one key stay in the order they came. Each entry has a
token, its place in that order, which also stands for the iterator that names it.
-/

namespace RobotCode.Multimap

variable {κ β : Type}

structure Entry (κ β : Type) where
  key : κ
  token : Nat
  value : β
  deriving DecidableEq, Repr

/-- The order of iteration. -/
def Entry.Before [LT κ] (x y : Entry κ β) : Prop := x.key < y.key ∨ x.key = y.key ∧ x.token < y.token

/-- `emplace` -/
def insert [LE κ] [DecidableLE κ] (x : Entry κ β) (entries : List (Entry κ β)) : List (Entry κ β) :=
  entries.takeWhile (fun y => y.key ≤ x.key) ++ x :: entries.dropWhile (fun y => y.key ≤ x.key)

/-- `erase` of the entry an iterator names. -/
def erase (token : Nat) (entries : List (Entry κ β)) : List (Entry κ β) := entries.eraseP fun y => y.token = token

def find (token : Nat) (entries : List (Entry κ β)) : Option (Entry κ β) := entries.find? fun y => y.token = token

variable {x y : Entry κ β} {entries : List (Entry κ β)} {token : Nat}

theorem erase_perm (h : find token entries = some x) : entries.Perm (x :: erase token entries) := by
  induction entries with
  | nil => cases h
  | cons y rest ih =>
    by_cases hy : y.token = token
    · obtain rfl : y = x := by simpa [find, hy] using h
      simp [erase, hy]
    · have hrest : find token rest = some x := by simpa [find, hy] using h
      have herase : erase token (y :: rest) = y :: erase token rest := by simp [erase, hy]
      rw [herase]
      exact ((ih hrest).cons y).trans (.swap x y _)

section Order

variable [LinearOrder κ]

theorem Entry.Before.key_le (h : x.Before y) : x.key ≤ y.key := by
  rcases h with h | h
  · exact h.le
  · exact h.1.le

theorem insert_perm : (insert x entries).Perm (x :: entries) := by
  unfold insert
  refine List.perm_middle.trans ?_
  rw [List.takeWhile_append_dropWhile]

theorem pairwise_insert (h : entries.Pairwise Entry.Before) (hnew : ∀ y ∈ entries, y.token < x.token) :
    (insert x entries).Pairwise Entry.Before := by
  induction entries with
  | nil => simp [insert]
  | cons y rest ih =>
    obtain ⟨hy, hrest⟩ := List.pairwise_cons.mp h
    have hnew' : ∀ z ∈ rest, z.token < x.token := fun z hz => hnew z (List.mem_cons_of_mem _ hz)
    by_cases hle : y.key ≤ x.key
    · have hinsert : insert x (y :: rest) = y :: insert x rest := by simp [insert, hle]
      rw [hinsert, List.pairwise_cons]
      refine ⟨?_, ih hrest hnew'⟩
      intro z hz
      rcases List.mem_cons.mp (insert_perm.mem_iff.mp hz) with rfl | hz
      · have hyx : y.token < z.token := hnew y List.mem_cons_self
        rcases hle.lt_or_eq with hlt | heq
        · exact .inl hlt
        · exact .inr ⟨heq, hyx⟩
      · exact hy z hz
    · have hinsert : insert x (y :: rest) = x :: y :: rest := by simp [insert, hle]
      rw [hinsert, List.pairwise_cons]
      refine ⟨?_, h⟩
      intro z hz
      rcases List.mem_cons.mp hz with rfl | hz
      · exact .inl (not_le.mp hle)
      · exact .inl ((not_le.mp hle).trans_le (hy z hz).key_le)

theorem pairwise_erase (h : entries.Pairwise Entry.Before) : (erase token entries).Pairwise Entry.Before :=
  h.sublist List.eraseP_sublist

end Order

end RobotCode.Multimap
