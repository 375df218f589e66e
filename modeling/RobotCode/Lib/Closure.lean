import Mathlib

/-!
# Closing a set round by round

A traversal of a graph keeps the nodes it has come across and those of them that it has visited. Each round visits
all nodes that are new and adds their successors. When nothing is new any more, the nodes are those that can be
reached from where it started.
-/

namespace RobotCode.Closure

variable {α : Type*}

/-- What holds between two rounds. -/
structure Frontier (next : α → α → Prop) (seeds all visited : Finset α) : Prop where
  seeds_subset : seeds ⊆ all
  reached : ∀ b ∈ all, ∃ a ∈ seeds, Relation.ReflTransGen next a b
  visited_subset : visited ⊆ all
  expanded : ∀ a ∈ visited, ∀ b, next a b → b ∈ all

variable {next : α → α → Prop} {seeds all all' visited : Finset α}

theorem Frontier.start (next : α → α → Prop) (seeds : Finset α) : Frontier next seeds seeds ∅ :=
  ⟨Finset.Subset.refl _, fun b hb => ⟨b, hb, .refl⟩, Finset.empty_subset _, by simp⟩

theorem Frontier.round [DecidableEq α] (h : Frontier next seeds all visited)
    (hall : ∀ b, b ∈ all' ↔ b ∈ all ∨ ∃ a ∈ all \ visited, next a b) : Frontier next seeds all' all := by
  have hsub : all ⊆ all' := fun b hb => (hall b).mpr (.inl hb)
  refine ⟨h.seeds_subset.trans hsub, fun b hb => ?_, hsub, fun a ha b hab => ?_⟩
  · rcases (hall b).mp hb with hb | ⟨a, ha, hab⟩
    · exact h.reached b hb
    · obtain ⟨s, hs, hsa⟩ := h.reached a (Finset.mem_sdiff.mp ha).1
      exact ⟨s, hs, hsa.tail hab⟩
  · by_cases hvisited : a ∈ visited
    · exact hsub (h.expanded a hvisited b hab)
    · exact (hall b).mpr (.inr ⟨a, Finset.mem_sdiff.mpr ⟨ha, hvisited⟩, hab⟩)

theorem Frontier.mem_iff (h : Frontier next seeds all visited) (hdone : all ⊆ visited) {b : α} :
    b ∈ all ↔ ∃ a ∈ seeds, Relation.ReflTransGen next a b := by
  refine ⟨h.reached b, ?_⟩
  rintro ⟨a, ha, hab⟩
  induction hab with
  | refl => exact h.seeds_subset ha
  | tail _ hbc ih => exact h.expanded _ (hdone ih) _ hbc

end RobotCode.Closure
