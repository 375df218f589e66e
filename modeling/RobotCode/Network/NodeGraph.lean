import RobotCode.Network.BitSet

/-!
# The graph of the nodes

`MultiNodeNoncausalOffsetEstimator` has a pair of filters for each pair of nodes that exchange timestamps.
`CheckGraph` is to make sure that these pairs connect all nodes. It collects the nodes it can get to. But it starts
from every node that has a filter, so it only notices nodes that have none.
-/

namespace RobotCode.Network

open List

/-- For each node, the other nodes that it has filters to, in the order they were added. -/
structure OffsetEstimator where
  nodesCount : Nat
  filters : List (Nat × Nat)
  filtersPerNode : Nat → List Nat

namespace OffsetEstimator

def make (nodesCount : Nat) : OffsetEstimator := ⟨nodesCount, [], fun _ => []⟩

variable (e : OffsetEstimator)

/-- `GetFilter`. The two nodes are in the key in a fixed order, that of their addresses in the source. -/
def getFilter (a b : Nat) : Except GraphCheck OffsetEstimator :=
  if a = b ∨ e.nodesCount ≤ a ∨ e.nodesCount ≤ b then .error .nodes
  else if (min a b, max a b) ∈ e.filters then .ok e
  else
    .ok ⟨e.nodesCount, (min a b, max a b) :: e.filters,
      Function.update (Function.update e.filtersPerNode a (e.filtersPerNode a ++ [b])) b (e.filtersPerNode b ++ [a])⟩

def getFilters (pairs : List (Nat × Nat)) : Except GraphCheck OffsetEstimator :=
  pairs.foldlM (fun e pair => e.getFilter pair.1 pair.2) e

def seed (found : BitSet64 × Bool) (a : Nat) : Except GraphCheck (BitSet64 × Bool) :=
  match e.filtersPerNode a with
  | [] => .ok found
  | b :: _ => do
      let allNodes ← found.1.set b true
      let allNodes ← allNodes.set a true
      .ok (allNodes, true)

/-- The nodes at the other ends of the filters of node `i`. -/
def addFilters (i : Nat) (filters : List Nat) (nodes : BitSet64) : Except GraphCheck BitSet64 :=
  filters.foldlM (fun nodes b => do
    let nodes ← nodes.set i true
    nodes.set b true) nodes

/-- The loop of `CheckGraph`. -/
def traverse : Nat → BitSet64 → BitSet64 → Except GraphCheck BitSet64
  | 0, _, _ => .error .rounds
  | rounds + 1, allNodes, visitedSet => do
      let unvisited ← visitedSet.complement
      let newNodes := allNodes.and unvisited
      let visitedSet := allNodes
      let allNodes ← newNodes.forEach (fun nodes i => addFilters i (e.filtersPerNode i) nodes) allNodes
      if visitedSet = allNodes then .ok allNodes else traverse rounds allNodes visitedSet

/-- `CheckGraph`. The set grows in each round but the last, so there is one round more than there are nodes at most. -/
def checkGraph : Except GraphCheck Unit :=
  if e.nodesCount = 1 then .ok ()
  else do
    let allNodes ← BitSet64.make e.nodesCount
    let (allNodes, foundStart) ← (range e.nodesCount).foldlM e.seed (allNodes, false)
    if foundStart then do
      let visitedSet ← BitSet64.make allNodes.size
      let allNodes ← e.traverse (e.nodesCount + 1) allNodes visitedSet
      let noNodes ← BitSet64.make allNodes.size
      let fullSet ← noNodes.complement
      if allNodes = fullSet then .ok () else .error .orphaned
    else .error .noStart

structure Built (n : Nat) (pairs : List (Nat × Nat)) (e : OffsetEstimator) : Prop where
  nodesCount : e.nodesCount = n
  valid : ∀ a b, (a, b) ∈ pairs → a ≠ b ∧ a < n ∧ b < n
  key : ∀ a b, (min a b, max a b) ∈ e.filters ↔ (a, b) ∈ pairs ∨ (b, a) ∈ pairs
  mem : ∀ a b, b ∈ e.filtersPerNode a ↔ (a, b) ∈ pairs ∨ (b, a) ∈ pairs

theorem Built.make (n : Nat) : Built n [] (make n) :=
  ⟨rfl, by simp, by simp [OffsetEstimator.make], by simp [OffsetEstimator.make]⟩

variable {e} {e' : OffsetEstimator} {n : Nat} {pairs : List (Nat × Nat)}

variable {a : Nat}

theorem Built.getFilter (h : Built n pairs e) {b : Nat} (hget : e.getFilter a b = .ok e') :
    Built n (pairs ++ [(a, b)]) e' := by
  rw [OffsetEstimator.getFilter, h.nodesCount] at hget
  split at hget
  · cases hget
  rename_i hnodes
  have hpairs : ∀ c d, (c, d) ∈ pairs ++ [(a, b)] → c ≠ d ∧ c < n ∧ d < n := by
    intro c d hcd
    rcases mem_append.mp hcd with hcd | hcd
    · exact h.valid c d hcd
    · obtain ⟨rfl, rfl⟩ := Prod.mk.inj (mem_singleton.mp hcd)
      omega
  have hmem : ∀ c d, (c, d) ∈ pairs ++ [(a, b)] ↔ (c, d) ∈ pairs ∨ c = a ∧ d = b := by simp
  split at hget
  · -- the pair has its filters already
    rename_i hkey
    cases hget
    have hold := (h.key a b).mp hkey
    have hsame : ∀ c d, (c, d) ∈ pairs ++ [(a, b)] ∨ (d, c) ∈ pairs ++ [(a, b)] ↔ (c, d) ∈ pairs ∨ (d, c) ∈ pairs := by
      intro c d
      rw [hmem, hmem]
      refine ⟨?_, fun hcd => hcd.imp .inl .inl⟩
      rintro ((hcd | ⟨rfl, rfl⟩) | (hcd | ⟨rfl, rfl⟩))
      · exact .inl hcd
      · exact hold
      · exact .inr hcd
      · exact hold.symm
    exact ⟨h.nodesCount, hpairs, fun c d => (h.key c d).trans (hsame c d).symm,
      fun c d => (h.mem c d).trans (hsame c d).symm⟩
  · cases hget
    refine ⟨rfl, hpairs, fun c d => ?_, fun c d => ?_⟩
    · have hkeys : (min c d, max c d) = (min a b, max a b) ↔ (c = a ∧ d = b) ∨ (d = a ∧ c = b) := by
        rw [Prod.mk.injEq]
        omega
      rw [mem_cons, hkeys, h.key, hmem, hmem]
      tauto
    · rw [hmem, hmem]
      have hcd := h.mem c d
      dsimp only
      by_cases hcb : c = b
      · subst hcb
        rw [Function.update_self, mem_append, mem_singleton, hcd]
        have : c ≠ a := by omega
        tauto
      · rw [Function.update_of_ne hcb]
        by_cases hca : c = a
        · subst hca
          rw [Function.update_self, mem_append, mem_singleton, hcd]
          tauto
        · rw [Function.update_of_ne hca, hcd]
          tauto

theorem Built.getFilters (hget : (OffsetEstimator.make n).getFilters pairs = .ok e) : Built n pairs e := by
  induction pairs using reverseRecOn generalizing e with
  | nil =>
    cases hget
    exact .make n
  | append_singleton pairs pair ih =>
    rw [OffsetEstimator.getFilters, foldlM_append] at hget
    obtain ⟨e1, hpairs, hlast⟩ := Fallible.bind_eq_ok.mp hget
    rw [foldlM_cons] at hlast
    obtain ⟨e2, hfilter, hnil⟩ := Fallible.bind_eq_ok.mp hlast
    cases hnil
    exact (ih hpairs).getFilter hfilter

theorem Built.lt (h : Built n pairs e) {b : Nat} (hb : b ∈ e.filtersPerNode a) : a < n ∧ b < n := by
  rcases (h.mem a b).mp hb with hpair | hpair
  · exact (h.valid a b hpair).2
  · exact (h.valid b a hpair).2.symm

theorem Built.symm (h : Built n pairs e) {b : Nat} (hb : b ∈ e.filtersPerNode a) : a ∈ e.filtersPerNode b :=
  (h.mem b a).mpr ((h.mem a b).mp hb).symm

def withFilters (e : OffsetEstimator) : Finset Nat :=
  (Finset.range e.nodesCount).filter fun a => e.filtersPerNode a ≠ []

theorem Built.mem_withFilters (h : Built n pairs e) : a ∈ e.withFilters ↔ e.filtersPerNode a ≠ [] := by
  rw [withFilters, Finset.mem_filter, Finset.mem_range, h.nodesCount, and_iff_right_iff_imp]
  intro hne
  obtain ⟨b, hb⟩ := exists_mem_of_ne_nil _ hne
  exact (h.lt hb).1

section Small

variable {s : BitSet64} {S : Finset Nat}

theorem addFilters_spec (filters : List Nat) (hs : Represents s n S) {i : Nat} (hi : i < n)
    (hfilters : ∀ b ∈ filters, b < n) : ∃ s' S', addFilters i filters s = .ok s' ∧ Represents s' n S' ∧
      ∀ j, j ∈ S' ↔ j ∈ S ∨ j ∈ filters ∨ filters ≠ [] ∧ j = i := by
  induction filters generalizing s S with
  | nil => exact ⟨s, S, rfl, hs, by simp⟩
  | cons b filters ih =>
    obtain ⟨s1, hset1, hs1⟩ := hs.set hi
    obtain ⟨s2, hset2, hs2⟩ := hs1.set (hfilters b mem_cons_self)
    obtain ⟨s', S', hrest, hs', hmem⟩ := ih hs2 fun c hc => hfilters c (mem_cons_of_mem b hc)
    refine ⟨s', S', ?_, hs', fun j => ?_⟩
    · rw [addFilters, foldlM_cons, hset1]
      simp only [bind, Except.bind, hset2]
      exact hrest
    · rw [hmem, Finset.mem_insert, Finset.mem_insert, mem_cons]
      simp only [ne_eq, reduceCtorEq, not_false_eq_true, true_and]
      tauto

theorem Built.seeds (h : Built n pairs e) (hs : Represents s n ∅) :
    ∃ s' found, (range n).foldlM e.seed (s, false) = .ok (s', found) ∧ Represents s' n e.withFilters ∧
      (found = true ↔ e.withFilters.Nonempty) := by
  have hloop := Fallible.foldlM_ok (range n) e.seed
    (fun done state => ∃ D, Represents state.1 n D ∧ D ⊆ e.withFilters ∧
      (∀ a ∈ done, e.filtersPerNode a ≠ [] → a ∈ D) ∧ (state.2 = true ↔ ∃ a ∈ done, e.filtersPerNode a ≠ []))
    (s := (s, false)) ⟨∅, hs, by simp, by simp, by simp⟩ ?_
  · obtain ⟨⟨s', found⟩, hok, D, hD, hsub, hall, hfound⟩ := hloop
    have hD' : D = e.withFilters := by
      refine Finset.Subset.antisymm hsub fun a ha => ?_
      rw [withFilters, Finset.mem_filter, Finset.mem_range, h.nodesCount] at ha
      exact hall a (mem_range.mpr ha.1) ha.2
    refine ⟨s', found, hok, hD' ▸ hD, hfound.trans ⟨fun ⟨a, _, ha⟩ => ⟨a, h.mem_withFilters.mpr ha⟩, fun ⟨a, ha⟩ => ?_⟩⟩
    rw [withFilters, Finset.mem_filter, Finset.mem_range, h.nodesCount] at ha
    exact ⟨a, mem_range.mpr ha.1, ha.2⟩
  · rintro done a todo hsplit ⟨s0, found⟩ ⟨D, hD, hsub, hall, hfound⟩
    have ha : a < n := mem_range.mp (hsplit ▸ mem_append_right done mem_cons_self)
    cases hfilters : e.filtersPerNode a with
    | nil =>
      refine ⟨(s0, found), by simp [seed, hfilters], D, hD, hsub, ?_, ?_⟩
      · intro c hc hne
        rcases mem_append.mp hc with hc | hc
        · exact hall c hc hne
        · rw [mem_singleton.mp hc] at hne
          exact absurd hfilters hne
      · rw [hfound]
        simp [or_and_right, exists_or, hfilters]
    | cons b rest =>
      have hb : b ∈ e.filtersPerNode a := hfilters ▸ mem_cons_self
      have hne : e.filtersPerNode a ≠ [] := ne_nil_of_mem hb
      obtain ⟨s1, hset1, hs1⟩ := hD.set (h.lt hb).2
      obtain ⟨s2, hset2, hs2⟩ := hs1.set ha
      refine ⟨(s2, true), ?_, _, hs2, ?_, ?_, ?_⟩
      · simp [seed, hfilters, hset1, hset2, bind, Except.bind]
      · intro c hc
        rcases Finset.mem_insert.mp hc with rfl | hc
        · exact h.mem_withFilters.mpr hne
        · rcases Finset.mem_insert.mp hc with rfl | hc
          · exact h.mem_withFilters.mpr (ne_nil_of_mem (h.symm hb))
          · exact hsub hc
      · intro c hc hne'
        rcases mem_append.mp hc with hc | hc
        · exact Finset.mem_insert_of_mem (Finset.mem_insert_of_mem (hall c hc hne'))
        · rw [mem_singleton.mp hc]
          exact Finset.mem_insert_self _ _
      · simp only [true_iff]
        exact ⟨a, by simp, hne⟩

theorem Built.traverse (h : Built n pairs e) {visited : BitSet64} (hs : Represents s n e.withFilters)
    (hvisited : Represents visited n ∅) (rounds : Nat) : e.traverse (rounds + 1) s visited = .ok s := by
  obtain ⟨unvisited, hcomplement, hunvisited⟩ := hvisited.complement
  obtain ⟨s', hforEach, hs'⟩ := (hs.and hunvisited).forEach
    (fun nodes i => addFilters i (e.filtersPerNode i) nodes) (fun _ nodes => Represents nodes n e.withFilters) s hs (by
      intro i hi _ nodes _ hnodes
      obtain ⟨hmem, hrange⟩ := Finset.mem_inter.mp hi
      obtain ⟨s1, S1, hadd, hs1, hS1⟩ := addFilters_spec _ hnodes (hs.lt i hmem) fun b hb => (h.lt hb).2
      have hsame : S1 = e.withFilters := by
        ext j
        rw [hS1]
        refine ⟨?_, .inl⟩
        rintro (hj | hj | ⟨-, rfl⟩)
        · exact hj
        · exact h.mem_withFilters.mpr (ne_nil_of_mem (h.symm hj))
        · exact hmem
      exact ⟨s1, hadd, hsame ▸ hs1⟩)
  obtain rfl : s = s' := (hs.eq_iff hs').mpr rfl
  rw [OffsetEstimator.traverse, hcomplement]
  simp [bind, Except.bind, hforEach]

theorem Built.checkGraph_eq (h : Built n pairs e) (hn : 2 ≤ n) (hsmall : n ≤ 31) :
    e.checkGraph = if e.withFilters = ∅ then .error .noStart
      else if e.withFilters = Finset.range n then .ok () else .error .orphaned := by
  obtain ⟨s0, hmake, hs0⟩ := Represents.empty hsmall
  obtain ⟨s, found, hseeds, hs, hfound⟩ := h.seeds hs0
  obtain ⟨full, hcomplement, hfull⟩ := hs0.complement
  rw [Finset.sdiff_empty] at hfull
  rw [checkGraph, h.nodesCount, if_neg (by omega), hmake]
  simp only [bind, Except.bind, hseeds]
  cases found with
  | false =>
    have hempty : e.withFilters = ∅ := by
      rw [← Finset.not_nonempty_iff_eq_empty, ← hfound]
      decide
    simp [hempty]
  | true =>
    have hne : e.withFilters ≠ ∅ := Finset.nonempty_iff_ne_empty.mp (hfound.mp rfl)
    simp [hs.size, hmake, h.traverse hs hs0 n, hcomplement, hs.eq_iff hfull, hne]

end Small

theorem Built.checkGraph_empty (h : Built n pairs e) (hn : 2 ≤ n) (hmax : n ≤ 63) (hempty : e.withFilters = ∅) :
    e.checkGraph = .error .noStart := by
  have hnil : ∀ a, e.filtersPerNode a = [] := fun a => by
    by_contra hne
    have hmem := h.mem_withFilters.mpr hne
    simp [hempty] at hmem
  obtain ⟨state, hfold, rfl⟩ := Fallible.foldlM_ok (range n) e.seed (fun _ state => state = (⟨n, 0⟩, false)) rfl
    fun _ a _ _ state hstate => ⟨state, by simp [seed, hnil], hstate⟩
  rw [checkGraph, h.nodesCount, if_neg (by omega), BitSet64.make, if_pos hmax]
  simp only [bind, Except.bind, hfold]
  rfl

theorem Built.checkGraph_undefined (h : Built n pairs e) (hn : 32 ≤ n) (hmax : n ≤ 63) (hne : e.withFilters ≠ ∅) :
    e.checkGraph = .error .undefinedShift := by
  have hset : ∀ (s : BitSet64) (index : Nat), s.size = n →
      Fallible.Meets .undefinedShift False (fun t : BitSet64 => t.size = n) (s.set index true) := by
    intro s index hsize
    rw [BitSet64.set, BitSet64.shiftInt]
    split
    · exact hsize
    split
    · exact hsize
    · exact ⟨rfl, id⟩
  have hseeds : Fallible.Meets .undefinedShift False
      (fun state : BitSet64 × Bool => state.1.size = n ∧ ∀ a < n, e.filtersPerNode a ≠ [] → state.2 = true)
      ((range n).foldlM e.seed (⟨n, 0⟩, false)) := by
    refine Fallible.Meets.foldlM_range
      (P := fun k (state : BitSet64 × Bool) => state.1.size = n ∧ ∀ a < k, e.filtersPerNode a ≠ [] → state.2 = true) ⟨rfl, by simp⟩ ?_
    rintro k - ⟨s, found⟩ ⟨hsize, hfound⟩
    rw [seed]
    split
    · rename_i hnil
      refine ⟨hsize, fun a ha hfilters => ?_⟩
      rcases Nat.lt_succ_iff_lt_or_eq.mp ha with ha | rfl
      · exact hfound a ha hfilters
      · exact absurd hnil hfilters
    · rename_i b rest _
      refine (hset s b hsize).bind fun s1 hsize1 => (hset s1 k hsize1).bind fun s2 hsize2 => ?_
      exact ⟨hsize2, fun _ _ _ => rfl⟩
  rw [checkGraph, h.nodesCount, if_neg (by omega), BitSet64.make, if_pos hmax]
  simp only [bind, Except.bind]
  cases hfold : (range n).foldlM e.seed (⟨n, 0⟩, false) with
  | error err => rw [hseeds.error_eq hfold]
  | ok state =>
    rw [hfold] at hseeds
    obtain ⟨hsize, hfound⟩ := hseeds
    obtain ⟨a, ha⟩ := Finset.nonempty_iff_ne_empty.mpr hne
    have ha' := ha
    rw [withFilters, Finset.mem_filter, Finset.mem_range, h.nodesCount] at ha'
    have hmask : BitSet64.maskBelow n = .error .undefinedShift := if_neg (by omega)
    simp [hfound a ha'.1 ha'.2, hsize, BitSet64.make, if_pos hmax, OffsetEstimator.traverse, BitSet64.complement, hmask, bind, Except.bind]

/-! ### Connected graphs -/

def nodeGraph (n : Nat) (pairs : List (Nat × Nat)) : SimpleGraph (Fin n) :=
  SimpleGraph.fromRel fun a b => ((a : Nat), (b : Nat)) ∈ pairs

theorem Built.adj_iff (h : Built n pairs e) {a b : Fin n} :
    (nodeGraph n pairs).Adj a b ↔ (b : Nat) ∈ e.filtersPerNode a := by
  rw [nodeGraph, SimpleGraph.fromRel_adj, h.mem, and_iff_right_iff_imp]
  rintro (hpair | hpair) rfl
  · exact (h.valid _ _ hpair).1 rfl
  · exact (h.valid _ _ hpair).1 rfl

theorem Built.isolated_iff (h : Built n pairs e) {a : Fin n} :
    (∀ b, ¬ (nodeGraph n pairs).Adj a b) ↔ (a : Nat) ∉ e.withFilters := by
  rw [h.mem_withFilters, not_not]
  refine ⟨fun hnone => ?_, fun hnil b hadj => ?_⟩
  · refine eq_nil_iff_forall_not_mem.mpr fun b hb => ?_
    exact hnone ⟨b, (h.lt hb).2⟩ (h.adj_iff.mpr hb)
  · have hb := h.adj_iff.mp hadj
    rw [hnil] at hb
    cases hb

theorem not_connected_of_isolated (hn : 2 ≤ n) {G : SimpleGraph (Fin n)} {a : Fin n} (hisolated : ∀ b, ¬ G.Adj a b) :
    ¬ G.Connected := by
  intro hconnected
  obtain ⟨b, hb⟩ : ∃ b : Fin n, b ≠ a := by
    have : Nontrivial (Fin n) := Fin.nontrivial_iff_two_le.mpr hn
    exact exists_ne a
  rcases Relation.ReflTransGen.cases_head ((SimpleGraph.reachable_iff_reflTransGen a b).mp (hconnected.preconnected a b))
    with heq | ⟨c, hadj, -⟩
  · exact hb heq.symm
  · exact hisolated c hadj

/-- The program ended with a `CHECK`. -/
def Aborts (r : Except GraphCheck Unit) : Prop := ∃ c, r = .error c ∧ c ≠ .undefinedShift ∧ c ≠ .rounds

/-- For two to 63 nodes, `CheckGraph` returns exactly on the connected graphs if and only if there is no filter at all, or there
are at most 31 nodes and the graph is connected or has a node on its own. -/
theorem checkGraph_connected_iff (n : Nat) (pairs : List (Nat × Nat)) (hn : 2 ≤ n) (hmax : n ≤ 63)
    (h : (make n).getFilters pairs = .ok e) :
    (((nodeGraph n pairs).Connected → e.checkGraph = .ok ()) ∧
      (¬ (nodeGraph n pairs).Connected → Aborts e.checkGraph)) ↔
    pairs = [] ∨ n ≤ 31 ∧
      ((nodeGraph n pairs).Connected ∨ ∃ a, ∀ b, ¬ (nodeGraph n pairs).Adj a b) := by
  have hbuilt := Built.getFilters h
  have hpairs : pairs = [] ↔ e.withFilters = ∅ := by
    refine ⟨fun hnil => Finset.eq_empty_iff_forall_notMem.mpr fun a ha => ?_, fun hempty => ?_⟩
    · obtain ⟨b, hb⟩ := exists_mem_of_ne_nil _ (hbuilt.mem_withFilters.mp ha)
      simpa [hnil] using (hbuilt.mem a b).mp hb
    · refine eq_nil_iff_forall_not_mem.mpr fun ⟨a, b⟩ hab => ?_
      have hmem := hbuilt.mem_withFilters.mpr (ne_nil_of_mem ((hbuilt.mem a b).mpr (.inl hab)))
      simp [hempty] at hmem
  by_cases hempty : e.withFilters = ∅
  · have hisolated := hbuilt.isolated_iff (a := ⟨0, by omega⟩) |>.mpr (by simp [hempty])
    have hnot := not_connected_of_isolated hn hisolated
    rw [hbuilt.checkGraph_empty hn hmax hempty]
    refine iff_of_true ⟨fun hconnected => absurd hconnected hnot, fun _ => ?_⟩ (.inl (hpairs.mpr hempty))
    exact ⟨.noStart, rfl, by decide, by decide⟩
  rcases le_or_gt n 31 with hsmall | hlarge
  · rw [hbuilt.checkGraph_eq hn hsmall, if_neg hempty]
    by_cases hall : e.withFilters = Finset.range n
    · -- all nodes have filters, so it returns whether they are connected or not
      have hnone : ¬ ∃ a, ∀ b, ¬ (nodeGraph n pairs).Adj a b := fun ⟨a, ha⟩ => by
        have hmem := hbuilt.isolated_iff.mp ha
        simp [hall] at hmem
      have haborts : ¬ Aborts (.ok ()) := by simp [Aborts]
      rw [if_pos hall]
      simp [hpairs, hempty, hsmall, hnone, haborts, implies_true, true_and, false_or, or_false, imp_false, not_not]
    · obtain ⟨a, ha, hmem⟩ : ∃ a < n, a ∉ e.withFilters := by
        by_contra hcon
        push Not at hcon
        refine hall (Finset.Subset.antisymm (fun a ha => ?_) fun a ha => hcon a (Finset.mem_range.mp ha))
        rw [withFilters, hbuilt.nodesCount] at ha
        exact (Finset.mem_filter.mp ha).1
      have hisolated := (hbuilt.isolated_iff (a := ⟨a, ha⟩)).mpr hmem
      rw [if_neg hall]
      refine iff_of_true ⟨fun hconnected => absurd hconnected (not_connected_of_isolated hn hisolated), fun _ => ?_⟩
        (.inr ⟨hsmall, .inr ⟨_, hisolated⟩⟩)
      exact ⟨.orphaned, rfl, by decide, by decide⟩
  · rw [hbuilt.checkGraph_undefined hlarge hmax hempty]
    refine iff_of_false (fun ⟨hreturns, haborts⟩ => ?_) fun hcondition => ?_
    on_goal 2 =>
      rcases hcondition with hnil | ⟨hsmall, -⟩
      · exact hempty (hpairs.mp hnil)
      · omega
    by_cases hconnected : (nodeGraph n pairs).Connected
    · cases hreturns hconnected
    · obtain ⟨c, hc, hne, -⟩ := haborts hconnected
      exact hne (Except.error.inj hc).symm

/-- Three nodes in a row. -/
theorem checkGraph_connected_three : ∃ e, (make 3).getFilters [(0, 1), (2, 1)] = .ok e ∧
    (nodeGraph 3 [(0, 1), (2, 1)]).Connected ∧ e.checkGraph = .ok () := by
  refine ⟨_, rfl, ?hconnected, ((checkGraph_connected_iff 3 _ (by decide) (by decide) rfl).mpr
    (.inr ⟨by decide, .inl ?hconnected⟩)).1 ?hconnected⟩
  refine (SimpleGraph.connected_iff_exists_forall_reachable _).mpr ⟨1, fun b => ?_⟩
  fin_cases b
  · exact SimpleGraph.Adj.reachable (by simp [nodeGraph])
  · exact SimpleGraph.Reachable.refl 1
  · exact SimpleGraph.Adj.reachable (by simp [nodeGraph])

/-- Two pairs of nodes with nothing between them. -/
theorem checkGraph_returns_disconnected : ∃ e, (make 4).getFilters [(0, 1), (2, 3)] = .ok e ∧
    e.checkGraph = .ok () ∧ ¬ (nodeGraph 4 [(0, 1), (2, 3)]).Connected := by
  refine ⟨_, rfl, by decide +kernel, fun hconnected => ?_⟩
  have hclosed : ∀ a b : Fin 4, (a : Nat) < 2 → (nodeGraph 4 [(0, 1), (2, 3)]).Adj a b → (b : Nat) < 2 := by
    simp only [nodeGraph, SimpleGraph.fromRel_adj]
    decide
  have hreach : ∀ b : Fin 4, Relation.ReflTransGen (nodeGraph 4 [(0, 1), (2, 3)]).Adj 0 b → (b : Nat) < 2 := by
    intro b hb
    induction hb with
    | refl => decide
    | tail _ hadj ih => exact hclosed _ _ ih hadj
  have htwo := hreach 2 ((SimpleGraph.reachable_iff_reflTransGen 0 2).mp (hconnected.preconnected 0 2))
  exact absurd htwo (by decide)

end OffsetEstimator

end RobotCode.Network
