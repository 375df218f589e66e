import RobotCode.Lib.Closure
import RobotCode.Network.NodeGraph

/-!
# The nodes with samples

`MakeProblem` makes the time estimation problem for the nodes that have samples. It walks over them to see that they
are connected, and leaves out the other nodes. The walk follows a filter only from the node whose filter it is, and
only if that filter has samples. So a node whose samples are all in its own filters is not found from the others,
although the problem itself handles connections with data in one direction.

The samples of the filters are those after everything needed has been queued: no timestamp mapper is set here.
-/

namespace RobotCode.Network

open List

structure TimestampProblem where
  filters : Nat → List Nat
  live : Nat → Bool

namespace OffsetEstimator

/-- What the first loop of `MakeProblem` collects. -/
structure Collected where
  traversedNodes : BitSet64
  allLiveNodes : BitSet64
  foundStart : Bool
  problem : TimestampProblem

def Collected.pickStart (c : Collected) (a b : Nat) : Except GraphCheck Collected :=
  if c.foundStart then .ok c
  else do
    let traversedNodes ← c.traversedNodes.set a true
    let traversedNodes ← traversedNodes.set b true
    .ok ⟨traversedNodes, c.allLiveNodes, true, c.problem⟩

variable (e : OffsetEstimator) (count : Nat → Nat → Nat)

/-- The filter from node `a` to node `b`, which has `count a b` samples. -/
def collect (a : Nat) (c : Collected) (b : Nat) : Except GraphCheck Collected :=
  if 0 < count a b then do
    let c ← c.pickStart a b
    let allLiveNodes ← c.allLiveNodes.set a true
    let allLiveNodes ← allLiveNodes.set b true
    let filters := Function.update c.problem.filters a (c.problem.filters a ++ [b])
    .ok ⟨c.traversedNodes, allLiveNodes, c.foundStart, ⟨filters, c.problem.live⟩⟩
  else .ok c

/-- The nodes at the other ends of the filters of node `i` that have samples. -/
def addLive (i : Nat) (filters : List Nat) (nodes : BitSet64) : Except GraphCheck BitSet64 :=
  filters.foldlM (fun nodes b =>
    if 0 < count i b then do
      let nodes ← nodes.set i true
      nodes.set b true
    else .ok nodes) nodes

def traverseLive : Nat → BitSet64 → BitSet64 → Except GraphCheck BitSet64
  | 0, _, _ => .error .rounds
  | rounds + 1, traversedNodes, visitedSet => do
      let unvisited ← visitedSet.complement
      let newNodes := traversedNodes.and unvisited
      let visitedSet := traversedNodes
      let (traversedNodes, found) ← newNodes.forEach (fun (state : BitSet64 × Nat) i => do
        let nodes ← addLive count i (e.filtersPerNode i) state.1
        .ok (nodes, state.2 + 1)) (traversedNodes, 0)
      if found = 0 then .ok traversedNodes else traverseLive rounds traversedNodes visitedSet

def markDead (allNodes allLiveNodes traversedNodes : BitSet64) (problem : TimestampProblem) :
    Except GraphCheck TimestampProblem :=
  if allNodes = allLiveNodes then .ok problem
  else do
    let untraversed ← traversedNodes.complement
    (allNodes.and untraversed).forEach (fun problem i =>
      .ok ⟨problem.filters, Function.update problem.live i false⟩) problem

/-- `MakeProblem`. Each round of the walk but the last visits a new node, so there is one round more than there are
nodes at most. -/
def makeProblem : Except GraphCheck TimestampProblem :=
  if e.nodesCount ≤ 1 then .error .nodes
  else do
    let noNodes ← BitSet64.make e.nodesCount
    let allNodes ← noNodes.complement
    let c ← (range e.nodesCount).foldlM (fun c a => (e.filtersPerNode a).foldlM (collect count a) c)
      ⟨noNodes, noNodes, false, ⟨fun _ => [], fun _ => true⟩⟩
    let traversedNodes ← e.traverseLive count (e.nodesCount + 1) c.traversedNodes noNodes
    if traversedNodes = c.allLiveNodes then markDead allNodes c.allLiveNodes traversedNodes c.problem
    else .error .disconnected

/-- The filter from `a` to `b` has samples. -/
def Forward (a b : Nat) : Prop := b ∈ e.filtersPerNode a ∧ 0 < count a b

/-- A node that touches a filter with samples. -/
def Live (a : Nat) : Prop := ∃ b, Forward e count a b ∨ Forward e count b a

/-- The pairs of nodes with samples in at least one direction. -/
def sampleGraph (n : Nat) : SimpleGraph (Fin n) := SimpleGraph.fromRel fun a b => Forward e count a b

def LiveConnected (n : Nat) : Prop :=
  ∀ a b : Fin n, Live e count a → Live e count b → (sampleGraph e count n).Reachable a b

/-- Node `a` is the first one with samples in a filter of its own. -/
def StartsAt (a : Nat) : Prop := (∃ b, Forward e count a b) ∧ ∀ a' < a, ∀ b, ¬ Forward e count a' b

/-- All nodes with samples can be reached from that one along filters with samples. -/
def ReachesLive : Prop :=
  ∀ a, StartsAt e count a → ∀ c, Live e count c → Relation.ReflTransGen (Forward e count) a c

variable {e count} {n : Nat} {pairs : List (Nat × Nat)} {s : BitSet64} {S : Finset Nat}

def allFilters (e : OffsetEstimator) : List (Nat × Nat) :=
  (range e.nodesCount).flatMap fun a => (e.filtersPerNode a).map (Prod.mk a)

variable {seeds live : Finset Nat} {c : Collected} {a : Nat}

theorem Built.mem_allFilters (h : Built n pairs e) {b : Nat} : (a, b) ∈ e.allFilters ↔ b ∈ e.filtersPerNode a := by
  simp only [allFilters, mem_flatMap, mem_range, mem_map, Prod.mk.injEq, h.nodesCount]
  refine ⟨fun ⟨a', _, b', hb', ha, hb⟩ => ha ▸ hb ▸ hb', fun hb => ⟨a, (h.lt hb).1, b, hb, rfl, rfl⟩⟩

theorem allFilters_sorted (e : OffsetEstimator) : e.allFilters.Pairwise fun x y => x.1 ≤ y.1 := by
  rw [allFilters, pairwise_flatMap]
  refine ⟨fun a _ => List.Pairwise.map _ (fun _ _ _ => le_rfl) (pairwise_of_forall fun _ _ => trivial), ?_⟩
  refine pairwise_lt_range.imp fun {a b} hlt => ?_
  simp only [mem_map]
  rintro _ ⟨x, -, rfl⟩ _ ⟨y, -, rfl⟩
  exact hlt.le

/-- What has been collected from the filters `done`. -/
structure CollectedFrom (count : Nat → Nat → Nat) (n : Nat) (done : List (Nat × Nat)) (c : Collected)
    (seeds live : Finset Nat) : Prop where
  traversed : Represents c.traversedNodes n seeds
  allLive : Represents c.allLiveNodes n live
  mem_live : ∀ j, j ∈ live ↔ ∃ a b, (a, b) ∈ done ∧ 0 < count a b ∧ (j = a ∨ j = b)
  start : (c.foundStart = false ∧ seeds = ∅ ∧ ∀ a b, (a, b) ∈ done → count a b = 0) ∨
    c.foundStart = true ∧ ∃ before a b after, done = before ++ (a, b) :: after ∧ 0 < count a b ∧ seeds = {a, b} ∧
      ∀ a' b', (a', b') ∈ before → count a' b' = 0
  live : c.problem.live = fun _ => true

theorem CollectedFrom.pickStart {done : List (Nat × Nat)}
    (h : CollectedFrom count n done c seeds live) {b : Nat} (ha : a < n) (hb : b < n) :
    ∃ c' seeds', c.pickStart a b = .ok c' ∧ c'.allLiveNodes = c.allLiveNodes ∧ c'.problem = c.problem ∧
      Represents c'.traversedNodes n seeds' ∧ c'.foundStart = true ∧
      ((c.foundStart = true ∧ seeds' = seeds) ∨ (c.foundStart = false ∧ seeds' = {a, b})) := by
  rw [Collected.pickStart]
  cases hstart : c.foundStart with
  | true => exact ⟨c, seeds, by simp, rfl, rfl, h.traversed, hstart, .inl ⟨rfl, rfl⟩⟩
  | false =>
    rcases h.start with ⟨-, hempty, -⟩ | ⟨hfound, -⟩
    · obtain ⟨t1, hset1, ht1⟩ := h.traversed.set ha
      obtain ⟨t2, hset2, ht2⟩ := ht1.set hb
      refine ⟨⟨t2, c.allLiveNodes, true, c.problem⟩, _, ?_, rfl, rfl, ht2, rfl, .inr ⟨rfl, ?_⟩⟩
      · simp [hset1, hset2, bind, Except.bind]
      · rw [hempty]
        ext j
        simp [or_comm]
    · rw [hstart] at hfound
      cases hfound

theorem CollectedFrom.collect {done : List (Nat × Nat)}
    (h : CollectedFrom count n done c seeds live) {b : Nat} (ha : a < n) (hb : b < n) :
    ∃ c', collect count a c b = .ok c' ∧ ∃ seeds' live', CollectedFrom count n (done ++ [(a, b)]) c' seeds' live' := by
  rw [OffsetEstimator.collect]
  have hmem : ∀ x y, (x, y) ∈ done ++ [(a, b)] ↔ (x, y) ∈ done ∨ x = a ∧ y = b := by simp
  split
  · rename_i hcount
    obtain ⟨c1, seeds', hpick, hlive1, hproblem1, htraversed, hfound, hseeds⟩ := h.pickStart ha hb
    obtain ⟨t1, hset1, ht1⟩ := h.allLive.set ha
    obtain ⟨t2, hset2, ht2⟩ := ht1.set hb
    refine ⟨⟨c1.traversedNodes, t2, c1.foundStart,
        ⟨Function.update c1.problem.filters a (c1.problem.filters a ++ [b]), c1.problem.live⟩⟩,
      by simp only [hpick, hlive1, hset1, hset2, bind, Except.bind], seeds', _, htraversed, ht2, ?_, ?_, ?_⟩
    · intro j
      rw [Finset.mem_insert, Finset.mem_insert, h.mem_live]
      refine ⟨?_, ?_⟩
      · rintro (rfl | rfl | ⟨x, y, hxy, hpos, hj⟩)
        · exact ⟨a, j, (hmem _ _).mpr (.inr ⟨rfl, rfl⟩), hcount, .inr rfl⟩
        · exact ⟨j, b, (hmem _ _).mpr (.inr ⟨rfl, rfl⟩), hcount, .inl rfl⟩
        · exact ⟨x, y, (hmem x y).mpr (.inl hxy), hpos, hj⟩
      · rintro ⟨x, y, hxy, hpos, hj⟩
        rcases (hmem x y).mp hxy with hxy | ⟨rfl, rfl⟩
        · exact .inr (.inr ⟨x, y, hxy, hpos, hj⟩)
        · exact hj.elim (fun h => .inr (.inl h)) .inl
    · refine .inr ⟨hfound, ?_⟩
      rcases hseeds with ⟨hfound0, rfl⟩ | ⟨hfound0, rfl⟩
      · rcases h.start with ⟨hnot, -⟩ | ⟨-, before, x, y, after, hdone, hrest⟩
        · rw [hnot] at hfound0
          cases hfound0
        · exact ⟨before, x, y, after ++ [(a, b)], by simp [hdone], hrest⟩
      · rcases h.start with ⟨-, -, hzero⟩ | ⟨hnot, -⟩
        · exact ⟨done, a, b, [], rfl, hcount, rfl, hzero⟩
        · rw [hnot] at hfound0
          cases hfound0
    · exact (congrArg TimestampProblem.live hproblem1).trans h.live
  · rename_i hcount
    have hzero : count a b = 0 := by omega
    refine ⟨c, rfl, seeds, live, h.traversed, h.allLive, fun j => ?_, ?_, h.live⟩
    · rw [h.mem_live]
      refine ⟨fun ⟨x, y, hxy, hrest⟩ => ⟨x, y, (hmem x y).mpr (.inl hxy), hrest⟩, fun ⟨x, y, hxy, hpos, hj⟩ => ?_⟩
      rcases (hmem x y).mp hxy with hxy | ⟨rfl, rfl⟩
      · exact ⟨x, y, hxy, hpos, hj⟩
      · omega
    · refine h.start.imp (fun ⟨hfound, hempty, hall⟩ => ⟨hfound, hempty, fun x y hxy => ?_⟩)
        fun ⟨hfound, before, x, y, after, hdone, hrest⟩ => ⟨hfound, before, x, y, after ++ [(a, b)], by simp [hdone], hrest⟩
      rcases (hmem x y).mp hxy with hxy | ⟨rfl, rfl⟩
      · exact hall x y hxy
      · exact hzero

section

variable (h : Built n pairs e)

include h

theorem Built.collected (count : Nat → Nat → Nat) (hs : Represents s n ∅) :
    ∃ c seeds live, (range n).foldlM (fun c a => (e.filtersPerNode a).foldlM (collect count a) c)
        ⟨s, s, false, ⟨fun _ => [], fun _ => true⟩⟩ = .ok c ∧ CollectedFrom count n e.allFilters c seeds live := by
  have hall : ((range n).flatMap fun a => (e.filtersPerNode a).map (Prod.mk a)) = e.allFilters := by
    rw [allFilters, h.nodesCount]
  rw [Fallible.foldlM_foldlM, hall]
  have hloop := Fallible.foldlM_ok e.allFilters (fun c pair => collect count pair.1 c pair.2)
    (fun done c => ∃ seeds live, CollectedFrom count n done c seeds live)
    (s := ⟨s, s, false, ⟨fun _ => [], fun _ => true⟩⟩)
    ⟨∅, ∅, hs, hs, by simp, .inl ⟨rfl, rfl, by simp⟩, rfl⟩ (by
      rintro done ⟨a, b⟩ todo hsplit c ⟨seeds, live, hc⟩
      have hb : b ∈ e.filtersPerNode a := h.mem_allFilters.mp (hsplit ▸ by simp)
      exact hc.collect (h.lt hb).1 (h.lt hb).2)
  obtain ⟨c, hok, seeds, live, hc⟩ := hloop
  exact ⟨c, seeds, live, hok, hc⟩

omit h in
theorem addLive_eq (i : Nat) (filters : List Nat) (s : BitSet64) :
    addLive count i filters s = addFilters i (filters.filter fun b => 0 < count i b) s := by
  induction filters generalizing s with
  | nil => rfl
  | cons b filters ih =>
    rw [addLive, foldlM_cons, filter_cons]
    by_cases hcount : 0 < count i b
    · simp only [hcount, if_true, decide_true]
      rw [addFilters, foldlM_cons]
      exact congrArg _ (funext ih)
    · simp only [hcount, if_false, decide_false]
      exact ih s

theorem Built.addLive_spec (count : Nat → Nat → Nat) (hs : Represents s n S) {i : Nat}
    (hi : i ∈ S) : ∃ s' S', addLive count i (e.filtersPerNode i) s = .ok s' ∧ Represents s' n S' ∧
      ∀ j, j ∈ S' ↔ j ∈ S ∨ Forward e count i j := by
  obtain ⟨s', S', hadd, hs', hmem⟩ := addFilters_spec ((e.filtersPerNode i).filter fun b => 0 < count i b) hs
    (hs.lt i hi) fun b hb => (h.lt (mem_of_mem_filter hb)).2
  refine ⟨s', S', (addLive_eq i _ s).trans hadd, hs', fun j => ?_⟩
  rw [hmem, mem_filter, decide_eq_true_eq]
  refine ⟨?_, fun hj => hj.imp_right .inl⟩
  rintro (hj | hj | ⟨-, rfl⟩)
  · exact .inl hj
  · exact .inr hj
  · exact .inl hi

theorem Built.traverseLive {T V : Finset Nat} {traversed visited : BitSet64}
    (hfrontier : Closure.Frontier (Forward e count) seeds T V) (ht : Represents traversed n T)
    (hv : Represents visited n V) {rounds : Nat} (hrounds : n < V.card + rounds) :
    ∃ t' R, e.traverseLive count rounds traversed visited = .ok t' ∧ Represents t' n R ∧
      ∀ b, b ∈ R ↔ ∃ a ∈ seeds, Relation.ReflTransGen (Forward e count) a b := by
  induction rounds generalizing T V traversed visited with
  | zero =>
    have hcard : V.card ≤ n := by
      rw [← Finset.card_range n]
      exact Finset.card_le_card fun i hi => Finset.mem_range.mpr (hv.lt i hi)
    omega
  | succ rounds ih =>
    obtain ⟨unvisited, hcomplement, hunvisited⟩ := hv.complement
    have hnew : T ∩ (Finset.range n \ V) = T \ V := by
      ext i
      simp only [Finset.mem_inter, Finset.mem_sdiff, Finset.mem_range]
      have := ht.lt i
      tauto
    have hand := ht.and hunvisited
    rw [hnew] at hand
    -- what the new nodes so far lead to has been added
    obtain ⟨⟨t1, found⟩, hforEach, ⟨T1, ht1, hT1⟩, hfound⟩ := hand.forEach
      (fun (state : BitSet64 × Nat) i => do
        let nodes ← addLive count i (e.filtersPerNode i) state.1
        .ok (nodes, state.2 + 1))
      (fun D state => (∃ T1, Represents state.1 n T1 ∧ ∀ j, j ∈ T1 ↔ j ∈ T ∨ ∃ i ∈ D, Forward e count i j) ∧
        (state.2 = 0 ↔ D = ∅)) (traversed, 0) ⟨⟨T, ht, by simp⟩, by simp⟩ (by
          rintro i hi D ⟨s, k⟩ - ⟨⟨T1, hs, hT1⟩, -⟩
          have hiT : i ∈ T1 := (hT1 i).mpr (.inl (Finset.mem_sdiff.mp hi).1)
          obtain ⟨s', T2, hadd, hs', hT2⟩ := h.addLive_spec count hs hiT
          refine ⟨(s', k + 1), by simp [hadd, bind, Except.bind], ⟨T2, hs', fun j => ?_⟩, by simp⟩
          rw [hT2, hT1]
          simp only [Finset.mem_insert, exists_eq_or_imp]
          rw [or_assoc]
          exact or_congr_right or_comm)
    rw [OffsetEstimator.traverseLive, hcomplement]
    simp only [bind, Except.bind] at hforEach ⊢
    rw [hforEach]
    dsimp only
    split
    · rename_i hzero
      have hempty := hfound.mp hzero
      have hsame : T1 = T := by
        ext j
        rw [hT1, hempty]
        simp
      refine ⟨t1, T, rfl, hsame ▸ ht1, fun b => ?_⟩
      exact hfrontier.mem_iff (Finset.sdiff_eq_empty_iff_subset.mp hempty)
    · rename_i hzero
      have hnonempty : (T \ V).Nonempty := Finset.nonempty_iff_ne_empty.mpr fun hempty => hzero (hfound.mpr hempty)
      have hcard : V.card < T.card := by
        have hpos := Finset.card_pos.mpr hnonempty
        rw [Finset.card_sdiff_of_subset hfrontier.visited_subset] at hpos
        omega
      exact ih (hfrontier.round hT1) ht1 ht (by omega)

/-! ### The problem -/

theorem Built.seeds_spec (hc : CollectedFrom count n e.allFilters c seeds live) :
    (∀ j, j ∈ live ↔ Live e count j) ∧ ((seeds = ∅ ∧ ∀ a b, ¬ Forward e count a b) ∨
        ∃ a b, seeds = {a, b} ∧ Forward e count a b ∧ StartsAt e count a) := by
  refine ⟨fun j => ?_, ?_⟩
  · rw [hc.mem_live]
    refine ⟨?_, ?_⟩
    · rintro ⟨a, b, hab, hcount, rfl | rfl⟩
      · exact ⟨b, .inl ⟨h.mem_allFilters.mp hab, hcount⟩⟩
      · exact ⟨a, .inr ⟨h.mem_allFilters.mp hab, hcount⟩⟩
    · rintro ⟨b, ⟨hb, hcount⟩ | ⟨hb, hcount⟩⟩
      · exact ⟨j, b, h.mem_allFilters.mpr hb, hcount, .inl rfl⟩
      · exact ⟨b, j, h.mem_allFilters.mpr hb, hcount, .inr rfl⟩
  · rcases hc.start with ⟨-, hempty, hzero⟩ | ⟨-, before, a, b, after, hdone, hcount, hseeds, hbefore⟩
    · refine .inl ⟨hempty, fun a b ⟨hb, hcount⟩ => ?_⟩
      have := hzero a b (h.mem_allFilters.mpr hb)
      omega
    · have hab : Forward e count a b := ⟨h.mem_allFilters.mp (hdone ▸ by simp), hcount⟩
      refine .inr ⟨a, b, hseeds, hab, ⟨b, hab⟩, fun a' hlt b' ⟨hb', hcount'⟩ => ?_⟩
      -- a filter of an earlier node would come before this one
      have hmem := h.mem_allFilters.mpr hb'
      have hsorted := allFilters_sorted e
      rw [hdone] at hmem hsorted
      rcases mem_append.mp hmem with hmem | hmem
      · have := hbefore a' b' hmem
        omega
      · rcases mem_cons.mp hmem with heq | hmem
        · have := (Prod.mk.inj heq).1
          omega
        · have hle := rel_of_pairwise_cons (pairwise_append.mp hsorted).2.1 hmem
          simp only at hle
          omega

omit h in
theorem markDead_spec {allNodes allLive traversed : BitSet64} {problem : TimestampProblem}
    (hall : Represents allNodes n (Finset.range n)) (hlive : Represents allLive n S) (ht : Represents traversed n S)
    (hproblem : problem.live = fun _ => true) :
    ∃ problem', markDead allNodes allLive traversed problem = .ok problem' ∧
      ∀ a < n, (problem'.live a = false ↔ a ∉ S) := by
  rw [markDead]
  by_cases heq : Finset.range n = S
  · rw [if_pos ((hall.eq_iff hlive).mpr heq)]
    refine ⟨problem, rfl, fun a ha => ?_⟩
    rw [hproblem, ← heq]
    simp [ha]
  · rw [if_neg fun h => heq ((hall.eq_iff hlive).mp h)]
    obtain ⟨untraversed, hcomplement, huntraversed⟩ := ht.complement
    obtain ⟨problem', hforEach, hlive'⟩ := (hall.and huntraversed).forEach
      (fun problem i => .ok ⟨problem.filters, Function.update problem.live i false⟩)
      (fun D problem => ∀ a, problem.live a = false ↔ a ∈ D) problem (by simp [hproblem]) (by
        intro i _ D p _ hp
        refine ⟨⟨p.filters, Function.update p.live i false⟩, rfl, fun a => ?_⟩
        by_cases hai : a = i
        · simp [hai]
        · simp [hai, hp a])
    rw [hcomplement]
    refine ⟨problem', hforEach, fun a ha => ?_⟩
    rw [hlive']
    simp [ha]

omit h in
theorem StartsAt.unique {a' : Nat} (h : StartsAt e count a) (h' : StartsAt e count a') : a = a' := by
  obtain ⟨⟨b, hb⟩, hfirst⟩ := h
  obtain ⟨⟨b', hb'⟩, hfirst'⟩ := h'
  by_contra hne
  rcases Nat.lt_or_gt_of_ne hne with hlt | hgt
  · exact hfirst' a hlt b hb
  · exact hfirst a' hgt b' hb'

omit h in
theorem live_of_reach {c : Nat} (ha : Live e count a) (hac : Relation.ReflTransGen (Forward e count) a c) :
    Live e count c := by
  induction hac with
  | refl => exact ha
  | @tail b c _ hbc _ => exact ⟨b, .inr hbc⟩

/-- Whether the walk gets to all nodes with samples. -/
theorem Built.reached_eq_live_iff {R : Finset Nat} (hc : CollectedFrom count n e.allFilters c seeds live)
    (hR : ∀ b, b ∈ R ↔ ∃ a ∈ seeds, Relation.ReflTransGen (Forward e count) a b) :
    R = live ↔ ReachesLive e count := by
  obtain ⟨hlive, hseeds⟩ := h.seeds_spec hc
  rcases hseeds with ⟨rfl, hnone⟩ | ⟨a, b, rfl, hab, hstart⟩
  · refine iff_of_true ?_ fun a ⟨⟨b, hab⟩, _⟩ => absurd hab (hnone a b)
    ext j
    rw [hR, hlive]
    simp [Live, hnone]
  · have hfromA : ∀ j, j ∈ R ↔ Relation.ReflTransGen (Forward e count) a j := by
      intro j
      rw [hR]
      refine ⟨?_, fun hj => ⟨a, by simp, hj⟩⟩
      rintro ⟨x, hx, hxj⟩
      rcases Finset.mem_insert.mp hx with rfl | hx
      · exact hxj
      · rw [Finset.mem_singleton.mp hx] at hxj
        exact .head hab hxj
    refine ⟨fun heq a' hstart' j hj => ?_, fun hreaches => ?_⟩
    · rw [hstart'.unique hstart, ← hfromA, heq, hlive]
      exact hj
    · ext j
      rw [hfromA, hlive]
      exact ⟨live_of_reach ⟨b, .inl hab⟩, hreaches a hstart j⟩

theorem Built.makeProblem_spec (count : Nat → Nat → Nat) (hn : 2 ≤ n) (hsmall : n ≤ 31) :
    ((∃ problem, e.makeProblem count = .ok problem) ↔ ReachesLive e count) ∧
      ((∃ problem, e.makeProblem count = .ok problem) ∨ e.makeProblem count = .error .disconnected) ∧
      ∀ problem, e.makeProblem count = .ok problem → ∀ a < n, (problem.live a = false ↔ ¬ Live e count a) := by
  obtain ⟨s0, hmake, hs0⟩ := Represents.empty hsmall
  obtain ⟨allNodes, hcomplement, hall⟩ := hs0.complement
  rw [Finset.sdiff_empty] at hall
  obtain ⟨c, seeds, live, hcollect, hc⟩ := h.collected count hs0
  obtain ⟨t, R, htraverse, ht, hR⟩ := h.traverseLive (Closure.Frontier.start (Forward e count) seeds) hc.traversed hs0
    (show n < (∅ : Finset Nat).card + (n + 1) by simp)
  have hiff := h.reached_eq_live_iff hc hR
  have hlive := (h.seeds_spec hc).1
  have heq : e.makeProblem count = if R = live then markDead allNodes c.allLiveNodes t c.problem
      else .error .disconnected := by
    rw [makeProblem, h.nodesCount, if_neg (by omega), hmake]
    simp [bind, Except.bind, hcomplement, hcollect, htraverse, ht.eq_iff hc.allLive]
  rw [heq, ← hiff]
  by_cases hsame : R = live
  · rw [if_pos hsame]
    obtain ⟨problem, hdead, hspec⟩ := markDead_spec hall hc.allLive (hsame ▸ ht) hc.live
    refine ⟨iff_of_true ⟨problem, hdead⟩ hsame, .inl ⟨problem, hdead⟩, fun problem' hproblem' a ha => ?_⟩
    obtain rfl := Except.ok.inj (hdead.symm.trans hproblem')
    rw [hspec a ha, hlive]
  · rw [if_neg hsame]
    exact ⟨iff_of_false (by simp) hsame, .inr rfl, by simp⟩

theorem Built.reachable_of_forward {c : Nat} (ha : a < n) (hac : Relation.ReflTransGen (Forward e count) a c) :
    ∃ hc : c < n, (sampleGraph e count n).Reachable ⟨a, ha⟩ ⟨c, hc⟩ := by
  induction hac with
  | refl => exact ⟨ha, .refl _⟩
  | @tail b c _ hbc ih =>
    obtain ⟨hb, hreach⟩ := ih
    have hne : b ≠ c := by
      rcases (h.mem b c).mp hbc.1 with hpair | hpair
      · exact (h.valid b c hpair).1
      · exact (h.valid c b hpair).1.symm
    refine ⟨(h.lt hbc.1).2, hreach.trans (SimpleGraph.Adj.reachable ?_)⟩
    rw [sampleGraph, SimpleGraph.fromRel_adj]
    exact ⟨fun heq => hne (Fin.mk.inj heq), .inl hbc⟩

theorem Built.liveConnected (hreaches : ReachesLive e count) : LiveConnected e count n := by
  classical
  intro a b ha hb
  have hsome : ∃ x, ∃ y, Forward e count x y := by
    obtain ⟨y, hy | hy⟩ := ha
    · exact ⟨a, y, hy⟩
    · exact ⟨y, a, hy⟩
  have hstart : StartsAt e count (Nat.find hsome) :=
    ⟨Nat.find_spec hsome, fun x hx y hxy => Nat.find_min hsome hx ⟨y, hxy⟩⟩
  obtain ⟨y, hy⟩ := hstart.1
  obtain ⟨_, hreachA⟩ := h.reachable_of_forward (h.lt hy.1).1 (hreaches _ hstart a ha)
  obtain ⟨_, hreachB⟩ := h.reachable_of_forward (h.lt hy.1).1 (hreaches _ hstart b hb)
  exact hreachA.symm.trans hreachB

end

/-- The walk ends for up to 30 nodes. The check after it passes on exactly the connected graphs if and only if the nodes with
samples, where connected, can all be reached along filters with samples from the first node that has one. Then the dead nodes
are those without samples. -/
theorem makeProblem_connected_iff (n : Nat) (pairs : List (Nat × Nat)) (count : Nat → Nat → Nat) (hn : 2 ≤ n)
    (hmax : n ≤ 30) (h : (make n).getFilters pairs = .ok e) :
    ((∃ problem, e.makeProblem count = .ok problem) ∨ e.makeProblem count = .error .disconnected) ∧
      (((∃ problem, e.makeProblem count = .ok problem) ↔ LiveConnected e count n) ↔
        (LiveConnected e count n → ReachesLive e count)) ∧
      ∀ problem, e.makeProblem count = .ok problem → ∀ a < n, (problem.live a = false ↔ ¬ Live e count a) := by
  have hbuilt := Built.getFilters h
  obtain ⟨hpasses, hends, hdead⟩ := hbuilt.makeProblem_spec count hn (by omega)
  refine ⟨hends, ?_, hdead⟩
  rw [hpasses]
  exact ⟨fun hiff => hiff.mpr, fun hreaches => ⟨hbuilt.liveConnected, hreaches⟩⟩

/-- Two nodes with samples in both directions, and one without any. -/
theorem makeProblem_connected_two : ∃ e problem, (make 3).getFilters [(0, 1), (1, 2)] = .ok e ∧
    LiveConnected e (fun a b => if a + b = 1 then 1 else 0) 3 ∧
      e.makeProblem (fun a b => if a + b = 1 then 1 else 0) = .ok problem ∧ problem.live 2 = false := by
  obtain ⟨e, he⟩ : ∃ e, (make 3).getFilters [(0, 1), (1, 2)] = .ok e := ⟨_, rfl⟩
  set count : Nat → Nat → Nat := fun a b => if a + b = 1 then 1 else 0
  have hbuilt := Built.getFilters he
  have hsum : ∀ a b, Forward e count a b → a + b = 1 := fun a b hab => by
    by_contra hne
    simpa [count, hne] using hab.2
  have hforward : Forward e count 0 1 := ⟨(hbuilt.mem 0 1).mpr (by simp), by simp [count]⟩
  have hlive : ∀ c, Live e count c → c = 0 ∨ c = 1 := by
    rintro c ⟨b, hcb | hbc⟩
    · have := hsum c b hcb
      omega
    · have := hsum b c hbc
      omega
  have hreaches : ReachesLive e count := by
    intro a hstart c hc
    obtain rfl : a = 0 := by
      by_contra hne
      exact hstart.2 0 (Nat.pos_of_ne_zero hne) 1 hforward
    rcases hlive c hc with rfl | rfl
    · exact .refl
    · exact .single hforward
  have hconnected := hbuilt.liveConnected hreaches
  obtain ⟨-, hiff, hdead⟩ := makeProblem_connected_iff 3 [(0, 1), (1, 2)] count (by decide) (by decide) he
  obtain ⟨problem, hproblem⟩ := (hiff.mpr fun _ => hreaches).mpr hconnected
  refine ⟨e, problem, he, hconnected, hproblem, (hdead problem hproblem 2 (by decide)).mpr fun htwo => ?_⟩
  exact absurd (hlive 2 htwo) (by decide)

/-- The samples of nodes 1 and 2 are all in their own filters to node 0. -/
theorem makeProblem_fails_connected : ∃ e, (make 3).getFilters [(0, 1), (0, 2)] = .ok e ∧
    LiveConnected e (fun _ b => if b = 0 then 1 else 0) 3 ∧
      e.makeProblem (fun _ b => if b = 0 then 1 else 0) = .error .disconnected := by
  refine ⟨_, rfl, fun a b _ _ => ?_, by decide +kernel⟩
  have hzero : ∀ {e : OffsetEstimator}, 0 ∈ e.filtersPerNode 1 → 0 ∈ e.filtersPerNode 2 → ∀ c : Fin 3,
      (sampleGraph e (fun _ b => if b = 0 then 1 else 0) 3).Reachable c 0 := by
    intro e hone htwo c
    fin_cases c
    · exact .refl 0
    · exact SimpleGraph.Adj.reachable ⟨by decide, .inl ⟨hone, by decide⟩⟩
    · exact SimpleGraph.Adj.reachable ⟨by decide, .inl ⟨htwo, by decide⟩⟩
  exact (hzero (by decide) (by decide) a).trans (hzero (by decide) (by decide) b).symm

end OffsetEstimator

end RobotCode.Network
