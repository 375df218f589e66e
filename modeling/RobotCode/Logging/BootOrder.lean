import RobotCode.Lib.Fallible

/-!
# The order of the boots

For each node `ComputeBootCounts` gets the boots and which of them precedes which other one. It goes back along
the first constraint of each boot until there is none, then forward along the first one of the other kind, and
takes the boots on that way for all of them in order.
-/

namespace RobotCode.Logging

open List Relation

structure NodeBootState where
  /-- Maps each boot to its constraining boots, with true where the key precedes the boot in the value. -/
  constraints : List (String × List (String × Bool))
  boots : List String
  sorted : boots.Pairwise (· < ·)
  /-- A precedence is recorded at both of its boots. -/
  recorded : ∀ e ∈ constraints, ∀ c ∈ e.2, c.1 ∈ boots ∧ (e.1, !c.2) ∈ (constraints.lookup c.1).getD []

inductive BootError
  | noBoots
  | cyclic
  | unreachable
deriving DecidableEq

structure MapBoots where
  bootCountMap : List (String × Nat) := []
  boots : List (String × List String) := []
deriving DecidableEq

namespace NodeBootState

variable (s : NodeBootState)

/-- A boot that is not in the map only gets a warning and ends the loops like one without constraints. -/
def find (boot : String) : List (String × Bool) := (s.constraints.lookup boot).getD []

def next (later : Bool) (boot : String) : Option String :=
  ((s.find boot).find? fun constraint => constraint.2 == later).map Prod.fst

/-- The boots that one of the two loops goes through, as long as it makes no more than `updates` steps. -/
def walk (later : Bool) (updates : Nat) (boot : String) : Except BootError (List String) :=
  match s.next later boot, updates with
  | none, _ => .ok [boot]
  | some _, 0 => .error .cyclic
  | some boot', updates + 1 => (walk later updates boot').map (boot :: ·)

def sortedBoots : Except BootError (List String) :=
  match s.boots with
  | [] => .error .noBoots
  | [boot] => .ok [boot]
  | boot :: _ => do
    let earlier ← s.walk false s.boots.length boot
    let sorted ← s.walk true s.boots.length (earlier.getLastD boot)
    if sorted.length = s.boots.length then .ok sorted else .error .unreachable

def Precedes (a b : String) : Prop := (b, true) ∈ s.find a

end NodeBootState

def MapBoots.insert (boots : MapBoots) (nodeState : String × NodeBootState) : Except BootError MapBoots := do
  let sorted ← nodeState.2.sortedBoots
  .ok ⟨boots.bootCountMap ++ sorted.zipIdx, boots.boots ++ [(nodeState.1, sorted)]⟩

def computeBootCounts (bootConstraints : List (String × NodeBootState)) : Except BootError MapBoots :=
  bootConstraints.foldlM MapBoots.insert {}

theorem nodup_of_isChain {α : Type} {next : α → Option α} {l : List α}
    (hchain : l.IsChain fun a b => next a = some b) (hlast : ∀ a ∈ l.getLast?, next a = none) : l.Nodup := by
  induction l with
  | nil => exact nodup_nil
  | cons a t ih =>
    have hnodup : t.Nodup := ih hchain.tail fun x hx => hlast x (by cases t <;> simp_all)
    refine nodup_cons.mpr ⟨fun hmem => ?_, hnodup⟩
    -- the place after the second `a` is the first of `t` again
    obtain ⟨u, v, rfl⟩ := append_of_mem hmem
    cases v with
    | nil =>
      have hnone := hlast a (by rw [← cons_append]; exact getLast?_concat ..)
      cases u <;> simp_all
    | cons b v =>
      have hnext : next a = some b := by
        have hsuffix : a :: b :: v <:+ a :: u ++ a :: b :: v := suffix_append ..
        exact (hchain.suffix hsuffix).rel
      cases u <;> simp_all

namespace NodeBootState

variable {s : NodeBootState} {later : Bool} {updates : Nat} {a b boot : String} {l : List String}

theorem recorded_of_mem {c : String × Bool} (h : c ∈ s.find a) : c.1 ∈ s.boots ∧ (a, !c.2) ∈ s.find c.1 := by
  unfold find at h
  cases hlookup : s.constraints.lookup a with
  | none => simp [hlookup] at h
  | some constraints =>
    rw [hlookup] at h
    obtain ⟨before, after, heq, -⟩ := lookup_eq_some_iff.mp hlookup
    exact s.recorded (a, constraints) (by simp [heq]) c h

theorem mem_of_next (h : s.next later a = some b) : (b, later) ∈ s.find a := by
  obtain ⟨c, hfind, rfl⟩ := Option.map_eq_some_iff.mp h
  have hlater := find?_some hfind
  rw [beq_iff_eq] at hlater
  exact hlater ▸ mem_of_find?_eq_some hfind

theorem walk_spec (hboot : boot ∈ s.boots) (h : s.walk later updates boot = .ok l) :
    l.head? = some boot ∧ (l.IsChain fun a b => s.next later a = some b) ∧
      (∀ x ∈ l.getLast?, s.next later x = none) ∧ l ⊆ s.boots := by
  induction updates generalizing boot l with
  | zero =>
    unfold walk at h
    cases hnext : s.next later boot <;> simp_all
    subst h
    simp_all
  | succ updates ih =>
    unfold walk at h
    cases hnext : s.next later boot with
    | none => simp_all; subst h; simp_all
    | some boot' =>
      rw [hnext] at h
      obtain ⟨rest, hrest, rfl⟩ := Fallible.map_eq_ok.mp h
      obtain ⟨hhead, hchain, hlast, hsubset⟩ := ih (recorded_of_mem (mem_of_next hnext)).1 hrest
      obtain ⟨tail, rfl⟩ := head?_eq_some_iff.mp hhead
      exact ⟨rfl, hchain.cons_cons hnext, by simpa using hlast, cons_subset.mpr ⟨hboot, hsubset⟩⟩

theorem sortedBoots_spec (h : s.sortedBoots = .ok l) : l.Perm s.boots ∧ l.IsChain s.Precedes := by
  unfold sortedBoots at h
  split at h
  · cases h
  · rename_i boot hboots
    cases h
    exact ⟨by rw [hboots], .singleton boot⟩
  · rename_i boot rest _ hboots
    have hboot : boot ∈ s.boots := by simp [hboots]
    obtain ⟨earlier, hearlier, h⟩ := Fallible.bind_eq_ok.mp h
    obtain ⟨sorted, hsorted, h⟩ := Fallible.bind_eq_ok.mp h
    obtain ⟨hhead, -, -, hsubset⟩ := walk_spec hboot hearlier
    have hfirst : earlier.getLastD boot ∈ s.boots := by
      obtain ⟨tail, rfl⟩ := head?_eq_some_iff.mp hhead
      rw [getLastD_cons]
      exact hsubset (getLastD_mem_cons ..)
    obtain ⟨-, hchain, hlast, hsubset⟩ := walk_spec hfirst hsorted
    split at h
    · rename_i hlength
      cases h
      exact ⟨((nodup_of_isChain hchain hlast).subperm hsubset).perm_of_length_le hlength.ge,
        hchain.imp fun _ _ => mem_of_next⟩
    · cases h

theorem ordered_iff (hperm : l.Perm s.boots) (hchain : l.IsChain s.Precedes) :
    (∀ a b, s.Precedes a b → l.idxOf a < l.idxOf b) ↔ ∀ a, ¬ TransGen s.Precedes a a := by
  constructor
  · intro hordered a hcycle
    have hlt : ∀ {b}, TransGen s.Precedes a b → l.idxOf a < l.idxOf b := by
      intro b hab
      induction hab with
      | single hab => exact hordered _ _ hab
      | tail _ hbc ih => exact ih.trans (hordered _ _ hbc)
    exact lt_irrefl _ (hlt hcycle)
  · intro hacyclic a b hab
    obtain ⟨hb, ha⟩ := recorded_of_mem hab
    have ha : a ∈ l := hperm.mem_iff.mpr (recorded_of_mem ha).1
    have hb : b ∈ l := hperm.mem_iff.mpr hb
    by_contra hle
    rcases (not_lt.mp hle).eq_or_lt with heq | hlt
    · obtain rfl := (idxOf_inj hb).mp heq
      exact hacyclic b (.single hab)
    · -- the way goes from `b` to `a`, so the precedence closes a cycle
      have hpairwise := (hchain.imp fun _ _ => TransGen.single).pairwise
      have hba := pairwise_iff_getElem.mp hpairwise _ _ (idxOf_lt_length_iff.mpr hb) (idxOf_lt_length_iff.mpr ha) hlt
      rw [getElem_idxOf, getElem_idxOf] at hba
      exact hacyclic a (.head hab hba)

end NodeBootState

theorem foldlM_insert {bootConstraints : List (String × NodeBootState)} {done boots : MapBoots}
    (h : bootConstraints.foldlM MapBoots.insert done = .ok boots) :
    ∃ more, boots.boots = done.boots ++ more ∧ Forall₂ (fun nodeState listed => listed.1 = nodeState.1 ∧
      nodeState.2.sortedBoots = .ok listed.2) bootConstraints more := by
  induction bootConstraints generalizing done with
  | nil =>
    cases h
    exact ⟨[], by simp, .nil⟩
  | cons nodeState rest ih =>
    rw [foldlM_cons] at h
    obtain ⟨done', hdone, h⟩ := Fallible.bind_eq_ok.mp h
    obtain ⟨sorted, hsorted, hdone⟩ := Fallible.bind_eq_ok.mp hdone
    obtain ⟨more, heq, hmore⟩ := ih h
    cases hdone
    exact ⟨(nodeState.1, sorted) :: more, by simp [heq], .cons ⟨rfl, hsorted⟩ hmore⟩

open NodeBootState

/-- Every boot of a node is in its list once, and the list keeps to all precedences of the node exactly when they
have no cycle. -/
theorem computeBootCounts_sound_iff {bootConstraints : List (String × NodeBootState)} {boots : MapBoots}
    (h : computeBootCounts bootConstraints = .ok boots) :
    Forall₂ (fun nodeState listed => listed.1 = nodeState.1 ∧ listed.2.Perm nodeState.2.boots ∧
      ((∀ a b, nodeState.2.Precedes a b → listed.2.idxOf a < listed.2.idxOf b) ↔
        ∀ a, ¬ TransGen nodeState.2.Precedes a a)) bootConstraints boots.boots := by
  obtain ⟨more, heq, hmore⟩ := foldlM_insert h
  rw [heq]
  apply hmore.imp
  rintro nodeState listed ⟨hnode, hsorted⟩
  obtain ⟨hperm, hchain⟩ := sortedBoots_spec hsorted
  exact ⟨hnode, hperm, ordered_iff hperm hchain⟩

def crossedBoots : NodeBootState where
  constraints := [("a", [("b", false), ("c", true), ("b", true)]), ("b", [("d", false), ("a", true), ("a", false)]),
    ("c", [("a", false)]), ("d", [("b", true)])]
  boots := ["a", "b", "c", "d"]
  sorted := by decide +kernel
  recorded := by decide +kernel

private theorem computeBootCounts_crossed : computeBootCounts [("pi1", crossedBoots)] =
    .ok ⟨[("d", 0), ("b", 1), ("a", 2), ("c", 3)], [("pi1", ["d", "b", "a", "c"])]⟩ :=
  by decide +kernel

theorem computeBootCounts_sound_crossed : ∃ a, TransGen crossedBoots.Precedes a a := by
  have hsound := computeBootCounts_sound_iff computeBootCounts_crossed
  rw [forall₂_cons] at hsound
  by_contra hacyclic
  have hlt := hsound.1.2.2.mpr (not_exists.mp hacyclic) "a" "b" (by simp [NodeBootState.Precedes, find, crossedBoots])
  exact absurd hlt (by decide +kernel)

theorem computeBootCounts_ignores_precedence : ∃ bootConstraints boots,
    computeBootCounts bootConstraints = .ok boots ∧ ∃ state ∈ bootConstraints, ∃ listed ∈ boots.boots,
      listed.1 = state.1 ∧ state.2.Precedes "a" "b" ∧ listed.2.idxOf "b" < listed.2.idxOf "a" :=
  ⟨_, _, computeBootCounts_crossed, _, mem_singleton_self _, _, mem_singleton_self _, rfl,
    by simp [NodeBootState.Precedes, find, crossedBoots], by decide +kernel⟩

end RobotCode.Logging
