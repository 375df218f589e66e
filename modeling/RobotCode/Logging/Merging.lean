import RobotCode.Logging.Sorting

/-!
# The merger of a boot merges and deduplicates

Each sorter delivers a sorted list, and copies of a message may be in several of them. To find its front,
the merger looks at the front of every sorter once. It pops the copies that it meets on the way, keeping the
one that has a timestamp time, also when the message turns out not to be the oldest. What such a pass leaves
in the sorters stands for everything that was there before.
-/

namespace RobotCode.Logging.NodeMerger

open KeyedSet List Function

variable {n : Nat} {boot : Nat} {lists lists' lists'' : Fin n → List Message} {visited : List (Fin n)} {q : Search n}
  {i : Fin n} {m : Message}

structure Mergeable (boot : Nat) (lists : Fin n → List Message) : Prop where
  ordered : ∀ i, Ordered Message.key (lists i)
  boot_eq : ∀ i, ∀ m ∈ lists i, m.timestamp.boot = boot
  agree : ∀ i j, ∀ a ∈ lists i, ∀ b ∈ lists j, a.key = b.key → a.data.hasMonotonicTimestampTime = true →
    b.data.hasMonotonicTimestampTime = true → a.data.monotonicTimestampTime = b.data.monotonicTimestampTime

/-- Only copies went from `lists` to `lists'`, and none with a timestamp time in favour of one without. -/
structure Keeps (lists lists' : Fin n → List Message) : Prop where
  sublist : ∀ i, (lists' i).Sublist (lists i)
  copy : ∀ i, ∀ m ∈ lists i, ∃ j, ∃ m' ∈ lists' j, m'.key = m.key ∧
    (m.data.hasMonotonicTimestampTime = true → m'.data.hasMonotonicTimestampTime = true)

theorem Keeps.refl (lists : Fin n → List Message) : Keeps lists lists where
  sublist _ := List.Sublist.refl _
  copy i m hm := ⟨i, m, hm, rfl, id⟩

theorem Keeps.trans (h : Keeps lists lists') (h' : Keeps lists' lists'') : Keeps lists lists'' where
  sublist i := (h'.sublist i).trans (h.sublist i)
  copy i m hm := by
    obtain ⟨j, m', hm', hkey, htime⟩ := h.copy i m hm
    obtain ⟨k, m'', hm'', hkey', htime'⟩ := h'.copy j m' hm'
    exact ⟨k, m'', hm'', hkey'.trans hkey, htime' ∘ htime⟩

theorem Mergeable.of_sublist (h : Mergeable boot lists) (hsub : ∀ i, (lists' i).Sublist (lists i)) :
    Mergeable boot lists' where
  ordered i := (h.ordered i).sublist (hsub i)
  boot_eq i m hm := h.boot_eq i m ((hsub i).subset hm)
  agree i j a ha b hb := h.agree i j a ((hsub i).subset ha) b ((hsub j).subset hb)

variable {rest l : List Message} {c : Fin n} {o : Message}

theorem sublist_update (hi : lists i = m :: rest) (j : Fin n) : (update lists i rest j).Sublist (lists j) := by
  revert j
  rw [forall_update_iff lists fun j l => l.Sublist (lists j), hi]
  exact ⟨sublist_cons_self m rest, fun j _ => List.Sublist.refl _⟩

theorem Keeps.pop {j : Fin n} {m' : Message} (hi : lists i = m :: rest) (hij : j ≠ i)
    (hj : m' ∈ lists j) (hkey : m'.key = m.key)
    (htime : m.data.hasMonotonicTimestampTime = true → m'.data.hasMonotonicTimestampTime = true) :
    Keeps lists (update lists i rest) where
  sublist := sublist_update hi
  copy k a ha := by
    by_cases hk : k = i
    · subst hk
      rw [hi, mem_cons] at ha
      obtain heq | hrest := ha
      · subst heq
        exact ⟨j, m', by rwa [update_of_ne hij], hkey, htime⟩
      · exact ⟨k, a, by rwa [update_self], rfl, id⟩
    · exact ⟨k, a, by rwa [update_of_ne hk], rfl, id⟩

/-! ### The search for the oldest message -/

structure IsOldest (lists : Fin n → List Message) (visited : List (Fin n)) (q : Search n) (c : Fin n)
    (m : Message) : Prop where
  mem : c ∈ visited
  head : ∃ rest, lists c = m :: rest
  front : (q.partsSorters c).front = .ok (some m, q.partsSorters c)
  lt : ∀ i ∈ visited, i ≠ c → ∀ a ∈ lists i, m.key < a.key

/-- The state of the search after the sorters in `visited`. -/
structure Searched (lists : Fin n → List Message) (visited : List (Fin n)) (q : Search n) : Prop where
  delivers : ∀ i, LogPartsSorter.source.Delivers (q.partsSorters i) (lists i)
  empty : q.oldest = none → ∀ i ∈ visited, lists i = []
  isOldest : ∀ c m, q.oldest = some (c, m) → IsOldest lists visited q c m

theorem Mergeable.le (h : Mergeable boot lists) (hi : lists i = m :: rest) : ∀ a ∈ lists i, m.key ≤ a.key := by
  intro a ha
  have hordered := h.ordered i
  rw [hi] at ha hordered
  obtain heq | hrest := mem_cons.mp ha
  · rw [heq]
  · exact ((pairwise_cons.mp hordered).1 a hrest).le

theorem Mergeable.lt (h : Mergeable boot lists) (hi : lists i = m :: rest) : ∀ a ∈ rest, m.key < a.key := by
  have hordered := h.ordered i
  rw [hi] at hordered
  exact (pairwise_cons.mp hordered).1

theorem Mergeable.lt_update (h : Mergeable boot lists) (hi : lists i = m :: rest)
    (hlt : ∀ j, j ≠ i → ∀ a ∈ lists j, m.key < a.key) (j : Fin n) : ∀ a ∈ update lists i rest j, m.key < a.key := by
  revert j
  rw [forall_update_iff lists fun _ l => ∀ a ∈ l, m.key < a.key]
  exact ⟨h.lt hi, hlt⟩

theorem Searched.delivers_pop (h : ∀ j, LogPartsSorter.source.Delivers (q.partsSorters j) (lists j))
    (hi : lists i = m :: rest) (hfront : (q.partsSorters i).front = .ok (some m, q.partsSorters i)) :
    ∀ j, LogPartsSorter.source.Delivers ((q.pop i).partsSorters j) (update lists i rest j) := by
  intro j
  by_cases hj : j = i
  · subst hj
    have hdelivers := h j
    rw [hi] at hdelivers
    obtain ⟨u, hpop, hrest⟩ := hdelivers.popFront hfront
    obtain rfl : (q.partsSorters j).popFront = u := Except.ok.inj hpop
    rw [Search.pop_self, update_self]
    exact hrest
  · rw [Search.pop_of_ne q hj, update_of_ne hj]
    exact h j

theorem IsOldest.visit (h : IsOldest lists visited q c o)
    (hi : ∀ a ∈ lists i, o.key < a.key) : IsOldest lists (visited ++ [i]) q c o where
  __ := h
  mem := mem_append_left _ h.mem
  lt := forall_mem_append.mpr ⟨h.lt, forall_mem_singleton.mpr fun _ => hi⟩

theorem IsOldest.replace (hm : Mergeable boot lists) (h : IsOldest lists visited q c o) (hi : lists i = m :: rest)
    (hfront : (q.partsSorters i).front = .ok (some m, q.partsSorters i)) (hlt : m.key < o.key) :
    IsOldest lists (visited ++ [i]) { q with oldest := some (i, m) } i m where
  mem := by simp
  head := ⟨rest, hi⟩
  front := hfront
  lt := by
    intro j hj hji a ha
    rw [mem_append, mem_singleton] at hj
    have hvisited := hj.resolve_right hji
    obtain ⟨restc, hc⟩ := h.head
    by_cases hjc : j = c
    · subst hjc
      exact hlt.trans_le (hm.le hc a ha)
    · exact hlt.trans (h.lt j hvisited hjc a ha)

section

variable (hm : Mergeable boot lists) (h : Searched lists visited q) (hnew : i ∉ visited)

include hm h hnew

theorem Searched.pop_copy (ho : q.oldest = some (c, o)) (hi : lists i = m :: rest)
    (hfront : (q.partsSorters i).front = .ok (some m, q.partsSorters i)) (hkey : m.key = o.key) :
    Searched (update lists i rest) (visited ++ [i]) (q.pop i) := by
  have hoo := h.isOldest c o ho
  have hci : c ≠ i := fun heq => hnew (heq ▸ hoo.mem)
  constructor
  · exact delivers_pop h.delivers hi hfront
  · intro hnone
    exact absurd (ho.symm.trans hnone) (by simp)
  · intro c' o' ho'
    obtain ⟨rfl, rfl⟩ : c = c' ∧ o = o' := by simpa using ho.symm.trans ho'
    apply IsOldest.visit
    · constructor
      · exact hoo.mem
      · rw [update_of_ne hci]
        exact hoo.head
      · rw [Search.pop_of_ne q hci]
        exact hoo.front
      · intro j hj hjc a ha
        have hji : j ≠ i := fun heq => hnew (heq ▸ hj)
        rw [update_of_ne hji] at ha
        exact hoo.lt j hj hjc a ha
    · rw [update_self, ← hkey]
      exact hm.lt hi

omit hm h hnew in
theorem Searched.pop_oldest {restc : List Message} (hm : Mergeable boot lists)
    (h : Searched lists visited q) (hnew : i ∉ visited) (ho : q.oldest = some (c, o)) (hi : lists i = m :: rest)
    (hc : lists c = o :: restc) (hfront : (q.partsSorters i).front = .ok (some m, q.partsSorters i))
    (hkey : m.key = o.key) :
    Searched (update lists c restc) (visited ++ [i]) { q.pop c with oldest := some (i, m) } := by
  have hoo := h.isOldest c o ho
  have hic : i ≠ c := fun heq => hnew (heq ▸ hoo.mem)
  constructor
  · exact delivers_pop h.delivers hc hoo.front
  · intro hnone
    cases hnone
  · intro c' o' ho'
    obtain ⟨rfl, rfl⟩ : i = c' ∧ m = o' := by simpa using ho'
    constructor
    · simp
    · rw [update_of_ne hic]
      exact ⟨rest, hi⟩
    · rw [Search.pop_of_ne q hic]
      exact hfront
    · intro j hj hji a ha
      rw [mem_append, mem_singleton] at hj
      rw [hkey]
      by_cases hjc : j = c
      · subst hjc
        rw [update_self] at ha
        exact hm.lt hc a ha
      · rw [update_of_ne hjc] at ha
        exact hoo.lt j (hj.resolve_right hji) hjc a ha

theorem Searched.consider (hi : lists i = m :: rest)
    (hfront : (q.partsSorters i).front = .ok (some m, q.partsSorters i)) :
    ∃ q' lists', q.consider i m = .ok q' ∧ Keeps lists lists' ∧ Searched lists' (visited ++ [i]) q' := by
  have hmi : m ∈ lists i := by simp [hi]
  rw [Search.consider]
  cases ho : q.oldest with
  | none =>
    refine ⟨_, lists, rfl, Keeps.refl lists, h.delivers, by simp, ?_⟩
    intro c o hoc
    obtain ⟨rfl, rfl⟩ : i = c ∧ m = o := by simpa using hoc
    refine ⟨by simp, ⟨rest, hi⟩, hfront, ?_⟩
    intro j hj hji a ha
    rw [mem_append, mem_singleton] at hj
    simp [h.empty ho j (hj.resolve_right hji)] at ha
  | some oldest =>
    obtain ⟨c, o⟩ := oldest
    have hoo := h.isOldest c o ho
    obtain ⟨restc, hc⟩ := hoo.head
    have hoc : o ∈ lists c := by simp [hc]
    have hci : c ≠ i := fun heq => hnew (heq ▸ hoo.mem)
    have hboot : m.timestamp.boot = o.timestamp.boot := (hm.boot_eq i m hmi).trans (hm.boot_eq c o hoc).symm
    simp only [hboot, ne_eq, not_true_eq_false, if_false]
    split
    · next hlt =>
      refine ⟨_, lists, rfl, Keeps.refl lists, h.delivers, by simp, ?_⟩
      intro c' o' hoc'
      obtain ⟨rfl, rfl⟩ : i = c' ∧ m = o' := by simpa using hoc'
      exact hoo.replace hm hi hfront hlt
    · next hge =>
      split
      · next hkey =>
        split
        · next hmtime =>
          exact ⟨_, _, rfl, Keeps.pop hi hci hoc hkey.symm (fun ht => absurd ht hmtime),
            h.pop_copy hm hnew ho hi hfront hkey⟩
        · next hmtime =>
          split
          · exact ⟨_, _, rfl, Keeps.pop hc hci.symm hmi hkey (fun _ => not_not.mp hmtime),
              h.pop_oldest hm hnew ho hi hc hfront hkey⟩
          · next hotime =>
            rw [if_neg (not_not.mpr (hm.agree i c m hmi o hoc hkey (not_not.mp hmtime) (not_not.mp hotime)))]
            exact ⟨_, _, rfl, Keeps.pop hi hci hoc hkey.symm (fun _ => not_not.mp hotime),
              h.pop_copy hm hnew ho hi hfront hkey⟩
      · next hne =>
        refine ⟨q, lists, rfl, Keeps.refl lists, h.delivers, by simp [ho], ?_⟩
        intro c' o' hoc'
        obtain ⟨rfl, rfl⟩ : c = c' ∧ o = o' := by simpa using ho.symm.trans hoc'
        apply hoo.visit
        intro a ha
        exact (lt_of_le_of_ne (not_lt.mp hge) (Ne.symm hne)).trans_le (hm.le hi a ha)

theorem Searched.visit :
    ∃ q' lists', q.visit i = .ok q' ∧ Keeps lists lists' ∧ Searched lists' (visited ++ [i]) q' := by
  obtain ⟨sorter, hfront, hdelivers, hagain⟩ := (h.delivers i).front
  -- The sorter is at its front now, which changes nothing for the others.
  have hq : Searched lists visited { q with partsSorters := update q.partsSorters i sorter } := by
    constructor
    · intro j
      by_cases hj : j = i
      · subst hj
        simpa only [update_self] using hdelivers
      · simpa only [update_of_ne hj] using h.delivers j
    · exact h.empty
    · intro c o ho
      have hoo := h.isOldest c o ho
      have hci : c ≠ i := fun heq => hnew (heq ▸ hoo.mem)
      exact { hoo with front := by simpa only [update_of_ne hci] using hoo.front }
  cases hi : lists i with
  | nil =>
    rw [hi] at hfront
    refine ⟨{ q with
      partsSorters := update q.partsSorters i sorter
      sortedUntil := min q.sortedUntil (update q.partsSorters i sorter i).sortedUntil },
      lists, ?_, Keeps.refl lists, ?_⟩
    · rw [Search.visit, show (q.partsSorters i).front = .ok (none, sorter) from hfront]
      rfl
    · constructor
      · exact hq.delivers
      · exact fun hnone => forall_mem_append.mpr ⟨h.empty hnone, forall_mem_singleton.mpr hi⟩
      · intro c o ho
        have hoo := (hq.isOldest c o ho).visit (i := i) (by simp [hi])
        exact { hoo with }
  | cons m rest =>
    rw [hi] at hfront hagain
    have hfront' : (update q.partsSorters i sorter i).front =
        .ok (some m, update q.partsSorters i sorter i) := by
      rw [update_self]
      exact hagain m rfl
    obtain ⟨q', lists', hconsider, hkeeps, hq'⟩ := hq.consider hm hnew hi hfront'
    refine ⟨{ q' with sortedUntil := min q'.sortedUntil (q'.partsSorters i).sortedUntil }, lists', ?_, hkeeps, ?_⟩
    · rw [Search.visit, show (q.partsSorters i).front = .ok (some m, sorter) from hfront]
      simp [bind, Except.bind, hconsider, pure, Except.pure]
    · exact ⟨hq'.delivers, hq'.empty, fun c o ho => { hq'.isOldest c o ho with }⟩

end

theorem Mergeable.search (hm : Mergeable boot lists) {partsSorters : Fin n → LogPartsSorter}
    (hdelivers : ∀ i, LogPartsSorter.source.Delivers (partsSorters i) (lists i)) :
    ∃ q lists', search partsSorters = .ok q ∧ Keeps lists lists' ∧ Searched lists' (finRange n) q := by
  have hloop := Fallible.foldlM_ok (finRange n) Search.visit
    (fun visited q => ∃ lists', Keeps lists lists' ∧ Searched lists' visited q)
    (s := { partsSorters }) ⟨lists, Keeps.refl lists, hdelivers, by simp, by simp⟩ ?_
  · obtain ⟨q, hsearch, lists', hkeeps, hsearched⟩ := hloop
    exact ⟨q, lists', hsearch, hkeeps, hsearched⟩
  · intro done i todo hl q ⟨lists', hkeeps, hsearched⟩
    have hnew : i ∉ done := by
      have hnodup := nodup_finRange n
      rw [hl] at hnodup
      intro hi
      exact disjoint_of_nodup_append hnodup hi mem_cons_self
    obtain ⟨q', lists'', hvisit, hkeeps', hsearched'⟩ := hsearched.visit (hm.of_sublist hkeeps.sublist) hnew
    exact ⟨q', hvisit, lists'', hkeeps.trans hkeeps', hsearched'⟩

/-! ### What the merger delivers -/

/-- The list has each message of `lists` once, in order, with a timestamp time if a copy has one. -/
structure Merged (lists : Fin n → List Message) (l : List Message) : Prop where
  ordered : Ordered Message.key l
  mem : ∀ e ∈ l, ∃ i, e ∈ lists i
  copy : ∀ i, ∀ m ∈ lists i, ∃ e ∈ l, e.key = m.key ∧
    (m.data.hasMonotonicTimestampTime = true → e.data.hasMonotonicTimestampTime = true)

theorem Merged.of_keeps (hkeeps : Keeps lists lists') (h : Merged lists' l) : Merged lists l where
  ordered := h.ordered
  mem e he := by
    obtain ⟨i, hi⟩ := h.mem e he
    exact ⟨i, (hkeeps.sublist i).subset hi⟩
  copy i m hm := by
    obtain ⟨j, m', hm', hkey, htime⟩ := hkeeps.copy i m hm
    obtain ⟨e, he, hkey', htime'⟩ := h.copy j m' hm'
    exact ⟨e, he, hkey'.trans hkey, htime' ∘ htime⟩

theorem Merged.cons (hm : Mergeable boot lists) (hc : lists c = m :: rest)
    (hlt : ∀ i, i ≠ c → ∀ a ∈ lists i, m.key < a.key) (h : Merged (update lists c rest) l) :
    Merged lists (m :: l) where
  ordered := by
    apply List.Pairwise.cons _ h.ordered
    intro e he
    obtain ⟨i, hi⟩ := h.mem e he
    exact hm.lt_update hc hlt i e hi
  mem := by
    refine forall_mem_cons.mpr ⟨⟨c, by simp [hc]⟩, fun e he => ?_⟩
    obtain ⟨i, hi⟩ := h.mem e he
    exact ⟨i, (sublist_update hc i).subset hi⟩
  copy i a ha := by
    have hrest : a ∈ update lists c rest i → ∃ e ∈ m :: l, e.key = a.key ∧
        (a.data.hasMonotonicTimestampTime = true → e.data.hasMonotonicTimestampTime = true) := by
      intro hmem
      obtain ⟨e, he, hcopy⟩ := h.copy i a hmem
      exact ⟨e, mem_cons_of_mem m he, hcopy⟩
    by_cases hic : i = c
    · subst hic
      rw [hc, mem_cons] at ha
      obtain heq | hmem := ha
      · exact ⟨m, mem_cons_self, heq ▸ rfl, heq ▸ id⟩
      · exact hrest (by rwa [update_self])
    · exact hrest (by rwa [update_of_ne hic])

/-- The merger is between two messages, with `lists` left in its sorters. -/
structure Merges (boot : Nat) (lists : Fin n → List Message) (c : NodeMerger n) : Prop where
  mergeable : Mergeable boot lists
  current : c.current = none
  delivers : ∀ i, LogPartsSorter.source.Delivers (c.partsSorters i) (lists i)
  last_le : ∀ i, ∀ m ∈ lists i, c.lastMessageTime ≤ m.timestamp.time

variable {c : NodeMerger n}

theorem Merges.front_none (h : Merges boot lists c) (hempty : ∀ i, lists i = []) :
    ∃ c', c.front = .ok (none, c') ∧ Merges boot lists c' := by
  obtain ⟨q, lists', hsearch, hkeeps, hq⟩ := h.mergeable.search h.delivers
  have hlists : lists' = lists := by
    funext i
    rw [hempty i]
    exact eq_nil_of_subset_nil (hempty i ▸ (hkeeps.sublist i).subset)
  subst hlists
  have hnone : q.oldest = none := by
    cases ho : q.oldest with
    | none => rfl
    | some oldest =>
      obtain ⟨rest, hhead⟩ := (hq.isOldest oldest.1 oldest.2 ho).head
      simp [hempty] at hhead
  refine ⟨{ c.found q with lastMessageTime := maxTime }, ?_, h.mergeable, ?_, hq.delivers, by simp [hempty]⟩
  · simp [front, h.current, hsearch, hnone, bind, Except.bind, pure, Except.pure]
  · rw [found, hnone, Option.map_none]

theorem Merges.front_some (h : Merges boot lists c) (hne : ∃ i, lists i ≠ []) :
    ∃ c' i m lists' rest, c.front = .ok (some m, c') ∧ c'.front = .ok (some m, c') ∧ Keeps lists lists' ∧
      lists' i = m :: rest ∧ (∀ j, j ≠ i → ∀ a ∈ lists' j, m.key < a.key) ∧
      ∃ u, c'.popFront = .ok u ∧ Merges boot (update lists' i rest) u := by
  obtain ⟨q, lists', hsearch, hkeeps, hq⟩ := h.mergeable.search h.delivers
  have hm' := h.mergeable.of_sublist hkeeps.sublist
  cases ho : q.oldest with
  | none =>
    obtain ⟨i, hi⟩ := hne
    obtain ⟨a, rest, hcons⟩ := exists_cons_of_ne_nil hi
    obtain ⟨j, a', ha', -⟩ := hkeeps.copy i a (by simp [hcons])
    simp [hq.empty ho j (mem_finRange j)] at ha'
  | some oldest =>
    obtain ⟨i, m⟩ := oldest
    have hoo := hq.isOldest i m ho
    obtain ⟨rest, hi⟩ := hoo.head
    have hlast : c.lastMessageTime ≤ m.timestamp.time :=
      h.last_le i m ((hkeeps.sublist i).subset (by simp [hi]))
    have hlt : ∀ j, j ≠ i → ∀ a ∈ lists' j, m.key < a.key := fun j => hoo.lt j (mem_finRange j)
    have hcurrent : (c.found q).current = some i := by rw [found, ho, Option.map_some]
    refine ⟨{ c.found q with
      lastMessageTime := m.timestamp.time
      monotonicOldestTime := min c.monotonicOldestTime m.timestamp.time },
      i, m, lists', rest, ?_, ?_, hkeeps, hi, hlt, ?_⟩
    · simp [front, h.current, hsearch, ho, bind, Except.bind, pure, Except.pure, ge_iff_le, if_pos hlast]
    · have hfront : ((c.found q).partsSorters i).front = .ok (some m, (c.found q).partsSorters i) := hoo.front
      simp [front, hcurrent, hfront, bind, Except.bind, pure, Except.pure]
    · refine ⟨{ c.found q with
        partsSorters := (q.pop i).partsSorters
        current := none
        lastMessageTime := m.timestamp.time
        monotonicOldestTime := min c.monotonicOldestTime m.timestamp.time }, ?_, ?_⟩
      · simp only [popFront, hcurrent]
        rfl
      · exact ⟨hm'.of_sublist (sublist_update hi), rfl, Searched.delivers_pop hq.delivers hi hoo.front,
          fun j a ha => MessageKey.time_le_of_lt (hm'.lt_update hi hlt j a ha)⟩

/-- From every state between two messages, the merger delivers what is left in its sorters. -/
theorem Merges.exists_delivers (h : Merges boot lists c) : ∃ l, source.Delivers c l ∧ Merged lists l := by
  induction hn : ∑ i, (lists i).length using Nat.strongRecOn generalizing lists c with
  | ind k ih =>
  by_cases hempty : ∀ i, lists i = []
  · refine ⟨[], ?_, List.Pairwise.nil, by simp, by simp [hempty]⟩
    apply Pull.Ended.of_invariant (P := Merges boot lists)
    · intro c hc
      exact hc.front_none hempty
    · exact h
  · obtain ⟨c', i, m, lists', rest, hfront, hagain, hkeeps, hi, hlt, u, hpop, hu⟩ :=
      h.front_some (not_forall.mp hempty)
    have hshrinks : ∑ j, (update lists' i rest j).length < k := by
      rw [← hn]
      apply Finset.sum_lt_sum
      · exact fun j _ => ((sublist_update hi j).trans (hkeeps.sublist j)).length_le
      · refine ⟨i, Finset.mem_univ i, ?_⟩
        have hle := (hkeeps.sublist i).length_le
        rw [hi, length_cons] at hle
        rw [update_self]
        omega
    obtain ⟨l, hdelivers, hmerged⟩ := ih _ hshrinks hu rfl
    exact ⟨m :: l, ⟨c', hfront, hagain, u, hpop, hdelivers⟩,
      .of_keeps hkeeps (.cons (h.mergeable.of_sublist hkeeps.sublist) hi hlt hmerged)⟩

theorem merges_start {partsSorters : Fin n → LogPartsSorter} (hm : Mergeable boot lists)
    (hdelivers : ∀ i, LogPartsSorter.source.Delivers (partsSorters i) (lists i)) :
    Merges boot lists { partsSorters } where
  mergeable := hm
  current := rfl
  delivers := hdelivers
  last_le _ m _ := m.isTime.1

theorem Merged.mem_map_key (h : Merged lists l) (k : MessageKey) :
    k ∈ l.map Message.key ↔ ∃ i, k ∈ (lists i).map Message.key := by
  constructor
  · intro hk
    obtain ⟨e, he, rfl⟩ := mem_map.mp hk
    obtain ⟨i, hi⟩ := h.mem e he
    exact ⟨i, mem_map_of_mem hi⟩
  · intro ⟨i, hk⟩
    obtain ⟨m, hm, rfl⟩ := mem_map.mp hk
    obtain ⟨e, he, hkey, -⟩ := h.copy i m hm
    exact mem_map.mpr ⟨e, he, hkey⟩

theorem Merged.has_time (h : Merged lists l) {e : Message} (he : e ∈ l) {i : Fin n}
    (hm : m ∈ lists i) (hkey : m.key = e.key) (htime : m.data.hasMonotonicTimestampTime = true) :
    e.data.hasMonotonicTimestampTime = true := by
  obtain ⟨e', he', hkey', htime'⟩ := h.copy i m hm
  obtain rfl : e' = e := h.ordered.eq_of_key_eq he' he (hkey'.trans hkey)
  exact htime' htime

/-- Repeated `Front` and `PopFront` return the sorted union of what the sorters deliver, every message once, with its timestamp
time when some copy has it. The order of the sorters does not show. -/
theorem merges_and_deduplicates (partsSorters : Fin n → LogPartsSorter) (lists : Fin n → List Message) (boot : Nat)
    (hdelivers : ∀ i, LogPartsSorter.source.Delivers (partsSorters i) (lists i))
    (hordered : ∀ i, (lists i).Pairwise fun a b => a.key < b.key)
    (hboot : ∀ i, ∀ m ∈ lists i, m.timestamp.boot = boot)
    (hagree : ∀ i j, ∀ a ∈ lists i, ∀ b ∈ lists j, a.key = b.key → a.data.hasMonotonicTimestampTime = true →
      b.data.hasMonotonicTimestampTime = true → a.data.monotonicTimestampTime = b.data.monotonicTimestampTime) :
    (∃ emitted : List Message, emitted.Pairwise (fun a b => a.key < b.key) ∧
      (∀ k, k ∈ emitted.map Message.key ↔ ∃ i, k ∈ (lists i).map Message.key) ∧
      (∀ e ∈ emitted, (∃ i, e ∈ lists i) ∧
        ((∃ i, ∃ m ∈ lists i, m.key = e.key ∧ m.data.hasMonotonicTimestampTime = true) →
          e.data.hasMonotonicTimestampTime = true)) ∧
      ∀ k, source.rounds k { partsSorters } = .ok (Pull.shows emitted k)) ∧
    ∀ (order : Equiv.Perm (Fin n)) k,
      (source.rounds k { partsSorters := partsSorters ∘ order }).map (map (Option.map Message.key)) =
        (source.rounds k { partsSorters }).map (map (Option.map Message.key)) := by
  have hm : Mergeable boot lists := ⟨hordered, hboot, hagree⟩
  obtain ⟨l, hl, hmerged⟩ := (merges_start hm hdelivers).exists_delivers
  constructor
  · refine ⟨l, hmerged.ordered, hmerged.mem_map_key, ?_, hl.rounds⟩
    intro e he
    refine ⟨hmerged.mem e he, ?_⟩
    intro ⟨i, m, hmi, hkey, htime⟩
    exact hmerged.has_time he hmi hkey htime
  · intro order k
    have hm' : Mergeable boot (lists ∘ order) := ⟨fun i => hordered _, fun i => hboot _, fun i j => hagree _ _⟩
    obtain ⟨l', hl', hmerged'⟩ := (merges_start hm' fun i => hdelivers (order i)).exists_delivers
    have hkeys : l'.map Message.key = l.map Message.key := by
      apply hmerged'.ordered.map_key_eq hmerged.ordered
      ext key
      show key ∈ l'.map Message.key ↔ key ∈ l.map Message.key
      rw [hmerged'.mem_map_key, hmerged.mem_map_key]
      exact (order.surjective.exists (p := fun i => key ∈ (lists i).map Message.key)).symm
    have hrounds : source.rounds k { partsSorters := partsSorters ∘ order } = .ok (Pull.shows l' k) := hl'.rounds k
    rw [hl.rounds k, hrounds]
    simp [Except.map, Pull.map_shows, hkeys]

/-! Two loggers wrote the same message of channel 1, and only the second knows when it logged it. -/

def loggedTwice : Fin 2 → LogFile
  | 0 => {
      maxOutOfOrderDuration := 0
      messages := [{ channelIndex := 0, monotonicSentTime := 10, queueIndex := 0 },
        { channelIndex := 1, monotonicSentTime := 20, queueIndex := 0 }] }
  | 1 => {
      maxOutOfOrderDuration := 0
      messages := [
        { channelIndex := 1, monotonicSentTime := 20, queueIndex := 0,
          monotonicTimestampTime := 25, hasMonotonicTimestampTime := true },
        { channelIndex := 0, monotonicSentTime := 30, queueIndex := 1 }] }

def twoSorters (i : Fin 2) : LogPartsSorter := .ofParts { monotonicStartTime := 0, bootCount := 0 } (loggedTwice i) []

theorem merges_and_deduplicates_two_loggers :
    ∃ lists : Fin 2 → List Message, (∀ i, LogPartsSorter.source.Delivers (twoSorters i) (lists i)) ∧
      ∃ emitted : List Message, emitted.Pairwise (fun a b => a.key < b.key) ∧
        (∀ k, k ∈ emitted.map Message.key ↔ ∃ i, k ∈ (lists i).map Message.key) ∧
        ∀ k, source.rounds k { partsSorters := twoSorters } = .ok (Pull.shows emitted k) := by
  have hsorters : ∀ i, ∃ l, LogPartsSorter.source.Delivers (twoSorters i) l ∧ Ordered Message.key l ∧
      ∀ m ∈ l, m.data ∈ (loggedTwice i).messages ∧ m.timestamp.boot = 0 := by
    intro i
    obtain ⟨l, hdelivers, hordered, -, hdata⟩ := LogPartsSorter.ofParts_delivers
      { monotonicStartTime := 0, bootCount := 0 } (loggedTwice i) [] 0 (by revert i; decide) (by revert i; decide)
      (by revert i; decide) (by revert i; decide)
    exact ⟨l, hdelivers, hordered, by simpa using hdata⟩
  choose lists hdelivers hordered hdata using hsorters
  have hagree : ∀ i j : Fin 2, ∀ a ∈ (loggedTwice i).messages, ∀ b ∈ (loggedTwice j).messages,
      a.hasMonotonicTimestampTime = true → b.hasMonotonicTimestampTime = true →
      a.monotonicTimestampTime = b.monotonicTimestampTime := by decide
  obtain ⟨emitted, hsorted, hkeys, -, hrounds⟩ := (merges_and_deduplicates twoSorters lists 0 hdelivers hordered
    (fun i m hm => (hdata i m hm).2)
    (fun i j a ha b hb _ => hagree i j a.data (hdata i a ha).1 b.data (hdata j b hb).1)).1
  exact ⟨lists, hdelivers, emitted, hsorted, hkeys, hrounds⟩

end RobotCode.Logging.NodeMerger

namespace RobotCode.Logging.BootMerger

open KeyedSet List

variable {c : Sigma NodeMerger} {rest : List (Sigma NodeMerger)}

theorem front_of_some {m : Message} {merger : NodeMerger c.1} (h : c.2.front = .ok (some m, merger)) :
    front ⟨c :: rest⟩ = .ok (some m, ⟨⟨c.1, merger⟩ :: rest⟩) := by
  cases rest <;> simp [front, frontOf, h, bind, Except.bind, pure, Except.pure]

theorem front_of_none {merger : NodeMerger c.1} (h : c.2.front = .ok (none, merger)) (hrest : rest ≠ []) :
    front ⟨c :: rest⟩ = front ⟨rest⟩ := by
  obtain ⟨next, later, rfl⟩ := exists_cons_of_ne_nil hrest
  rw [front, frontOf, h]
  rfl

/-- The boots follow one another: the merger delivers the messages of each boot in turn. -/
theorem delivers {mergers : List (Sigma NodeMerger)} {lists : List (List Message)} (hne : mergers ≠ [])
    (h : List.Forall₂ (fun c l => NodeMerger.source.Delivers c.2 l) mergers lists) :
    source.Delivers ⟨mergers⟩ lists.flatten := by
  induction h with
  | nil => exact absurd rfl hne
  | @cons c l rest lists hc hrest ih =>
    induction l generalizing c with
    | cons m l ihl =>
      obtain ⟨merger, hfront, hagain, u, hpop, hu⟩ := hc
      refine ⟨⟨⟨c.1, merger⟩ :: rest⟩, front_of_some hfront, front_of_some hagain, ⟨⟨c.1, u⟩ :: rest⟩, ?_, ?_⟩
      · show popFront ⟨⟨c.1, merger⟩ :: rest⟩ = _
        have hpop' : merger.popFront = .ok u := hpop
        simp [popFront, hpop', bind, Except.bind, pure, Except.pure]
      · exact ihl hu (by simp)
    | nil =>
      obtain ⟨merger, hfront, hended⟩ := Pull.Ended.front hc
      by_cases hlast : rest = []
      · subst hlast
        cases hrest
        apply Pull.Ended.of_invariant
          (P := fun b : BootMerger => ∃ c : Sigma NodeMerger, b = ⟨[c]⟩ ∧ NodeMerger.source.Ended c.2)
        · intro b ⟨c, hb, hended⟩
          obtain ⟨merger, hfront, hended'⟩ := hended.front
          refine ⟨⟨[⟨c.1, merger⟩]⟩, ?_, ⟨c.1, merger⟩, rfl, hended'⟩
          rw [hb]
          show front ⟨[c]⟩ = _
          rw [front, frontOf, show c.2.front = .ok (none, merger) from hfront]
          rfl
        · exact ⟨c, rfl, hc⟩
      · exact (ih hlast).of_front_eq (front_of_none hfront hlast)

/-! ### All files of a node -/

/-- The files of one logger in one boot. -/
structure PartFiles where
  parts : LogParts
  first : LogFile
  rest : List LogFile
  duration : Nat
  duration_eq : ∀ f ∈ first :: rest, f.maxOutOfOrderDuration = duration
  boots : ∀ f ∈ first :: rest, BootsKnown parts f.bootCounts f.messages
  bounded : OutOfOrderBounded parts.monotonicStartTime duration ((first :: rest).flatMap LogFile.messages)
  notMax : duration = 0 → ∀ m ∈ (first :: rest).flatMap LogFile.messages, m.monotonicSentTime ≠ maxTime

def PartFiles.headers (p : PartFiles) : List UnpackedMessageHeader := (p.first :: p.rest).flatMap LogFile.messages

/-- The files of one boot. At most one of the loggers noted when it logged the messages. -/
structure BootFiles where
  boot : Nat
  n : Nat
  files : Fin n → PartFiles
  boot_eq : ∀ i, (files i).parts.bootCount = boot
  one_noted : ∀ i j, i ≠ j → ∀ a ∈ (files i).headers, a.hasMonotonicTimestampTime = true →
    ∀ b ∈ (files j).headers, b.hasMonotonicTimestampTime = false

def BootFiles.merger (b : BootFiles) : Sigma NodeMerger :=
  ⟨b.n, { partsSorters := fun i => .ofParts (b.files i).parts (b.files i).first (b.files i).rest }⟩

theorem BootFiles.exists_delivers (b : BootFiles) :
    ∃ l, NodeMerger.source.Delivers b.merger.2 l ∧ Ordered Message.key l ∧ (∀ m ∈ l, m.timestamp.boot = b.boot) ∧
      ∀ k, k ∈ l.map Message.key ↔ ∃ i, k ∈ (b.files i).headers.map (·.key b.boot) := by
  choose lists hdelivers hordered hkeys hdata using fun i => LogPartsSorter.ofParts_delivers _ _ _ _
    (b.files i).duration_eq (b.files i).boots (b.files i).bounded (b.files i).notMax
  have hboot : ∀ i, ∀ m ∈ lists i, m.timestamp.boot = b.boot := fun i m hm => (hdata i m hm).2.trans (b.boot_eq i)
  have hm : NodeMerger.Mergeable b.boot lists := by
    refine ⟨hordered, hboot, fun i j a ha a' ha' hkey htime htime' => ?_⟩
    by_cases hij : i = j
    · subst hij
      rw [(hordered i).eq_of_key_eq ha ha' hkey]
    · simp [b.one_noted i j hij _ (hdata i a ha).1 htime _ (hdata j a' ha').1] at htime'
  obtain ⟨l, hl, hmerged⟩ := (NodeMerger.merges_start hm hdelivers).exists_delivers
  refine ⟨l, hl, hmerged.ordered, fun m hm => ?_, fun k => (hmerged.mem_map_key k).trans (exists_congr fun i => ?_)⟩
  · obtain ⟨i, hi⟩ := hmerged.mem m hm
    exact hboot i m hi
  · rw [← b.boot_eq i]
    exact Set.ext_iff.mp (hkeys i) k

/-- Boot 0 has no files, boot 1 those of two loggers. -/
def loggedBoots : List BootFiles :=
  [⟨0, 0, Fin.elim0, nofun, nofun⟩,
    ⟨1, 2, fun _ => ⟨LogPartsSorter.startedParts, LogPartsSorter.firstPart, [LogPartsSorter.secondPart], 10,
      by decide, by decide, by decide, by decide⟩, by decide, by decide⟩]

end RobotCode.Logging.BootMerger
