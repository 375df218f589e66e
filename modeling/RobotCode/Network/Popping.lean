import RobotCode.Logging.BootTimestamp
import RobotCode.Network.RemoteTime
import RobotCode.Network.Resampling

/-!
# Popping old timestamps

`NoncausalTimestampFilter` has a filter for each pair of boots of the two nodes. `Pop` walks over them and drops the
timestamps from the front of each that are no longer needed. It remembers the pair to resume from. Popping does not
change the offset at the time it is given or later. But a pair with fewer than two timestamps is passed over, also
when it is the last one, and the next call then has no pair to resume from.

`Consume`, which the checks for a new pair of boots look at too, is not among the calls here.
-/

namespace RobotCode.Network

open Logging List Fallible

structure BootFilter where
  boot : Nat × Nat
  filter : SingleFilter
  deriving DecidableEq

inductive BootFilterCheck where
  /-- A check of the filter of one pair of boots. -/
  | single (check : FilterCheck)
  /-- `CHECK_GE(filters_.size(), 1u)` -/
  | noFilters
  /-- `CHECK_LT(pop_filter_, filters_.size())` -/
  | popFilter
  /-- Boots didn't increase. -/
  | boots
  /-- Failed to find the pair of boots. -/
  | notFound
  deriving DecidableEq

structure NoncausalTimestampFilter where
  filters : List BootFilter
  /-- The filter to resume popping from. -/
  popFilter : Nat
  deriving DecidableEq

namespace NoncausalTimestampFilter

def initial : NoncausalTimestampFilter := ⟨[], 0⟩

/-- `FilterLessThanLower`, `FilterLessThanUpper` -/
def FilterLessThan (l r : Nat × Nat) : Prop := l.1 < r.1 ∨ l.1 = r.1 ∧ l.2 < r.2

instance (l r : Nat × Nat) : Decidable (FilterLessThan l r) := inferInstanceAs (Decidable (_ ∨ _))

/-- What is checked of neighbours when a pair has been added. -/
def BootsIncrease (l r : Nat × Nat) : Prop := l ≠ r ∧ l.1 ≤ r.1 ∧ l.2 ≤ r.2

instance (l r : Nat × Nat) : Decidable (BootsIncrease l r) := inferInstanceAs (Decidable (_ ∧ _))

variable (m : NoncausalTimestampFilter)

def emplace (boot : Nat × Nat) : Except BootFilterCheck (List BootFilter × SingleFilter × List BootFilter) :=
  let before := m.filters.takeWhile fun b => ¬ FilterLessThan boot b.boot
  let after := m.filters.dropWhile fun b => ¬ FilterLessThan boot b.boot
  if ((before ++ ⟨boot, .initial⟩ :: after).map BootFilter.boot).IsChain BootsIncrease then
    .ok (before, .initial, after)
  else .error .boots

/-- `filter`, which adds the pair of boots if needed. The filters before it, it, and those after it. -/
def filter (boot : Nat × Nat) : Except BootFilterCheck (List BootFilter × SingleFilter × List BootFilter) :=
  match m.filters.dropWhile fun b => FilterLessThan b.boot boot with
  | found :: after =>
    if found.boot = boot then .ok (m.filters.takeWhile fun b => FilterLessThan b.boot boot, found.filter, after)
    else m.emplace boot
  | [] => m.emplace boot

def sample (monotonicNow : BootTimestamp) (sampleBoot : Nat) (sampleNs : Int) :
    Except BootFilterCheck NoncausalTimestampFilter := do
  let (before, f, after) ← m.filter (monotonicNow.boot, sampleBoot)
  let f ← (f.sample ⟨monotonicNow.time, sampleNs⟩).mapError .single
  .ok ⟨before ++ ⟨(monotonicNow.boot, sampleBoot), f⟩ :: after, m.popFilter⟩

def offset (ta : BootTimestamp) (sampleBoot : Nat) : Except BootFilterCheck Int :=
  match m.filters.dropWhile fun b => FilterLessThan b.boot (ta.boot, sampleBoot) with
  | found :: _ =>
    if found.boot = (ta.boot, sampleBoot) then (found.filter.offset ta.time).mapError .single
    else .error .notFound
  | [] => .error .notFound

/-- The loop of `Pop` over the timestamps of one filter, of which each round drops one. Says whether `Pop` returns from there, and
whether something was removed. -/
def popFronts (time : BootTimestamp) (boot : Nat) :
    Nat → SingleFilter → Bool → Except FilterCheck (Bool × Bool × SingleFilter)
  | 0, f, removed => .ok (false, removed, f)
  | rounds + 1, f, removed =>
    if 2 < f.timestamps.length then do
      let p ← f.timestamp 1
      if time < ⟨boot, p.time⟩ then .ok (true, removed, f)
      else do
        let f ← f.popFront
        popFronts time boot rounds f true
    else .ok (false, removed, f)

/-- With two timestamps left, whether there is another filter with enough data in it to switch over to it. -/
def switches (time : BootTimestamp) (boot : Nat) : List BootFilter → Except FilterCheck Bool
  | [] => .ok false
  | next :: _ =>
    if next.filter.timestamps.length < 2 then .ok false
    else do
      let p ← next.filter.timestamp 1
      .ok (¬ time < ⟨boot, p.time⟩)

/-- Whether `Pop` returns at a filter rather than going on to the next one. -/
def staysAt (time : BootTimestamp) (boot : Nat) (returns : Bool) (f : SingleFilter) (rest : List BootFilter) :
    Except BootFilterCheck Bool :=
  if returns then .ok true
  else if f.timestamps.length = 2 then ((switches time boot rest).map (!·)).mapError .single
  else .ok false

/-- The loop of `Pop` over the filters: whether something was removed, the filters, and how many of them were passed. -/
def popFrom (time : BootTimestamp) : List BootFilter → Bool → Except BootFilterCheck (Bool × List BootFilter × Nat)
  | [], _ => .error .popFilter
  | b :: rest, removed => do
      let (returns, removed, f) ← (popFronts time b.boot.1 b.filter.timestamps.length b.filter removed).mapError .single
      let stays ← staysAt time b.boot.1 returns f rest
      if stays then .ok (removed, ⟨b.boot, f⟩ :: rest, 0)
      else
        match rest with
        | [] => .ok (removed, [⟨b.boot, f⟩], 1)
        | _ :: _ => do
            let (removed, rest, passed) ← popFrom time rest removed
            .ok (removed, ⟨b.boot, f⟩ :: rest, passed + 1)

def pop (time : BootTimestamp) : Except BootFilterCheck (Bool × NoncausalTimestampFilter) :=
  if m.filters.length < 1 then .error .noFilters
  else do
    let (removed, rest, passed) ← popFrom time (m.filters.drop m.popFilter) false
    .ok (removed, ⟨m.filters.take m.popFilter ++ rest, m.popFilter + passed⟩)

/-- `filter` alone stands for what adds a pair of boots without a sample for it. -/
inductive Call where
  | filter (boot : Nat × Nat)
  | sample (monotonicNow : BootTimestamp) (sampleBoot : Nat) (sampleNs : Int)
  | pop (time : BootTimestamp)
  deriving DecidableEq

def exec : Call → Except BootFilterCheck NoncausalTimestampFilter
  | .filter boot => do
      let (before, f, after) ← m.filter boot
      .ok ⟨before ++ ⟨boot, f⟩ :: after, m.popFilter⟩
  | .sample now sampleBoot sampleNs => m.sample now sampleBoot sampleNs
  | .pop time => (m.pop time).map Prod.snd

def run (calls : List Call) : Except BootFilterCheck NoncausalTimestampFilter := calls.foldlM exec m

end NoncausalTimestampFilter

namespace SingleFilter

variable {f f' : SingleFilter} {x p q : Point} {rest : List Point} {time : BootTimestamp} {boot : Nat}

/-- A filter that was only given samples and popped: no timestamp but the first is frozen, and the last one is there
only once. -/
structure PoppedOnly (f : SingleFilter) : Prop where
  fullyFrozen : f.fullyFrozen = false
  ordered : Ordered f.timestamps
  lastOnce : ∀ init l, f.timestamps = init ++ [l] → l ∉ init
  empty : f.timestamps = [] → f.frozenTime = none
  tail : ∀ p ∈ f.timestamps.tail, ¬ f.Frozen p.time

theorem PoppedOnly.initial : PoppedOnly initial :=
  ⟨rfl, List.Pairwise.nil, by simp [SingleFilter.initial], fun _ => rfl, by simp [SingleFilter.initial]⟩

theorem PoppedOnly.exists_sample_iff (h : PoppedOnly f) : (∃ f', f.sample x = .ok f') ↔ ¬ f.Frozen x.time := by
  refine ⟨fun ⟨f', hsample⟩ => ?_, exists_sample h.tail h.fullyFrozen⟩
  by_cases hempty : f.timestamps = []
  · exact not_frozen_of_none (h.empty hempty) x.time
  · exact not_frozen_of_sample hempty hsample

theorem PoppedOnly.sample (h : PoppedOnly f) (hsample : f.sample x = .ok f') : PoppedOnly f' := by
  have hx : ¬ f.Frozen x.time := h.exists_sample_iff.mp ⟨f', hsample⟩
  by_cases hlast : f.timestamps.getLast? = some x
  · obtain rfl := Except.ok.inj ((sample_last hx hlast).symm.trans hsample)
    exact h
  have hsampled := sampled_of_sample h.ordered hsample
  have hordered := hsampled.ordered h.ordered
  cases hsampled with
  | ignored => exact h
  | first hempty hfully =>
    refine ⟨h.fullyFrozen, hordered, fun init l hinit => ?_, by simp, by simp⟩
    have hone : [] ++ [x] = init ++ [l] := hinit
    obtain ⟨rfl, -⟩ := append_inj' hone rfl
    simp
  | inserted A M B hts _ hA hM hB hfirst _ =>
    refine ⟨h.fullyFrozen, hordered, fun init l hinit => ?_, by simp, ?_⟩
    · rcases eq_nil_or_concat B with rfl | ⟨B', b, rfl⟩
      · obtain ⟨rfl, heq⟩ := append_inj' hinit rfl
        obtain rfl : x = l := by simpa using heq
        exact fun hmem => lt_irrefl _ (hA x hmem)
      · simp only [concat_eq_append] at hts hinit
        rw [← cons_append, ← append_assoc] at hinit
        obtain ⟨rfl, heq⟩ := append_inj' hinit rfl
        obtain rfl : b = l := by simpa using heq
        have honce := h.lastOnce (A ++ (M ++ B')) b (by simp [hts])
        have hne : b ≠ x := by
          rintro rfl
          exact hlast (by simp [hts])
        simp only [mem_append, mem_cons, not_or] at honce ⊢
        exact ⟨honce.1, hne, honce.2.2⟩
    · cases A with
      | nil =>
        intro p hp hfrozen
        have hmem : p ∈ f.timestamps := by
          rw [hts]
          exact mem_append_right M hp
        exact hx (Frozen.mono (f := f) hfrozen (hfirst rfl p hmem))
      | cons a A =>
        have htail := h.tail
        rw [hts, cons_append, tail_cons] at htail
        intro p hp
        rcases mem_append.mp hp with hp | hp
        · exact htail p (mem_append_left _ hp)
        · rcases mem_cons.mp hp with rfl | hp
          · exact hx
          · exact htail p (mem_append_right _ (mem_append_right _ hp))

/-! ### Dropping the first timestamp -/

theorem popFront_cons (hts : f.timestamps = p :: q :: rest) :
    f.popFront = .ok ⟨q :: rest, some (f.frozenTime.elim p.time (max · p.time)), f.fullyFrozen, true⟩ := by
  cases hpopped : f.hasPopped <;> simp [popFront, timestamp, points, hts, hpopped, Point.clip_time, bind, Except.bind]

theorem timestamp_one (hts : f.timestamps = p :: q :: rest) : f.timestamp 1 = .ok q := by
  cases hpopped : f.hasPopped <;> simp [timestamp, points, hts, hpopped]

theorem offset_popFront (hordered : Ordered f.timestamps) (hts : f.timestamps = p :: q :: rest)
    (hpop : f' = ⟨q :: rest, some (f.frozenTime.elim p.time (max · p.time)), f.fullyFrozen, true⟩) {t : Int}
    (ht : q.time ≤ t) : f'.offset t = f.offset t := by
  subst hpop
  have hpoints : ∃ p', f.points = [p'] ++ q :: rest := by
    cases hpopped : f.hasPopped <;> simp [points, hts, hpopped]
  obtain ⟨p', hp'⟩ := hpoints
  have hordered' := ordered_points hordered
  rw [offset, offset, points_of_popped rfl, hp']
  rw [hp'] at hordered'
  exact (lineOffset_drop hordered' ht).symm

/-- Popping `f` at `time` gave `f'`: the offset from there on is the same. -/
def SameFrom (time : BootTimestamp) (boot : Nat) (f f' : SingleFilter) : Prop :=
  ∀ t : Int, time ≤ ⟨boot, t⟩ → f'.offset t = f.offset t

theorem SameFrom.refl (f : SingleFilter) : SameFrom time boot f f := fun _ _ => rfl

/-- What holds in each round of `Pop`. Of repeated timestamps all but the last are popped before the loop ends. -/
structure Popping (time : BootTimestamp) (boot : Nat) (f : SingleFilter) : Prop where
  fullyFrozen : f.fullyFrozen = false
  ordered : Ordered f.timestamps
  lastOnce : ∀ init l, f.timestamps = init ++ [l] → l ∉ init
  empty : f.timestamps = [] → f.frozenTime = none
  frozen : ∀ p ∈ f.timestamps.tail, f.Frozen p.time → f.timestamps.head? = some p
  reached : (∀ p ∈ f.timestamps.tail, ¬ f.Frozen p.time) ∨ ∀ p ∈ f.timestamps.head?, ⟨boot, p.time⟩ ≤ time

theorem PoppedOnly.popping (h : PoppedOnly f) : Popping time boot f :=
  ⟨h.fullyFrozen, h.ordered, h.lastOnce, h.empty, fun p hp hfrozen => absurd hfrozen (h.tail p hp), .inl h.tail⟩

theorem Popping.poppedOnly (h : Popping time boot f)
    (hend : f.timestamps.length ≤ 2 ∨ ∃ p q rest, f.timestamps = p :: q :: rest ∧ time < ⟨boot, q.time⟩) :
    PoppedOnly f := by
  refine ⟨h.fullyFrozen, h.ordered, h.lastOnce, h.empty, ?_⟩
  rcases h.reached with htail | hreached
  · exact htail
  intro p hp hfrozen
  have hhead := h.frozen p hp hfrozen
  obtain ⟨rest, hts⟩ := head?_eq_some_iff.mp hhead
  rw [hts, tail_cons] at hp
  rcases hend with hshort | ⟨p', q, rest', hts', hlt⟩
  · -- then `p` is the last timestamp as well
    obtain rfl : rest = [p] := by
      rw [hts, length_cons] at hshort
      match rest, hp, hshort with
      | [q], hp, _ => rw [mem_singleton.mp hp]
      | q :: r :: rest, _, hshort => simp at hshort
    exact h.lastOnce [p] p hts (by simp)
  · have hordered := h.ordered
    obtain ⟨rfl, rfl⟩ := cons_eq_cons.mp (hts.symm.trans hts')
    rw [hts'] at hordered
    have hle : q.time ≤ p.time := by
      rcases mem_cons.mp hp with rfl | hp
      · exact le_rfl
      · exact hordered.tail.le hp
    have hle' : (⟨boot, q.time⟩ : BootTimestamp) ≤ ⟨boot, p.time⟩ := BootTimestamp.le_iff.mpr (.inr ⟨rfl, hle⟩)
    exact absurd (hlt.trans_le (hle'.trans (hreached p hhead))) (lt_irrefl _)

theorem Popping.popFront (h : Popping time boot f) (hts : f.timestamps = p :: q :: rest) (hq : ⟨boot, q.time⟩ ≤ time)
    (hpop : f' = ⟨q :: rest, some (f.frozenTime.elim p.time (max · p.time)), f.fullyFrozen, true⟩) :
    Popping time boot f' := by
  have hordered := h.ordered
  rw [hts] at hordered
  have hfrozen : ∀ t, f'.Frozen t ↔ f.Frozen t ∨ t ≤ p.time := by
    intro t
    cases hF : f.frozenTime <;> simp [Frozen, hF, hpop]
  subst hpop
  refine ⟨h.fullyFrozen, hordered.tail, ?_, by simp, ?_, ?_⟩
  · intro init l hinit hmem
    exact h.lastOnce (p :: init) l (by rw [hts, cons_append, ← hinit]) (mem_cons_of_mem p hmem)
  · intro r hr hr'
    -- a frozen timestamp behind `q` is `p` once more, and then so is `q`
    have hrp : r = p := by
      rcases (hfrozen r.time).mp hr' with hold | hle
      · have hhead := h.frozen r (by rw [hts]; exact mem_cons_of_mem q hr) hold
        rw [hts] at hhead
        exact (Option.some.inj hhead).symm
      · rcases rel_of_pairwise_cons hordered (mem_cons_of_mem q hr) with hlt | heq
        · omega
        · exact heq.symm
    subst hrp
    rcases rel_of_pairwise_cons hordered.tail hr with hlt | heq
    · have := hordered.le (mem_cons_self (a := q) (l := rest))
      omega
    · rw [heq]
      rfl
  · refine .inr fun r hr => ?_
    obtain rfl : q = r := by simpa using hr
    exact hq

end SingleFilter

namespace NoncausalTimestampFilter

open SingleFilter

variable {f : SingleFilter} {time : BootTimestamp} {boot : Nat}

theorem popFronts_spec (time : BootTimestamp) (boot : Nat) (h : Popping time boot f) {rounds : Nat}
    (hrounds : f.timestamps.length ≤ rounds + 2)
    (removed : Bool) :
    ∃ returns removed' f', popFronts time boot rounds f removed = .ok (returns, removed', f') ∧ PoppedOnly f' ∧
      SameFrom time boot f f' := by
  induction rounds generalizing f removed with
  | zero => exact ⟨_, _, f, rfl, h.poppedOnly (.inl hrounds), .refl f⟩
  | succ rounds ih =>
    rw [popFronts]
    split
    · rename_i hlong
      obtain ⟨p, q, rest, hts⟩ : ∃ p q rest, f.timestamps = p :: q :: rest := by
        match hts : f.timestamps, hlong with
        | p :: q :: rest, _ => exact ⟨p, q, rest, rfl⟩
      rw [timestamp_one hts, popFront_cons hts]
      simp only [bind, Except.bind]
      split
      · rename_i hlt
        exact ⟨_, _, f, rfl, h.poppedOnly (.inr ⟨p, q, rest, hts, hlt⟩), .refl f⟩
      · rename_i hge
        have hq := not_lt.mp hge
        obtain ⟨returns, removed', f', hok, hpopped, hsame⟩ := ih (h.popFront hts hq rfl)
          (by rw [hts] at hrounds; simp at hrounds ⊢; omega) true
        refine ⟨returns, removed', f', hok, hpopped, fun t ht => ?_⟩
        have hqt : q.time ≤ t := by
          rcases BootTimestamp.le_iff.mp (hq.trans ht) with hlt | ⟨-, hle⟩
          · exact absurd hlt (lt_irrefl _)
          · exact hle
        rw [hsame t ht, offset_popFront h.ordered hts rfl hqt]
    · exact ⟨_, _, f, rfl, h.poppedOnly (.inl (by omega)), .refl f⟩

theorem exists_switches (time : BootTimestamp) (boot : Nat) (rest : List BootFilter) :
    ∃ stays, switches time boot rest = .ok stays := by
  cases rest with
  | nil => exact ⟨false, rfl⟩
  | cons next rest =>
    rw [switches]
    split
    · exact ⟨false, rfl⟩
    · rename_i hlong
      match hts : next.filter.timestamps, hlong with
      | p :: q :: rest, _ => exact ⟨_, by rw [timestamp_one hts]; rfl⟩
      | [p], hlong => simp at hlong
      | [], hlong => simp at hlong

/-- What `Pop` does to one pair of boots. -/
structure PoppedTo (time : BootTimestamp) (b b' : BootFilter) : Prop where
  boot : b'.boot = b.boot
  poppedOnly : PoppedOnly b'.filter
  same : SameFrom time b.boot.1 b.filter b'.filter

variable {time : BootTimestamp} {b : BootFilter}

theorem PoppedTo.refl (h : PoppedOnly b.filter) : PoppedTo time b b := ⟨rfl, h, .refl _⟩

theorem exists_staysAt (time : BootTimestamp) (boot : Nat) (returns : Bool) (f : SingleFilter)
    (rest : List BootFilter) : ∃ stays, staysAt time boot returns f rest = .ok stays := by
  rw [staysAt]
  split
  · exact ⟨true, rfl⟩
  split
  · obtain ⟨switch, hswitch⟩ := exists_switches time boot rest
    exact ⟨!switch, by rw [hswitch]; rfl⟩
  · exact ⟨false, rfl⟩

theorem popFrom_spec (time : BootTimestamp) {b : BootFilter} {rest : List BootFilter}
    (h : ∀ b' ∈ b :: rest, PoppedOnly b'.filter)
    (removed : Bool) : ∃ removed' filters passed, popFrom time (b :: rest) removed = .ok (removed', filters, passed) ∧
      List.Forall₂ (PoppedTo time) (b :: rest) filters := by
  obtain ⟨returns, removed1, f, hok, hpopped, hsame⟩ := popFronts_spec time b.boot.1
    (h b mem_cons_self).popping (Nat.le_add_right _ 2) removed
  obtain ⟨stays, hstays⟩ := exists_staysAt time b.boot.1 returns f rest
  have hb : PoppedTo time b ⟨b.boot, f⟩ := ⟨rfl, hpopped, hsame⟩
  have hrest : ∀ b' ∈ rest, PoppedOnly b'.filter := fun b' hb' => h b' (mem_cons_of_mem b hb')
  simp only [popFrom, hok, hstays, Except.mapError, bind, Except.bind]
  cases stays with
  | true => exact ⟨removed1, _, 0, rfl, .cons hb (forall₂_same.mpr fun b' hb' => .refl (hrest b' hb'))⟩
  | false =>
    cases rest with
    | nil => exact ⟨removed1, _, 1, rfl, .cons hb .nil⟩
    | cons next rest =>
      obtain ⟨removed2, filters, passed, hfrom, hforall⟩ := popFrom_spec time hrest removed1
      simp only [hfrom]
      exact ⟨removed2, _, passed + 1, rfl, .cons hb hforall⟩

/-! ### All pairs of boots -/

variable {m m' : NoncausalTimestampFilter}

structure Valid (m : NoncausalTimestampFilter) : Prop where
  filters : ∀ b ∈ m.filters, PoppedOnly b.filter
  boots : (m.filters.map BootFilter.boot).IsChain BootsIncrease

theorem Valid.initial : Valid initial := ⟨by simp [NoncausalTimestampFilter.initial], isChain_nil⟩

theorem BootsIncrease.trans {a b c : Nat × Nat} (h : BootsIncrease a b) (h' : BootsIncrease b c) :
    BootsIncrease a c := by
  obtain ⟨a1, a2⟩ := a
  obtain ⟨b1, b2⟩ := b
  obtain ⟨c1, c2⟩ := c
  simp only [BootsIncrease, ne_eq, Prod.mk.injEq] at *
  omega

theorem BootsIncrease.lessThan {a b : Nat × Nat} (h : BootsIncrease a b) : FilterLessThan a b := by
  obtain ⟨a1, a2⟩ := a
  obtain ⟨b1, b2⟩ := b
  simp only [BootsIncrease, FilterLessThan, ne_eq, Prod.mk.injEq] at *
  omega

theorem Valid.filter_eq (h : Valid m) (hb : b ∈ m.filters) :
    ∃ before after, m.filters = before ++ b :: after ∧ m.filter b.boot = .ok (before, b.filter, after) := by
  obtain ⟨before, after, hsplit⟩ := append_of_mem hb
  have hpairwise : (m.filters.map BootFilter.boot).Pairwise BootsIncrease := by
    have htrans : Trans BootsIncrease BootsIncrease BootsIncrease := ⟨BootsIncrease.trans⟩
    exact isChain_iff_pairwise.mp h.boots
  rw [hsplit, map_append, map_cons, pairwise_append] at hpairwise
  have hbefore : ∀ c ∈ before, decide (FilterLessThan c.boot b.boot) = true := fun c hc =>
    decide_eq_true (hpairwise.2.2 c.boot (mem_map_of_mem hc) b.boot mem_cons_self).lessThan
  have hself : ¬ FilterLessThan b.boot b.boot := by simp [FilterLessThan]
  have htake : (m.filters.takeWhile fun c => FilterLessThan c.boot b.boot) = before := by
    rw [hsplit, takeWhile_append_of_pos hbefore]
    simp [hself]
  have hdrop : (m.filters.dropWhile fun c => FilterLessThan c.boot b.boot) = b :: after := by
    rw [hsplit, dropWhile_append_of_pos hbefore]
    simp [hself]
  refine ⟨before, after, hsplit, ?_⟩
  rw [filter, hdrop, htake]
  exact if_pos rfl

theorem Valid.of_filter (h : Valid m) {boot : Nat × Nat} {before after : List BootFilter} {f : SingleFilter}
    (hfilter : m.filter boot = .ok (before, f, after)) : PoppedOnly f ∧ (∀ b ∈ before ++ after, PoppedOnly b.filter) ∧
      ((before.map BootFilter.boot) ++ boot :: after.map BootFilter.boot).IsChain BootsIncrease := by
  rw [filter] at hfilter
  split at hfilter
  on_goal 1 => split at hfilter
  · rename_i found rest hdrop hboot
    obtain ⟨rfl, hrest⟩ := Prod.mk.inj (Except.ok.inj hfilter)
    cases hrest
    have hsplit := takeWhile_append_dropWhile (p := fun b : BootFilter => FilterLessThan b.boot boot)
      (l := m.filters)
    rw [hdrop] at hsplit
    have hfilters := h.filters
    have hboots := h.boots
    rw [← hsplit] at hfilters hboots
    refine ⟨hfilters found (by simp), fun b hb => hfilters b ?_, by simpa [hboot] using hboots⟩
    exact mem_append.mpr ((mem_append.mp hb).imp_right (mem_cons_of_mem found))
  all_goals
    rw [emplace] at hfilter
    split at hfilter
    · rename_i hboots
      obtain ⟨rfl, hrest⟩ := Prod.mk.inj (Except.ok.inj hfilter)
      cases hrest
      refine ⟨.initial, ?_, by simpa using hboots⟩
      rw [takeWhile_append_dropWhile]
      exact h.filters
    · cases hfilter

theorem Valid.put (h : Valid m) {boot : Nat × Nat} {before after : List BootFilter} {f f' : SingleFilter}
    (hfilter : m.filter boot = .ok (before, f, after)) (hf' : PoppedOnly f') :
    Valid ⟨before ++ ⟨boot, f'⟩ :: after, m.popFilter⟩ := by
  obtain ⟨-, hothers, hboots⟩ := h.of_filter hfilter
  refine ⟨fun b hb => ?_, by simpa using hboots⟩
  rcases mem_append.mp hb with hb | hb
  · exact hothers b (mem_append_left _ hb)
  · rcases mem_cons.mp hb with rfl | hb
    · exact hf'
    · exact hothers b (mem_append_right _ hb)

theorem Valid.exists_sample_iff (h : Valid m) (hb : b ∈ m.filters) {t o : Int} :
    (∃ m', m.sample ⟨b.boot.1, t⟩ b.boot.2 o = .ok m') ↔ ¬ b.filter.Frozen t := by
  obtain ⟨before, after, -, hfilter⟩ := h.filter_eq hb
  rw [← (h.filters b hb).exists_sample_iff (x := ⟨t, o⟩)]
  refine ⟨fun ⟨m', hm'⟩ => ?_, fun ⟨f', hf'⟩ => ?_⟩
  · obtain ⟨⟨before', f, after'⟩, hfound, hrest⟩ := bind_eq_ok.mp hm'
    obtain ⟨-, hf⟩ := Prod.mk.inj (Except.ok.inj (hfilter.symm.trans hfound))
    obtain ⟨rfl, -⟩ := Prod.mk.inj hf
    obtain ⟨f', hsample, -⟩ := bind_eq_ok.mp hrest
    exact ⟨f', mapError_eq_ok.mp hsample⟩
  · refine ⟨⟨before ++ ⟨b.boot, f'⟩ :: after, m.popFilter⟩, bind_eq_ok.mpr ⟨_, hfilter, ?_⟩⟩
    exact bind_eq_ok.mpr ⟨f', mapError_eq_ok.mpr hf', rfl⟩

theorem Valid.pop (h : Valid m) (hpop : m.popFilter < m.filters.length) (time : BootTimestamp) :
    ∃ removed m', m.pop time = .ok (removed, m') ∧ List.Forall₂ (PoppedTo time) m.filters m'.filters := by
  have hne : m.filters.drop m.popFilter ≠ [] := fun hnil => by
    rw [drop_eq_nil_iff] at hnil
    omega
  obtain ⟨b, rest, hdrop⟩ := exists_cons_of_ne_nil hne
  have hsplit := take_append_drop m.popFilter m.filters
  have hrest : ∀ b' ∈ b :: rest, PoppedOnly b'.filter := fun b' hb' =>
    h.filters b' (mem_of_mem_drop (hdrop ▸ hb'))
  obtain ⟨removed, filters, passed, hok, hforall⟩ := popFrom_spec time hrest false
  refine ⟨removed, ⟨m.filters.take m.popFilter ++ filters, m.popFilter + passed⟩, ?_, ?_⟩
  · rw [NoncausalTimestampFilter.pop, if_neg (by omega), hdrop, hok]
    rfl
  · have htake : List.Forall₂ (PoppedTo time) (m.filters.take m.popFilter) (m.filters.take m.popFilter) :=
      forall₂_same.mpr fun b' hb' => .refl (h.filters b' (mem_of_mem_take hb'))
    have hall : List.Forall₂ (PoppedTo time) (m.filters.take m.popFilter ++ m.filters.drop m.popFilter)
        (m.filters.take m.popFilter ++ filters) := rel_append htake (hdrop ▸ hforall)
    rwa [hsplit] at hall

theorem not_pop (hpop : ¬ m.popFilter < m.filters.length) (time : BootTimestamp) {r : Bool × NoncausalTimestampFilter} :
    m.pop time ≠ .ok r := by
  rw [pop]
  split
  · simp
  · rw [drop_eq_nil_iff.mpr (not_lt.mp hpop)]
    simp [popFrom, bind, Except.bind]

theorem Valid.of_pop (h : Valid m) {removed : Bool} (hpop : m.pop time = .ok (removed, m')) :
    m.popFilter < m.filters.length ∧ List.Forall₂ (PoppedTo time) m.filters m'.filters := by
  have hlt : m.popFilter < m.filters.length := by
    by_contra hge
    exact not_pop hge time hpop
  obtain ⟨removed1, m1, hpop1, hforall⟩ := h.pop hlt time
  obtain ⟨-, rfl⟩ := Prod.mk.inj (Except.ok.inj (hpop.symm.trans hpop1))
  exact ⟨hlt, hforall⟩

theorem boots_poppedTo {filters filters' : List BootFilter} (h : List.Forall₂ (PoppedTo time) filters filters') :
    filters'.map BootFilter.boot = filters.map BootFilter.boot ∧ ∀ b ∈ filters', PoppedOnly b.filter := by
  induction h with
  | nil => simp
  | cons hb _ ih => simpa [hb.boot, hb.poppedOnly, ih.1] using ih.2

theorem Valid.poppedTo (h : Valid m) (hforall : List.Forall₂ (PoppedTo time) m.filters m'.filters) : Valid m' := by
  obtain ⟨hboots, hfilters⟩ := boots_poppedTo hforall
  exact ⟨hfilters, hboots ▸ h.boots⟩

theorem dropWhile_poppedTo {filters filters' : List BootFilter}
    (h : List.Forall₂ (PoppedTo time) filters filters') (before : Nat × Nat → Bool) :
    List.Forall₂ (PoppedTo time) (filters.dropWhile fun b => before b.boot)
      (filters'.dropWhile fun b => before b.boot) := by
  induction h with
  | nil => exact .nil
  | cons hb hrest ih =>
    simp only [dropWhile_cons, hb.boot]
    split
    · exact ih
    · exact .cons hb hrest

theorem offset_poppedTo {t : BootTimestamp} (hforall : List.Forall₂ (PoppedTo time) m.filters m'.filters)
    (ht : time ≤ t) (sampleBoot : Nat) : m'.offset t sampleBoot = m.offset t sampleBoot := by
  have hdrop := dropWhile_poppedTo hforall fun boot => FilterLessThan boot (t.boot, sampleBoot)
  unfold offset
  generalize (m.filters.dropWhile fun b => FilterLessThan b.boot (t.boot, sampleBoot)) = filters at hdrop ⊢
  generalize (m'.filters.dropWhile fun b => FilterLessThan b.boot (t.boot, sampleBoot)) = filters' at hdrop ⊢
  cases hdrop with
  | nil => rfl
  | @cons b b' _ _ hb _ =>
    simp only [hb.boot]
    split
    · rename_i hboot
      rw [hb.same t.time (by rw [hboot]; exact ht)]
    · rfl

theorem Valid.exec (h : Valid m) {call : Call} (hexec : m.exec call = .ok m') : Valid m' := by
  cases call with
  | filter boot =>
    obtain ⟨⟨before, f, after⟩, hfilter, hm'⟩ := bind_eq_ok.mp hexec
    cases hm'
    exact h.put hfilter (h.of_filter hfilter).1
  | sample now sampleBoot sampleNs =>
    obtain ⟨⟨before, f, after⟩, hfilter, hrest⟩ := bind_eq_ok.mp hexec
    obtain ⟨f', hsample, hm'⟩ := bind_eq_ok.mp hrest
    cases hm'
    exact h.put hfilter ((h.of_filter hfilter).1.sample (mapError_eq_ok.mp hsample))
  | pop time =>
    obtain ⟨⟨removed, m1⟩, hpop, rfl⟩ := map_eq_ok.mp hexec
    exact h.poppedTo (h.of_pop hpop).2

theorem Valid.run (h : Valid m) {calls : List Call} (hrun : m.run calls = .ok m') : Valid m' := by
  induction calls generalizing m with
  | nil =>
    cases hrun
    exact h
  | cons call calls ih =>
    obtain ⟨m1, hexec, hrun⟩ := bind_eq_ok.mp hrun
    exact ih (h.exec hexec) hrun

end NoncausalTimestampFilter

end RobotCode.Network
