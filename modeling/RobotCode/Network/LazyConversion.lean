import RobotCode.Lib.Fallible
import RobotCode.Network.TimeConverter

/-!
# Lazy conversions

A converter holds a slice of all the points: those before it are forgotten and those after it are not queued
yet. A conversion queues points until it has the segment it needs, so it gives what all the points together
would give, except where the slice begins.
-/

namespace RobotCode.Network

open Logging Rounding Fallible List BootTimestamp

variable {n : Nat}

section Search

variable {accepts : TimePoint n → Bool}

theorem lastSegment_eq_none {L : List (TimePoint n)} (h : ∀ p ∈ L, accepts p = false) :
    lastSegment accepts L = none := by
  induction L with
  | nil => rfl
  | cons p L ih =>
    cases L with
    | nil => rfl
    | cons q L =>
      have hL := ih fun r hr => h r (mem_cons_of_mem p hr)
      simp [lastSegment, hL, h p mem_cons_self]

theorem lastSegment_of_suffix {L : List (TimePoint n)} {s : TimePoint n × TimePoint n}
    (h : lastSegment accepts L = some s) (before : List (TimePoint n)) :
    lastSegment accepts (before ++ L) = some s := by
  induction before with
  | nil => exact h
  | cons p before ih =>
    cases hrest : before ++ L with
    | nil => simp [hrest, lastSegment] at ih
    | cons q rest =>
      rw [hrest] at ih
      rw [cons_append, hrest, lastSegment, ih]
      rfl

theorem lastSegment_cons_cons {p q : TimePoint n} {rest : List (TimePoint n)} (hp : accepts p = true) :
    lastSegment accepts (p :: q :: rest) = some (findSegment accepts p q rest) := by
  rw [lastSegment, findSegment, hp]
  cases lastSegment accepts (q :: rest) <;> rfl

end Search

theorem findSegment_eq (accepts : TimePoint n → Bool) {p q h0 h1 : TimePoint n}
    {before after rest : List (TimePoint n)} (hL : h0 :: h1 :: rest = before ++ p :: q :: after)
    (hp : before ≠ [] → accepts p = true) (hq : after = [] ∨ ∀ r ∈ q :: after, accepts r = false) :
    findSegment accepts h0 h1 rest = (p, q) := by
  have hnone : lastSegment accepts (q :: after) = none := by
    rcases hq with rfl | hq
    · rfl
    · exact lastSegment_eq_none hq
  cases before with
  | nil =>
    obtain ⟨rfl, rfl, rfl⟩ : h0 = p ∧ h1 = q ∧ rest = after := by simpa using hL
    rw [findSegment, hnone, Option.getD_none]
  | cons h before =>
    have htail : h1 :: rest = before ++ p :: q :: after := by simpa using (cons.inj hL).2
    have hlast : lastSegment accepts (p :: q :: after) = some (p, q) := by
      rw [lastSegment_cons_cons (hp (by simp)), findSegment, hnone, Option.getD_none]
    rw [findSegment, htail, lastSegment_of_suffix hlast, Option.getD_some]

/-- The clocks all advance. -/
structure Advancing (points : List (TimePoint n)) : Prop where
  distributed : points.Pairwise (·.distributed < ·.distributed)
  nodes : ∀ node, points.Pairwise (·.nodes node < ·.nodes node)

section Advancing

variable {p q : TimePoint n} {before after L : List (TimePoint n)} {node : Fin n} {time : BootTimestamp}

theorem Advancing.of_append (h : Advancing (before ++ L)) : Advancing L :=
  ⟨h.distributed.sublist (sublist_append_right before L),
    fun node => (h.nodes node).sublist (sublist_append_right before L)⟩

theorem Advancing.of_append_left (h : Advancing (L ++ after)) : Advancing L :=
  ⟨h.distributed.sublist (sublist_append_left L after),
    fun node => (h.nodes node).sublist (sublist_append_left L after)⟩

theorem Advancing.tail (h : Advancing (p :: L)) : Advancing L :=
  ⟨h.distributed.tail, fun node => (h.nodes node).tail⟩

theorem Advancing.lt_of_mem (h : Advancing (p :: L)) (hq : q ∈ L) :
    p.distributed < q.distributed ∧ ∀ node, p.nodes node < q.nodes node :=
  ⟨rel_of_pairwise_cons h.distributed hq, fun node => rel_of_pairwise_cons (h.nodes node) hq⟩

theorem Advancing.le_of_append (h : Advancing (before ++ p :: L)) (hq : q ∈ before) :
    q.distributed < p.distributed ∧ ∀ node, q.nodes node < p.nodes node :=
  ⟨(pairwise_append.mp h.distributed).2.2 q hq p mem_cons_self,
    fun node => (pairwise_append.mp (h.nodes node)).2.2 q hq p mem_cons_self⟩

theorem exists_first (accepts : TimePoint n → Bool) (hL : L = before ++ p :: q :: after)
    (hanti : L.Pairwise fun r s => accepts s = true → accepts r = true) (hp : before ≠ [] → accepts p = true)
    (hq : after = [] ∨ ¬ accepts q = true) :
    ∃ h0 h1 rest, L = h0 :: h1 :: rest ∧ (h0 = p ∨ h0 ∈ before) ∧ findSegment accepts h0 h1 rest = (p, q) := by
  obtain ⟨h0, h1, rest, hfirst, hmem⟩ :
      ∃ h0 h1 rest, before ++ p :: q :: after = h0 :: h1 :: rest ∧ (h0 = p ∨ h0 ∈ before) := by
    rcases before with _ | ⟨a, _ | ⟨b, before⟩⟩ <;> simp
  refine ⟨h0, h1, rest, hL.trans hfirst, hmem, findSegment_eq accepts hfirst.symm hp (hq.imp_right fun hq => ?_)⟩
  rw [hL, pairwise_append, pairwise_cons, pairwise_cons] at hanti
  have hafter := hanti.2.1.2.1
  simpa [hq] using fun r hr => mt (hafter r hr) hq

theorem toDistributedIn_append (before : List (TimePoint n)) (h : Advancing L) (hL : L = before ++ p :: q :: after)
    (havePopped : Bool) (hp : p.nodes node ≤ time) (hq : after = [] ∨ time < q.nodes node) :
    toDistributedIn node time havePopped L = toDistributedBetween node time p q := by
  obtain ⟨h0, h1, rest, hfirst, hmem, hsegment⟩ := exists_first (fun p => decide (p.nodes node ≤ time)) hL
    ((h.nodes node).imp fun hrs hs => by simpa using hrs.le.trans (by simpa using hs)) (fun _ => by simpa using hp)
    (by simpa using hq)
  have hnot : ¬ time < h0.nodes node := by
    rcases hmem with rfl | hmem
    · exact hp.not_gt
    · exact (((hL ▸ h).le_of_append hmem).2 node |>.le.trans hp).not_gt
  rw [hfirst]
  simp [toDistributedIn, if_neg hnot, hsegment]

theorem fromDistributedIn_append {time : Int} (before : List (TimePoint n)) (h : Advancing L)
    (hL : L = before ++ p :: q :: after) (bootCount : Nat) (havePopped : Bool) (hp : p.distributed ≤ time)
    (hbefore : before ≠ [] → p.distributed < time) (hq : after = [] ∨ time ≤ q.distributed) :
    fromDistributedIn node time bootCount havePopped L = fromDistributedBetween node time bootCount p q := by
  obtain ⟨h0, h1, rest, hfirst, hmem, hsegment⟩ := exists_first (fun p => decide (p.distributed < time)) hL
    (h.distributed.imp fun hrs hs => by simpa using hrs.trans (by simpa using hs)) (fun hne => by simpa using hbefore hne)
    (by simpa using hq)
  have hnot : ¬ time < h0.distributed := by
    rcases hmem with rfl | hmem
    · exact hp.not_gt
    · exact (((hL ▸ h).le_of_append hmem).1.le.trans hp).not_gt
  rw [hfirst]
  simp [fromDistributedIn, if_neg hnot, hsegment]

theorem exists_segment (P : TimePoint n → Prop) [DecidablePred P] :
    ∀ (rest : List (TimePoint n)) (p q : TimePoint n), P p →
      ∃ before a b after, p :: q :: rest = before ++ a :: b :: after ∧ P a ∧ (after = [] ∨ ¬ P b)
  | [], p, q, hp => ⟨[], p, q, [], rfl, hp, .inl rfl⟩
  | r :: rest, p, q, hp => by
      by_cases hq : P q
      · obtain ⟨before, a, b, after, heq, ha, hb⟩ := exists_segment P rest q r hq
        exact ⟨p :: before, a, b, after, by rw [heq, cons_append], ha, hb⟩
      · exact ⟨[], p, q, r :: rest, rfl, hp, .inr hq⟩

theorem toDistributedBetween_left (h : p.nodes node < q.nodes node) :
    toDistributedBetween node (p.nodes node) p q = .ok p.distributed := by
  simp only [toDistributedBetween, if_neg h.not_gt, interpolate]
  rw [lt_iff] at h
  split
  · simp
  · rw [if_neg (by omega), sub_self, zero_mul, roundDiv_zero (by omega), add_zero]

theorem toDistributedBetween_right (h : p.nodes node < q.nodes node) (hd : p.distributed < q.distributed) :
    toDistributedBetween node (q.nodes node) p q = .ok q.distributed := by
  simp only [toDistributedBetween, lt_irrefl, if_false, interpolate]
  rw [lt_iff] at h
  split
  · simp
  · rw [if_neg (by omega), mul_comm, roundDiv_mul_self (by omega) (by omega), add_sub_cancel]

theorem fromDistributedBetween_left (hd : p.distributed < q.distributed) (bootCount : Nat) :
    fromDistributedBetween node p.distributed bootCount p q = .ok (p.nodes node) := by
  simp only [fromDistributedBetween, if_neg hd.ne, if_neg hd.not_gt, add, sub_self, add_zero]
  split
  · rfl
  · rw [if_neg (by omega), zero_mul, roundDiv_zero (by omega), add_zero]

/-! ### Slices -/

variable {forgotten times more : List (TimePoint n)} {havePopped : Bool}

structure IsSlice (forgotten times more : List (TimePoint n)) (havePopped : Bool) : Prop where
  advancing : Advancing (forgotten ++ (times ++ more))
  popped : havePopped = true ↔ forgotten ≠ []
  kept : forgotten ≠ [] → 2 ≤ times.length

theorem IsSlice.eq_nil (h : IsSlice forgotten [p] more havePopped) : forgotten = [] ∧ havePopped = false := by
  have hnil : forgotten = [] := by
    by_contra hne
    simpa using h.kept hne
  refine ⟨hnil, ?_⟩
  have := h.popped
  simpa [hnil] using this

theorem toDistributedIn_slice (node : Fin n) (time : BootTimestamp)
    (h : IsSlice forgotten times more havePopped) (hne : times ≠ [])
    (hstop : more = [] ∨ ∃ b ∈ times.getLast?, time ≤ b.nodes node) :
    toDistributedIn node time havePopped times = .error .forgotten ∨
      toDistributedIn node time havePopped times = toDistributedIn node time false (forgotten ++ (times ++ more)) := by
  cases times with
  | nil => exact absurd rfl hne
  | cons p rest =>
  by_cases hfirst : time < p.nodes node
  · cases havePopped with
    | true => exact .inl (by simp [toDistributedIn, hfirst])
    | false =>
      have hnil : forgotten = [] := by simpa using h.popped
      exact .inr (by simp [hnil, toDistributedIn, hfirst])
  have hp : p.nodes node ≤ time := not_lt.mp hfirst
  refine .inr ?_
  cases rest with
  | nil =>
    obtain ⟨rfl, rfl⟩ := h.eq_nil
    cases more with
    | nil => rfl
    | cons r more =>
      -- only one point is queued yet, and it is the one asked for
      obtain rfl : time = p.nodes node := le_antisymm (by simpa using hstop) hp
      have hlt := (h.advancing.lt_of_mem (q := r) (by simp)).2 node
      rw [toDistributedIn_append [] h.advancing rfl false hp (.inr hlt), toDistributedBetween_left hlt]
      simp [toDistributedIn, toDistributedAtFirst]
  | cons q rest =>
    obtain ⟨before, a, b, after, heq, ha, hb⟩ := exists_segment (fun r => r.nodes node ≤ time) rest p q hp
    rw [toDistributedIn_append before h.advancing.of_append.of_append_left heq havePopped ha (hb.imp_right not_le.mp)]
    by_cases hend : after ++ more = [] ∨ time < b.nodes node
    · rw [toDistributedIn_append (forgotten ++ before) h.advancing (by simp [heq]) false ha hend]
    · -- the last point of the slice is the one asked for, and more points follow
      rw [not_or, not_lt] at hend
      obtain rfl : after = [] := hb.resolve_right (by simpa using hend.2)
      cases more with
      | nil => exact absurd rfl hend.1
      | cons r more =>
        rw [heq] at hstop
        obtain rfl : time = b.nodes node := le_antisymm (by simpa using hstop) hend.2
        have hlist : forgotten ++ (p :: q :: rest ++ r :: more) = forgotten ++ before ++ a :: b :: r :: more := by simp [heq]
        have hadvancing := (hlist ▸ h.advancing).of_append
        have hab := hadvancing.lt_of_mem (q := b) (by simp)
        have hbr := (hadvancing.tail.lt_of_mem (q := r) (by simp)).2 node
        rw [toDistributedIn_append (forgotten ++ before ++ [a]) h.advancing (hlist.trans (append_cons ..)) false hend.2 (.inr hbr),
          toDistributedBetween_left hbr, toDistributedBetween_right (hab.2 node) hab.1]

theorem fromDistributedIn_slice (node : Fin n) {time : Int} (bootCount : Nat)
    (h : IsSlice forgotten (p :: L) more havePopped)
    (hstop : more = [] ∨ ∃ b ∈ (p :: L).getLast?, time ≤ b.distributed) :
    (fromDistributedIn node time bootCount havePopped (p :: L) = .error .forgotten ∨
        fromDistributedIn node time bootCount havePopped (p :: L) =
          fromDistributedIn node time bootCount false (forgotten ++ (p :: L ++ more))) ↔
      ¬ (havePopped = true ∧ time = p.distributed ∧ bootCount ≠ (p.nodes node).boot) := by
  by_cases hfirst : time < p.distributed
  · have hne : ¬ time = p.distributed := by omega
    simp only [hne, false_and, and_false, not_false_eq_true, iff_true]
    cases havePopped with
    | true => exact .inl (by simp [fromDistributedIn, hfirst])
    | false =>
      have hnil : forgotten = [] := by simpa using h.popped
      exact .inr (by simp [hnil, fromDistributedIn, hfirst])
  have hp : p.distributed ≤ time := not_lt.mp hfirst
  cases L with
  | nil =>
    obtain ⟨rfl, rfl⟩ := h.eq_nil
    simp only [Bool.false_eq_true, false_and, not_false_eq_true, iff_true]
    cases more with
    | nil => exact .inr rfl
    | cons r more =>
      obtain rfl : time = p.distributed := le_antisymm (by simpa using hstop) hp
      have hlt := (h.advancing.lt_of_mem (q := r) (by simp)).1
      rw [fromDistributedIn_append [] h.advancing rfl bootCount false hp (by simp) (.inr hlt.le),
        fromDistributedBetween_left hlt]
      exact .inr (by simp [fromDistributedIn])
  | cons q rest =>
    by_cases htime : time = p.distributed
    · subst htime
      have hpq := (h.advancing.of_append.lt_of_mem (q := q) (by simp)).1
      rw [fromDistributedIn_append [] h.advancing.of_append.of_append_left rfl bootCount havePopped hp (by simp)
        (.inr hpq.le), fromDistributedBetween_left hpq]
      rcases eq_nil_or_concat forgotten with rfl | ⟨forgotten, f, rfl⟩
      · have hpopped : havePopped = false := by simpa using h.popped
        rw [fromDistributedIn_append [] h.advancing rfl bootCount false hp (by simp) (.inr hpq.le),
          fromDistributedBetween_left hpq]
        simp [hpopped]
      · have hpopped : havePopped = true := by simpa using h.popped
        have hfp := (h.advancing.le_of_append (q := f) (by simp)).1
        rw [fromDistributedIn_append forgotten h.advancing (by rw [concat_eq_append, append_assoc]; rfl) bootCount false hfp.le (fun _ => hfp)
          (.inr le_rfl), fromDistributedBetween]
        simp only [hpopped, if_pos, true_and, ne_eq, not_not, reduceCtorEq, false_or]
        -- the point before is gone, and only the boot of the point itself is left
        by_cases hboot : bootCount = (p.nodes node).boot
        · simp [hboot, add]
        · simp only [hboot, if_false, iff_false]
          split
          · next hboot' =>
            intro heq
            have := congrArg boot (Except.ok.inj heq)
            simp only [add] at this
            omega
          · simp
    · simp only [htime, false_and, and_false, not_false_eq_true, iff_true]
      obtain ⟨before, a, b, after, heq, ha, hb⟩ :=
        exists_segment (fun r => r.distributed < time) rest p q (by omega)
      have hend : after ++ more = [] ∨ time ≤ b.distributed := by
        rcases hb with rfl | hb
        · simpa [heq] using hstop
        · exact .inr (not_lt.mp hb)
      rw [fromDistributedIn_append before h.advancing.of_append.of_append_left heq bootCount havePopped ha.le (fun _ => ha)
        (hb.imp_right not_lt.mp), fromDistributedIn_append (forgotten ++ before) h.advancing (by simp [heq]) bootCount false
        ha.le (fun _ => ha) hend]
      exact .inr rfl

end Advancing

/-! ### The converter -/

namespace Converter

variable {c c' full : Converter n} {points forgotten : List (TimePoint n)} {notDone : TimePoint n → Bool}

structure Holds (points forgotten : List (TimePoint n)) (c : Converter n) : Prop where
  slice : IsSlice forgotten c.times c.upcoming c.havePopped
  points_eq : points = forgotten ++ (c.times ++ c.upcoming)
  atEnd : c.atEnd = true → c.upcoming = []

open Converter

theorem Holds.start (h : Advancing points) (buffer : Int) : Holds points [] (start buffer points) :=
  ⟨⟨h, by simp [Converter.start], by simp⟩, rfl, by simp [Converter.start]⟩

theorem Holds.queueNextTimestamp (h : Holds points forgotten c) (hnext : c.queueNextTimestamp = .ok c') :
    Holds points forgotten c' ∧ c.times <+: c'.times ∧ c'.timeEstimationBuffer = c.timeEstimationBuffer := by
  rw [Converter.queueNextTimestamp] at hnext
  split at hnext
  · next hupcoming =>
    cases hnext
    exact ⟨⟨h.slice, h.points_eq, fun _ => hupcoming⟩, prefix_rfl, rfl⟩
  · next next upcoming hupcoming =>
    have hpoints := h.points_eq
    have hslice := h.slice
    rw [hupcoming] at hpoints hslice
    split at hnext
    · cases hnext
    · cases hnext
      refine ⟨⟨⟨by simpa using hslice.advancing, hslice.popped, fun hne => ?_⟩, by simpa using hpoints, ?_⟩,
        prefix_append _ _, rfl⟩
      · have := hslice.kept hne
        rw [length_append]
        omega
      · intro hend
        simp [h.atEnd hend] at hupcoming

theorem Holds.queueUntil (h : Holds points forgotten c) (hqueue : c.queueUntil notDone = .ok c') :
    Holds points forgotten c' ∧ c.times <+: c'.times ∧ c'.timeEstimationBuffer = c.timeEstimationBuffer ∧
      c'.times ≠ [] ∧ (c'.upcoming = [] ∨ ∃ b ∈ c'.times.getLast?, notDone b = false) := by
  fun_induction Converter.queueUntil notDone c with
  | case1 | case3 => cases hqueue
  | case2 c hloop c1 hnext ih =>
    obtain ⟨h1, hpre, hbuffer⟩ := h.queueNextTimestamp hnext
    obtain ⟨h', hpre', hbuffer', hrest⟩ := ih h1 hqueue
    exact ⟨h', hpre.trans hpre', hbuffer'.trans hbuffer, hrest⟩
  | case4 c hloop hne =>
    obtain rfl := Except.ok.inj hqueue
    refine ⟨h, prefix_rfl, rfl, hne, ?_⟩
    by_cases hend : c.atEnd = true
    · exact .inl (h.atEnd hend)
    · cases hlast : c.times.getLast? with
      | none => exact absurd (getLast?_eq_none_iff.mp hlast) hne
      | some b => exact .inr ⟨b, rfl, by simpa [hend, hlast] using hloop⟩

theorem popPassed_spec (time buffer : Int) : ∀ L : List (TimePoint n),
    ∃ dropped, L = dropped ++ popPassed time buffer L ∧ (dropped ≠ [] → 2 ≤ (popPassed time buffer L).length)
  | [] => ⟨[], rfl, by simp⟩
  | [p] => ⟨[], rfl, by simp⟩
  | p :: q :: rest => by
      rw [popPassed]
      split
      · exact ⟨[], rfl, by simp⟩
      · next hpop =>
        obtain ⟨dropped, heq, hkept⟩ := popPassed_spec time buffer (q :: rest)
        refine ⟨p :: dropped, by rw [cons_append, ← heq], fun _ => ?_⟩
        cases dropped with
        | nil =>
          rw [nil_append] at heq
          rw [not_or, kHistoryMinCount, length_cons] at hpop
          rw [← heq]
          omega
        | cons d dropped => exact hkept (by simp)

theorem Holds.observeTimePassed (h : Holds points forgotten c) (time : Int) :
    ∃ forgotten', Holds points forgotten' (c.observeTimePassed time) := by
  obtain ⟨dropped, heq, hkept⟩ := popPassed_spec time c.timeEstimationBuffer c.times
  have hlist : forgotten ++ (c.times ++ c.upcoming) =
      (forgotten ++ dropped) ++ (popPassed time c.timeEstimationBuffer c.times ++ c.upcoming) := by
    rw [append_assoc, ← append_assoc dropped, ← heq]
  refine ⟨forgotten ++ dropped, ⟨?_, ?_, ?_⟩, h.points_eq.trans hlist, h.atEnd⟩
  · exact hlist ▸ h.slice.advancing
  · have hlength := congrArg length heq
    rw [length_append] at hlength
    have hdropped : (popPassed time c.timeEstimationBuffer c.times).length < c.times.length ↔ dropped ≠ [] := by
      rw [← length_pos_iff_ne_nil]
      omega
    simp only [Converter.observeTimePassed, Bool.or_eq_true, h.slice.popped, decide_eq_true_eq, hdropped, ne_eq,
      append_eq_nil_iff, not_and_or]
  · intro hne
    by_cases hdropped : dropped = []
    · subst hdropped
      rw [nil_append] at heq
      rw [append_nil] at hne
      rw [Converter.observeTimePassed, ← heq]
      exact h.slice.kept hne
    · exact hkept hdropped

def Query.waitsFor : Query n → TimePoint n → Bool
  | .toDistributed node time => fun p => decide (p.nodes node < time)
  | .fromDistributed _ time _ => fun p => decide (p.distributed < time)

def Query.resultIn (havePopped : Bool) (times : List (TimePoint n)) : Query n → Except TimeCheck (Int ⊕ BootTimestamp)
  | .toDistributed node time => (toDistributedIn node time havePopped times).map .inl
  | .fromDistributed node time bootCount => (fromDistributedIn node time bootCount havePopped times).map .inr

open Query

theorem ask_eq (hn : n ≠ 1) (q : Query n) :
    c.ask q = c.queueUntil q.waitsFor >>= fun c' => (q.resultIn c'.havePopped c'.times).map (·, c') := by
  cases q with
  | toDistributed node time =>
    simp only [ask, toDistributedClock, if_neg hn, waitsFor, resultIn]
    cases c.queueUntil fun p => decide (p.nodes node < time) with
    | error e => rfl
    | ok c' => cases h : toDistributedIn node time c'.havePopped c'.times <;> simp [h, bind, Except.bind, Except.map]
  | fromDistributed node time bootCount =>
    simp only [ask, fromDistributedClock, if_neg hn, waitsFor, resultIn]
    cases c.queueUntil fun p => decide (p.distributed < time) with
    | error e => rfl
    | ok c' =>
      cases h : fromDistributedIn node time bootCount c'.havePopped c'.times <;>
        simp [h, bind, Except.bind, Except.map]

variable {q : Query n}

theorem ask_of_one (hn : n = 1) {answer : Int ⊕ BootTimestamp} (hask : c.ask q = .ok (answer, c')) : c' = c := by
  cases q <;> simp_all [ask, toDistributedClock, fromDistributedClock, bind, Except.bind]

theorem Holds.ask {answer : Int ⊕ BootTimestamp} (h : Holds points forgotten c)
    (hask : c.ask q = .ok (answer, c')) : Holds points forgotten c' := by
  by_cases hn : n = 1
  · rw [ask_of_one hn hask]
    exact h
  · rw [ask_eq hn, bind_eq_ok] at hask
    obtain ⟨c1, hqueue, hresult⟩ := hask
    obtain ⟨result, -, heq⟩ := map_eq_ok.mp hresult
    obtain ⟨-, rfl⟩ := Prod.mk.inj heq
    exact (h.queueUntil hqueue).1

theorem Holds.run {calls : List (Call n)} (h : Holds points forgotten c) (hrun : c.run calls = .ok c') :
    ∃ forgotten', Holds points forgotten' c' := by
  induction calls generalizing c forgotten with
  | nil =>
    cases hrun
    exact ⟨forgotten, h⟩
  | cons call calls ih =>
    rw [run, foldlM_cons, bind_eq_ok] at hrun
    obtain ⟨c1, hexec, hrun⟩ := hrun
    cases call with
    | ask q =>
      obtain ⟨⟨answer, c2⟩, hask, rfl⟩ := map_eq_ok.mp hexec
      exact ih (h.ask hask) hrun
    | observeTimePassed time =>
      cases hexec
      obtain ⟨forgotten', h'⟩ := h.observeTimePassed time
      exact ih h' hrun

theorem queueAll_spec (hqueue : c.queueAll = .ok full) (hend : c.atEnd = true → c.upcoming = []) :
    full.times = c.times ++ c.upcoming ∧ full.upcoming = [] ∧ full.atEnd = true ∧ full.havePopped = c.havePopped ∧
      (c.times = [] → ∀ p ∈ c.upcoming.head?, ∀ node, (p.nodes node).boot = 0) := by
  fun_induction queueAll c with
  | case1 c hloop e hnext => cases hqueue
  | case2 c hloop c1 hnext ih =>
    rw [queueNextTimestamp] at hnext
    split at hnext
    · next hupcoming =>
      cases hnext
      obtain ⟨htimes, hrest⟩ := ih hqueue fun _ => hupcoming
      simp_all
    · next next upcoming hupcoming =>
      split at hnext
      · cases hnext
      · next hfirst =>
        cases hnext
        obtain ⟨htimes, hupcoming', hend', hpopped, -⟩ := ih hqueue fun hatEnd => absurd hatEnd hloop
        refine ⟨by simpa [hupcoming] using htimes, hupcoming', hend', hpopped, fun hempty p hp => ?_⟩
        obtain rfl : next = p := by simpa [hupcoming] using hp
        simpa [hempty] using hfirst
  | case3 c hloop =>
    obtain rfl := Except.ok.inj hqueue
    have hatEnd : c.atEnd = true := by simpa using hloop
    have hupcoming := hend hatEnd
    exact ⟨by simp [hupcoming], hupcoming, hatEnd, rfl, by simp [hupcoming]⟩

theorem Holds.forgotten_eq_nil (h : Holds points forgotten c) (hempty : c.times = []) : forgotten = [] := by
  by_contra hne
  have := h.slice.kept hne
  simp [hempty] at this

theorem Holds.queueNextTimestamp_ne_error {e : TimeCheck} (h : Holds points forgotten c)
    (hfirst : ∀ p ∈ points.head?, ∀ node, (p.nodes node).boot = 0) : c.queueNextTimestamp ≠ .error e := by
  intro hnext
  rw [Converter.queueNextTimestamp] at hnext
  split at hnext
  · cases hnext
  · next next upcoming hupcoming =>
    split at hnext
    · next hcheck =>
      have hpoints := h.points_eq
      rw [h.forgotten_eq_nil hcheck.1, hcheck.1, hupcoming] at hpoints
      exact hcheck.2 (hfirst next (by simp [hpoints]))
    · cases hnext

theorem Holds.exists_queueUntil (h : Holds points forgotten c) (notDone : TimePoint n → Bool)
    (hfirst : ∀ p ∈ points.head?, ∀ node, (p.nodes node).boot = 0) :
    c.queueUntil notDone = .error .noTimes ∧ points = [] ∨ ∃ c', c.queueUntil notDone = .ok c' := by
  fun_induction Converter.queueUntil notDone c with
  | case1 c hloop e hnext => exact absurd hnext (h.queueNextTimestamp_ne_error hfirst)
  | case2 c hloop c1 hnext ih => exact ih (h.queueNextTimestamp hnext).1
  | case3 c hloop hempty =>
    have hatEnd : c.atEnd = true := by simpa [hempty] using hloop
    refine .inl ⟨rfl, ?_⟩
    rw [h.points_eq, h.forgotten_eq_nil hempty, hempty, h.atEnd hatEnd]
    rfl
  | case4 c hloop hne => exact .inr ⟨c, rfl⟩

def Misses (c : Converter n) (q : Query n) : Prop :=
  n ≠ 1 ∧ c.havePopped = true ∧ ∃ p ∈ c.times.head?, ∃ node bootCount,
    q = .fromDistributed node p.distributed bootCount ∧ bootCount ≠ (p.nodes node).boot

theorem answer_of_queueUntil (hn : n ≠ 1) (hqueue : c.queueUntil q.waitsFor = .ok c') :
    c.answer q = q.resultIn c'.havePopped c'.times := by
  rw [answer, ask_eq hn, hqueue]
  simp only [bind, Except.bind]
  cases q.resultIn c'.havePopped c'.times <;> rfl

private theorem resultIn_slice_iff {p : TimePoint n} {L more : List (TimePoint n)} {havePopped : Bool}
    (h : IsSlice forgotten (p :: L) more havePopped)
    (hstop : more = [] ∨ ∃ b ∈ (p :: L).getLast?, q.waitsFor b = false) :
    (q.resultIn havePopped (p :: L) = .error .forgotten ∨
        q.resultIn havePopped (p :: L) = q.resultIn false (forgotten ++ (p :: L ++ more))) ↔
      ¬ (havePopped = true ∧ ∃ node bootCount,
          q = .fromDistributed node p.distributed bootCount ∧ bootCount ≠ (p.nodes node).boot) := by
  cases q with
  | toDistributed node time =>
    have hslice := toDistributedIn_slice node time h (by simp) (by simpa [waitsFor] using hstop)
    simp only [reduceCtorEq, false_and, exists_false, and_false, not_false_eq_true, iff_true, resultIn]
    exact hslice.imp (fun heq => by rw [heq]; rfl) fun heq => by rw [heq]
  | fromDistributed node time bootCount =>
    have hslice := fromDistributedIn_slice node bootCount h (by simpa [waitsFor] using hstop)
    simp only [resultIn, map_eq_error, map_inj Sum.inr_injective, hslice, fromDistributed.injEq]
    refine not_congr (and_congr_right fun _ => ⟨fun ⟨htime, hboot⟩ => ?_, ?_⟩)
    · exact ⟨node, bootCount, ⟨rfl, htime, rfl⟩, hboot⟩
    · rintro ⟨node', bootCount', ⟨rfl, htime, rfl⟩, hboot⟩
      exact ⟨htime, hboot⟩

/-- The answer to a query is the one with all points queued in advance, or an abort because the points are forgotten, except for
the oldest remembered point in another boot. -/
theorem lazy_answer_iff (points : List (TimePoint n)) (buffer : Int) (calls : List (Call n))
    (hdistributed : points.Pairwise (·.distributed < ·.distributed))
    (hnodes : ∀ node, points.Pairwise (·.nodes node < ·.nodes node))
    (hfull : (start buffer points).queueAll = .ok full) (hrun : (start buffer points).run calls = .ok c) (q : Query n) :
    (c.answer q = .error .forgotten ∨ c.answer q = full.answer q) ↔ ¬ c.Misses q := by
  obtain ⟨htimes, hupcoming, hatEnd, hpopped, hfirst⟩ := queueAll_spec hfull (by simp [start])
  have hfullTimes : full.times = points := by simpa [start] using htimes
  have hfullPopped : full.havePopped = false := hpopped
  obtain ⟨forgotten, h⟩ := (Holds.start ⟨hdistributed, hnodes⟩ buffer).run hrun
  by_cases hn : n = 1
  · have heq : c.answer q = full.answer q := by
      cases q <;> simp [answer, ask, toDistributedClock, fromDistributedClock, hn, bind, Except.bind, Except.map]
    simp [heq, Misses, hn]
  have hfullQueue : full.queueUntil q.waitsFor = if points = [] then .error .noTimes else .ok full := by
    rw [queueUntil, dif_neg (by simp [hatEnd]), hfullTimes]
  rcases h.exists_queueUntil q.waitsFor (by simpa [start] using hfirst rfl) with ⟨hqueue, hempty⟩ | ⟨c', hqueue⟩
  · have hctimes : c.times = [] := by
      have := h.points_eq
      simp_all
    rw [if_pos hempty] at hfullQueue
    have heq : c.answer q = full.answer q := by
      rw [answer, answer, ask_eq hn, ask_eq hn, hqueue, hfullQueue]
    simp [heq, Misses, hctimes]
  · obtain ⟨h', hpre, -, hne, hstop⟩ := h.queueUntil hqueue
    have hpoints : points ≠ [] := by
      rw [h'.points_eq]
      simp [hne]
    rw [if_neg hpoints] at hfullQueue
    rw [answer_of_queueUntil hn hqueue, answer_of_queueUntil hn hfullQueue, hfullTimes, hfullPopped, h'.points_eq]
    have hpopped' : c.havePopped = true ↔ c'.havePopped = true := h.slice.popped.trans h'.slice.popped.symm
    cases hctimes : c'.times with
    | nil => exact absurd hctimes hne
    | cons p L =>
      have hslice := h'.slice
      rw [hctimes] at hslice hstop hpre
      rw [resultIn_slice_iff hslice hstop, Misses, hpopped']
      -- the first remembered point is not changed by queueing more
      have hhead : c'.havePopped = true → c.times.head? = some p := by
        intro hpop
        cases hctimes : c.times with
        | nil =>
          have hkept := h.slice.kept (h'.slice.popped.mp hpop)
          simp [hctimes] at hkept
        | cons p' L' =>
          rw [hctimes, cons_prefix_cons] at hpre
          rw [hpre.1, head?_cons]
      constructor
      · rintro hquery ⟨-, hpop, p', hp', hask⟩
        obtain rfl : p = p' := by simpa [hhead hpop] using hp'
        exact hquery ⟨hpop, hask⟩
      · rintro hmiss ⟨hpop, hask⟩
        exact hmiss ⟨hn, hpop, p, hhead hpop, hask⟩

/-- Two nodes, of which one reboots, and a conversion before one that asks for the old boot. -/
theorem lazy_answer_iff_reboot :
    answer ⟨[⟨0, ![⟨0, 0⟩, ⟨0, 0⟩]⟩, ⟨10, ![⟨1, 5⟩, ⟨0, 10⟩]⟩], [], false, false, 0⟩ (.fromDistributed 0 10 0) =
        .error .forgotten ∨
      answer ⟨[⟨0, ![⟨0, 0⟩, ⟨0, 0⟩]⟩, ⟨10, ![⟨1, 5⟩, ⟨0, 10⟩]⟩], [], false, false, 0⟩ (.fromDistributed 0 10 0) =
        answer ⟨[⟨0, ![⟨0, 0⟩, ⟨0, 0⟩]⟩, ⟨10, ![⟨1, 5⟩, ⟨0, 10⟩]⟩], [], false, true, 0⟩ (.fromDistributed 0 10 0) :=
  (lazy_answer_iff [⟨0, ![⟨0, 0⟩, ⟨0, 0⟩]⟩, ⟨10, ![⟨1, 5⟩, ⟨0, 10⟩]⟩] 0 [.ask (.toDistributed 0 ⟨0, 4⟩)] (by decide)
    (by decide) (by decide +kernel) (by decide +kernel) _).mpr (by simp [Misses])

def rebootPoints : List (TimePoint 2) :=
  (range 500).map fun i => ⟨(i : Nat), ![⟨min i 1, (i : Nat)⟩, ⟨0, (i : Nat)⟩]⟩

private theorem rebootPoints_advancing : Advancing rebootPoints := by
  refine ⟨?_, fun node => ?_⟩ <;> rw [rebootPoints, pairwise_map] <;> refine pairwise_lt_range.imp fun hlt => ?_
  · simpa using hlt
  · fin_cases node
    · simp [lt_iff]
      omega
    · simpa [lt_iff] using hlt

/-- After the point before a reboot is forgotten, a time of the old boot at the reboot is answered in the new
boot. -/
theorem forgotten_boot_answered :
    ∃ (points : List (TimePoint 2)) (calls : List (Call 2)) (c full : Converter 2) (q : Query 2),
      points.Pairwise (·.distributed < ·.distributed) ∧ (∀ node, points.Pairwise (·.nodes node < ·.nodes node)) ∧
      (start 0 points).queueAll = .ok full ∧ (start 0 points).run calls = .ok c ∧
      c.answer q = .ok (.inr ⟨1, 1⟩) ∧ full.answer q = .ok (.inr ⟨0, 1⟩) := by
  obtain ⟨full, hfull, hanswer⟩ : ∃ full, (start 0 rebootPoints).queueAll = .ok full ∧
      full.answer (.fromDistributed 0 1 0) = .ok (.inr ⟨0, 1⟩) := by decide +kernel
  -- a conversion after the end queues everything, and then the first point is popped
  obtain ⟨c, hc, hother⟩ : ∃ c,
      (start 0 rebootPoints).run [.ask (.fromDistributed 1 1000 0), .observeTimePassed 1] = .ok c ∧
      c.answer (.fromDistributed 0 1 0) = .ok (.inr ⟨1, 1⟩) := by decide +kernel
  exact ⟨rebootPoints, _, c, full, _, rebootPoints_advancing.distributed, rebootPoints_advancing.nodes, hfull, hc, hother,
    hanswer⟩

end Converter

end RobotCode.Network
