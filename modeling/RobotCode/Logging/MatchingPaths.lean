import RobotCode.Logging.ReadAhead

/-!
# The two ways to find the data of a timestamp

`MatchingMessageFor` looks up the data of a timestamp in a queue. When no message is missing from the queue,
the position follows from the queue index and the message is copied. Otherwise the queue is searched and the
message is moved out of it. Both erase what is before the message and keep the message itself, so that it can
be asked for again. After the search it has no data any more.
-/

namespace RobotCode.Logging

open List Option

/-- A call of `MatchingMessageFor`: the data that is read for it, and what the timestamp knows of its message. -/
structure Request where
  arrived : List QueuedMessage
  queueIndex : BootQueueIndex
  time : BootTimestamp
  realtime : Int
  boot_eq : time.boot = queueIndex.boot

namespace TimestampMapper

abbrev Lookup := Except MapCheck (Option UnpackedMessageHeader × List QueuedMessage)

variable (queue : List QueuedMessage)

def byPosition (front : QueuedMessage) (r : Request) : Lookup :=
  if r.queueIndex.boot ≠ front.queueIndex.boot then .error .differentBoot
  else match queue.drop (r.queueIndex.index - front.queueIndex.index) with
    | [] => .error .outOfRange
    | result :: rest => do
      let data ← checkTimes result r.time r.realtime
      return (some data, result :: rest)

/-- The path through `std::find_if`. -/
def bySearch (_front : QueuedMessage) (r : Request) : Lookup :=
  match queue.dropWhile (fun m => ¬ (m.queueIndex = r.queueIndex ∧ m.timestamp.boot = r.time.boot)) with
  | [] => .ok (none, queue)
  | result :: rest => do
    let data ← checkTimes result r.time r.realtime
    return (some data, { result with data := none } :: rest)

/-- What comes before either path: there is no data beyond the ends of the queue. -/
def lookUp (path : List QueuedMessage → QueuedMessage → Request → Lookup) (queue : List QueuedMessage)
    (r : Request) : Lookup :=
  match queue.head?, queue.getLast? with
  | some front, some back =>
    if r.queueIndex < front.queueIndex ∨ r.queueIndex > back.queueIndex then .ok (none, queue)
    else path queue front r
  | _, _ => .ok (none, queue)

def matching (r : Request) : Lookup :=
  findData queue r.queueIndex r.time r.realtime

def outcomes (step : List QueuedMessage → Request → Lookup) : List QueuedMessage → List Request → List Lookup
  | _, [] => []
  | queue, r :: rs =>
    match step (queue ++ r.arrived) r with
    | .error e => [.error e]
    | .ok (data, queue') => .ok (data, queue') :: outcomes step queue' rs

/-- The messages that are returned. -/
def answers (step : List QueuedMessage → Request → Lookup) (queue : List QueuedMessage) (rs : List Request) :
    List (Except MapCheck (Option UnpackedMessageHeader)) :=
  (outcomes step queue rs).map (Except.map Prod.fst)

def Consecutive : Prop :=
  ∃ boot first, ∀ (i : Nat) (m : QueuedMessage), queue[i]? = some m →
    m.queueIndex = ⟨boot, first + i⟩ ∧ m.timestamp.boot = boot

section

variable {queue pre post : List QueuedMessage} {m : QueuedMessage} {r : Request}

theorem Consecutive.of_append_left (h : Consecutive (pre ++ post)) : Consecutive pre := by
  obtain ⟨boot, first, h⟩ := h
  refine ⟨boot, first, fun i m hm => h i m ?_⟩
  rw [List.getElem?_append_left (List.getElem?_eq_some_iff.mp hm).1]
  exact hm

theorem Consecutive.of_append_right (h : Consecutive (pre ++ post)) : Consecutive post := by
  obtain ⟨boot, first, h⟩ := h
  refine ⟨boot, first + pre.length, fun i m hm => ?_⟩
  rw [Nat.add_assoc]
  apply h
  rw [getElem?_append_right (Nat.le_add_right _ _), Nat.add_sub_cancel_left]
  exact hm

section

variable (h : Consecutive queue)

include h

theorem Consecutive.increasing : queue.Pairwise fun a b => a.queueIndex < b.queueIndex := by
  obtain ⟨boot, first, h⟩ := h
  apply pairwise_iff_getElem.mpr
  intro i j hi hj hij
  rw [(h i _ (getElem?_eq_getElem hi)).1, (h j _ (getElem?_eq_getElem hj)).1, BootQueueIndex.lt_iff]
  exact .inr ⟨rfl, Nat.add_lt_add_left hij first⟩

theorem Consecutive.isConsecutive {front back : QueuedMessage}
    (hfront : queue.head? = some front) (hback : queue.getLast? = some back) : IsConsecutive queue front back := by
  obtain ⟨boot, first, h⟩ := h
  rw [head?_eq_getElem?] at hfront
  rw [getLast?_eq_getElem?] at hback
  have hlength := (List.getElem?_eq_some_iff.mp hfront).1
  rw [IsConsecutive, (h _ _ hfront).1, (h _ _ hback).1]
  refine ⟨rfl, ?_⟩
  show first + (queue.length - 1) - (first + 0) + 1 = queue.length
  omega

theorem matching_of_consecutive : matching queue r = lookUp byPosition queue r := by
  rw [matching, findData, lookUp]
  cases hfront : queue.head? with
  | none => rfl
  | some front =>
    cases hback : queue.getLast? with
    | none => rfl
    | some back =>
      simp only [if_pos (h.isConsecutive hfront hback)]
      rfl

def Queued (queue : List QueuedMessage) (r : Request) : Prop := ∃ m ∈ queue, m.queueIndex = r.queueIndex

def Answered (queue : List QueuedMessage) (r : Request) : Prop :=
  ∃ m ∈ queue, m.queueIndex = r.queueIndex ∧ ∃ data, checkTimes m r.time r.realtime = .ok data

omit h in
theorem Answered.queued (h : Answered queue r) : Queued queue r := by
  obtain ⟨m, hm, hindex, -⟩ := h
  exact ⟨m, hm, hindex⟩

theorem Consecutive.eq_of_queueIndex_eq {m m' : QueuedMessage} (hm : m ∈ queue)
    (hm' : m' ∈ queue) (heq : m.queueIndex = m'.queueIndex) : m = m' := by
  obtain ⟨boot, first, h⟩ := h
  obtain ⟨i, hi⟩ := mem_iff_getElem?.mp hm
  obtain ⟨j, hj⟩ := mem_iff_getElem?.mp hm'
  rw [(h i m hi).1, (h j m' hj).1] at heq
  have hij : i = j := Nat.add_left_cancel (BootQueueIndex.mk.inj heq).2
  rw [hij, hj] at hi
  exact (some.inj hi).symm

theorem Consecutive.lookUp_of_not_queued (hqueued : ¬ Queued queue r)
    (path : List QueuedMessage → QueuedMessage → Request → Lookup) : lookUp path queue r = .ok (none, queue) := by
  rw [lookUp]
  split
  · next front back hfront hback =>
    rw [if_pos]
    by_contra hrange
    apply hqueued
    rw [head?_eq_getElem?] at hfront
    rw [getLast?_eq_getElem?] at hback
    have hlength := (List.getElem?_eq_some_iff.mp hfront).1
    obtain ⟨boot, first, hindex⟩ := h
    rw [(hindex _ _ hfront).1, (hindex _ _ hback).1, gt_iff_lt, BootQueueIndex.lt_iff, BootQueueIndex.lt_iff]
      at hrange
    simp only [Nat.add_zero] at hrange
    have hi : r.queueIndex.index - first < queue.length := by omega
    refine ⟨_, getElem_mem hi, ?_⟩
    rw [(hindex _ _ (getElem?_eq_getElem hi)).1, BootQueueIndex.ext_iff]
    dsimp only
    omega
  · rfl

theorem Consecutive.lookUp_of_mem (hm : m ∈ queue) (hr : m.queueIndex = r.queueIndex)
    (path : List QueuedMessage → QueuedMessage → Request → Lookup) :
    ∃ front, queue[0]? = some front ∧ lookUp path queue r = path queue front r := by
  obtain ⟨boot, first, h⟩ := h
  obtain ⟨i, hi⟩ := mem_iff_getElem?.mp hm
  have hlength := (List.getElem?_eq_some_iff.mp hi).1
  have hfront : queue[0]? = some queue[0] := getElem?_eq_getElem (by omega)
  have hback : queue[queue.length - 1]? = some queue[queue.length - 1] := getElem?_eq_getElem (by omega)
  refine ⟨queue[0], hfront, ?_⟩
  rw [lookUp, head?_eq_getElem?, getLast?_eq_getElem?, hfront, hback]
  apply if_neg
  rw [← hr, (h _ _ hi).1, (h _ _ hfront).1, (h _ _ hback).1, gt_iff_lt, BootQueueIndex.lt_iff, BootQueueIndex.lt_iff]
  dsimp only
  omega

end

theorem Consecutive.lookUp_byPosition (h : Consecutive (pre ++ m :: post)) (hr : m.queueIndex = r.queueIndex) :
    lookUp byPosition (pre ++ m :: post) r =
      (checkTimes m r.time r.realtime).map fun data => (some data, m :: post) := by
  obtain ⟨front, hfront, hlookUp⟩ := h.lookUp_of_mem (by simp) hr byPosition
  obtain ⟨boot, first, h⟩ := h
  have hm := (h pre.length m (by simp)).1
  have hf := (h 0 front hfront).1
  have hboot : ¬ r.queueIndex.boot ≠ front.queueIndex.boot := by
    rw [← hr, hm, hf]
    exact not_not.mpr rfl
  have hoffset : r.queueIndex.index - front.queueIndex.index = pre.length := by
    rw [← hr, hm, hf]
    exact Nat.add_sub_cancel_left first pre.length
  rw [hlookUp, byPosition, if_neg hboot, hoffset, drop_left]
  dsimp only
  cases checkTimes m r.time r.realtime <;> rfl

theorem Consecutive.lookUp_bySearch (h : Consecutive (pre ++ m :: post)) (hr : m.queueIndex = r.queueIndex) :
    lookUp bySearch (pre ++ m :: post) r =
      (checkTimes m r.time r.realtime).map fun data => (some data, { m with data := none } :: post) := by
  obtain ⟨front, -, hlookUp⟩ := h.lookUp_of_mem (by simp) hr bySearch
  have hpre : ∀ x ∈ pre, decide (¬ (x.queueIndex = r.queueIndex ∧ x.timestamp.boot = r.time.boot)) = true := by
    intro x hx
    have hlt := (pairwise_append.mp h.increasing).2.2 x hx m mem_cons_self
    simp [← hr, hlt.ne]
  have hfound : m.queueIndex = r.queueIndex ∧ m.timestamp.boot = r.time.boot := by
    obtain ⟨boot, first, h⟩ := h
    obtain ⟨hindex, htime⟩ := h pre.length m (by simp)
    exact ⟨hr, by rw [r.boot_eq, ← hr, hindex, htime]⟩
  have hdrop : (pre ++ m :: post).dropWhile
      (fun m => ¬ (m.queueIndex = r.queueIndex ∧ m.timestamp.boot = r.time.boot)) = m :: post := by
    rw [dropWhile_append_of_pos hpre]
    exact dropWhile_cons_of_neg (by simpa using hfound)
  rw [hlookUp, bySearch, hdrop]
  dsimp only
  cases checkTimes m r.time r.realtime <;> rfl

end

def AnswersNone (seen : List QueuedMessage) : List Request → Prop
  | [] => True
  | r :: rs => ¬ Answered (seen ++ r.arrived) r ∧
      (¬ Queued (seen ++ r.arrived) r → AnswersNone (seen ++ r.arrived) rs)

def AsksOnce (seen : List QueuedMessage) : List Request → Prop
  | [] => True
  | r :: rs => (Answered (seen ++ r.arrived) r → ∀ r' ∈ rs.head?, r'.queueIndex = r.queueIndex → r'.time ≠ r.time) ∧
      ((Queued (seen ++ r.arrived) r → Answered (seen ++ r.arrived) r) → AsksOnce (seen ++ r.arrived) rs)

section

variable {step : List QueuedMessage → Request → Lookup} {queue queue' : List QueuedMessage} {r : Request}
  {rs : List Request}

theorem outcomes_cons_error {e : MapCheck} (h : step (queue ++ r.arrived) r = .error e) :
    outcomes step queue (r :: rs) = [.error e] := by
  rw [outcomes, h]

theorem outcomes_cons_ok {data : Option UnpackedMessageHeader} (h : step (queue ++ r.arrived) r = .ok (data, queue')) :
    outcomes step queue (r :: rs) = .ok (data, queue') :: outcomes step queue' rs := by
  rw [outcomes, h]

/-- The code takes the path of a queue without missing messages at every request. -/
theorem outcomes_matching (h : Consecutive (queue ++ rs.flatMap (·.arrived))) :
    outcomes matching queue rs = outcomes (lookUp byPosition) queue rs := by
  induction rs generalizing queue with
  | nil => rfl
  | cons r rs ih =>
    rw [flatMap_cons, ← append_assoc] at h
    rw [outcomes, outcomes, matching_of_consecutive h.of_append_left]
    by_cases hqueued : Queued (queue ++ r.arrived) r
    · obtain ⟨m, hm, hr⟩ := hqueued
      obtain ⟨pre, post, hsplit⟩ := append_of_mem hm
      have hqueue : Consecutive (pre ++ m :: post) := hsplit ▸ h.of_append_left
      rw [hsplit, hqueue.lookUp_byPosition hr]
      rw [hsplit, append_assoc] at h
      cases checkTimes m r.time r.realtime with
      | error e => rfl
      | ok data =>
        show _ :: outcomes matching (m :: post) rs = _ :: outcomes (lookUp byPosition) (m :: post) rs
        rw [ih h.of_append_right]
    · rw [h.of_append_left.lookUp_of_not_queued hqueued]
      show _ :: outcomes matching (queue ++ r.arrived) rs = _ :: outcomes (lookUp byPosition) (queue ++ r.arrived) rs
      rw [ih h]

theorem outcomes_eq_iff (h : Consecutive (queue ++ rs.flatMap (·.arrived)))
    (hdata : ∀ m ∈ queue ++ rs.flatMap (·.arrived), m.data ≠ none) :
    outcomes (lookUp byPosition) queue rs = outcomes (lookUp bySearch) queue rs ↔ AnswersNone queue rs := by
  induction rs generalizing queue with
  | nil => exact iff_of_true rfl trivial
  | cons r rs ih =>
    rw [flatMap_cons, ← append_assoc] at h hdata
    have hqueue := h.of_append_left
    by_cases hqueued : Queued (queue ++ r.arrived) r
    · obtain ⟨m, hm, hr⟩ := id hqueued
      obtain ⟨pre, post, hsplit⟩ := append_of_mem hm
      have hposition := (hsplit ▸ hqueue : Consecutive (pre ++ m :: post)).lookUp_byPosition hr
      have hsearch := (hsplit ▸ hqueue : Consecutive (pre ++ m :: post)).lookUp_bySearch hr
      rw [← hsplit] at hposition hsearch
      cases hcheck : checkTimes m r.time r.realtime with
      | error e =>
        rw [hcheck] at hposition hsearch
        rw [outcomes_cons_error hposition, outcomes_cons_error hsearch]
        refine iff_of_true rfl ⟨?_, fun hnot => absurd hqueued hnot⟩
        rintro ⟨m', hm', hr', data, hok⟩
        rw [hqueue.eq_of_queueIndex_eq hm' hm (hr'.trans hr.symm), hcheck] at hok
        cases hok
      | ok data =>
        rw [hcheck] at hposition hsearch
        rw [outcomes_cons_ok hposition, outcomes_cons_ok hsearch]
        apply iff_of_false
        · intro heq
          have hqueues := (Prod.mk.inj (Except.ok.inj (cons.inj heq).1)).2
          apply hdata m (mem_append_left _ hm)
          rw [(cons.inj hqueues).1]
        · intro hnone
          exact hnone.1 ⟨m, hm, hr, data, hcheck⟩
    · have hanswered : ¬ Answered (queue ++ r.arrived) r := fun hanswered => hqueued hanswered.queued
      rw [outcomes_cons_ok (hqueue.lookUp_of_not_queued hqueued _),
        outcomes_cons_ok (hqueue.lookUp_of_not_queued hqueued _), cons_eq_cons, ih h hdata]
      simp only [AnswersNone, hanswered, hqueued, not_false_eq_true, true_and, true_implies]

theorem answers_cons_error {e : MapCheck} (h : step (queue ++ r.arrived) r = .error e) :
    answers step queue (r :: rs) = [.error e] := by
  rw [answers, outcomes_cons_error h]
  rfl

theorem answers_cons_ok {data : Option UnpackedMessageHeader} (h : step (queue ++ r.arrived) r = .ok (data, queue')) :
    answers step queue (r :: rs) = .ok data :: answers step queue' rs := by
  rw [answers, outcomes_cons_ok h]
  rfl

end

/-! ### What the search leaves behind -/

/-- The queue, where the data of the front is gone if it was `moved`. -/
def lose (moved : Bool) : List QueuedMessage → List QueuedMessage
  | [] => []
  | m :: rest => (if moved then { m with data := none } else m) :: rest

/-- The queue is the end of all data that was `seen`, where the requests to come are, and a message whose data was moved is at
its front. -/
structure Stage (moved : Bool) (seen queue : List QueuedMessage) (rs : List Request) : Prop where
  consecutive : Consecutive (seen ++ rs.flatMap (·.arrived))
  data : ∀ m ∈ seen ++ rs.flatMap (·.arrived), m.data ≠ none
  sorted : rs.Pairwise fun r r' => r.queueIndex ≤ r'.queueIndex
  dropped : ∃ dropped, seen = dropped ++ queue ∧ ∀ m ∈ dropped, ∀ r ∈ rs, m.queueIndex < r.queueIndex
  front : moved = true → ∃ m rest, queue = m :: rest ∧ ∀ r ∈ rs, m.queueIndex ≤ r.queueIndex

section

variable {moved : Bool} {seen queue pre post : List QueuedMessage} {m : QueuedMessage} {r : Request} {rs : List Request}

theorem Consecutive.lose (h : Consecutive queue) (moved : Bool) : Consecutive (lose moved queue) := by
  obtain ⟨boot, first, h⟩ := h
  refine ⟨boot, first, fun i m hm => ?_⟩
  cases queue with
  | nil => cases hm
  | cons x rest =>
    cases i with
    | zero =>
      cases hm
      cases moved <;> exact h 0 x rfl
    | succ i => exact h (i + 1) m hm

theorem queued_lose : Queued (lose moved queue) r ↔ Queued queue r := by
  cases queue with
  | nil => rfl
  | cons x rest => cases moved <;> simp [Queued, lose]

theorem lose_append (h : pre ≠ [] ∨ moved = false) : lose moved (pre ++ post) = lose moved pre ++ post := by
  cases pre with
  | cons x pre => rfl
  | nil =>
    obtain rfl := h.resolve_left (fun hne => hne rfl)
    cases post <;> rfl

section

variable (h : Stage moved seen queue (r :: rs))

include h

theorem Stage.skip : Stage moved (seen ++ r.arrived) (queue ++ r.arrived) rs where
  consecutive := by simpa using h.consecutive
  data := by simpa using h.data
  sorted := (pairwise_cons.mp h.sorted).2
  dropped := by
    obtain ⟨dropped, rfl, hdropped⟩ := h.dropped
    exact ⟨dropped, append_assoc _ _ _, fun m hm r' hr' => hdropped m hm r' (mem_cons_of_mem r hr')⟩
  front hmoved := by
    obtain ⟨m, rest, rfl, hle⟩ := h.front hmoved
    exact ⟨m, rest ++ r.arrived, rfl, fun r' hr' => hle r' (mem_cons_of_mem r hr')⟩

theorem Stage.seen_consecutive : Consecutive (seen ++ r.arrived) := h.skip.consecutive.of_append_left

theorem Stage.queue_consecutive : Consecutive (queue ++ r.arrived) := by
  obtain ⟨dropped, hseen, -⟩ := h.skip.dropped
  have hconsecutive := h.seen_consecutive
  rw [hseen] at hconsecutive
  exact hconsecutive.of_append_right

theorem Stage.queued_iff : Queued (seen ++ r.arrived) r ↔ Queued (queue ++ r.arrived) r := by
  obtain ⟨dropped, rfl, hdropped⟩ := h.dropped
  constructor
  · rintro ⟨m, hm, hr⟩
    rw [append_assoc, mem_append] at hm
    obtain hm | hm := hm
    · exact absurd hr (hdropped m hm r mem_cons_self).ne
    · exact ⟨m, hm, hr⟩
  · rintro ⟨m, hm, hr⟩
    exact ⟨m, by rw [append_assoc]; exact mem_append_right _ hm, hr⟩

theorem Stage.find (hsplit : queue ++ r.arrived = pre ++ m :: post)
    (hr : m.queueIndex = r.queueIndex) : Stage true (seen ++ r.arrived) (m :: post) rs where
  consecutive := h.skip.consecutive
  data := h.skip.data
  sorted := h.skip.sorted
  dropped := by
    obtain ⟨dropped, hseen, -⟩ := h.skip.dropped
    rw [hsplit, ← append_assoc] at hseen
    refine ⟨dropped ++ pre, hseen, ?_⟩
    intro x hx r' hr'
    have hincreasing := h.seen_consecutive.increasing
    rw [hseen] at hincreasing
    have hlt := (pairwise_append.mp hincreasing).2.2 x hx m mem_cons_self
    rw [hr] at hlt
    exact hlt.trans_le ((pairwise_cons.mp h.sorted).1 r' hr')
  front _ := ⟨m, post, rfl, fun r' hr' => hr ▸ (pairwise_cons.mp h.sorted).1 r' hr'⟩

end

def LeavesFront (queue : List QueuedMessage) (rs : List Request) : Prop :=
  ∀ m ∈ queue.head?, ∀ r ∈ rs.head?, r.queueIndex = m.queueIndex → r.time ≠ m.timestamp

theorem checkTimes_moved {time : BootTimestamp} (realtime : Int) (hdata : m.data ≠ none)
    (htime : m.timestamp = time) :
    checkTimes { m with data := none } time realtime = .error .movedData ∧
      checkTimes m time realtime ≠ .error .movedData := by
  obtain ⟨data, hdata⟩ := ne_none_iff_exists'.mp hdata
  rw [checkTimes, checkTimes, if_neg (not_not.mpr htime), if_neg (not_not.mpr htime), hdata]
  refine ⟨rfl, ?_⟩
  dsimp only
  split <;> simp

theorem Stage.asksOnce_of_error (h : Stage moved seen queue (r :: rs)) (hm : m ∈ seen ++ r.arrived)
    (hr : m.queueIndex = r.queueIndex) {e : MapCheck} (hcheck : checkTimes m r.time r.realtime = .error e) :
    AsksOnce seen (r :: rs) := by
  have hanswered : ¬ Answered (seen ++ r.arrived) r := by
    rintro ⟨m', hm', hr', data, hok⟩
    rw [h.seen_consecutive.eq_of_queueIndex_eq hm' hm (hr'.trans hr.symm), hcheck] at hok
    cases hok
  exact ⟨fun h => absurd h hanswered, fun himp => absurd (himp ⟨m, hm, hr⟩) hanswered⟩

theorem Stage.answers_front (h : Stage true seen (m :: post) (r :: rs)) (hr : m.queueIndex = r.queueIndex) :
    answers (lookUp byPosition) (m :: post) (r :: rs) = answers (lookUp bySearch) (lose true (m :: post)) (r :: rs) ↔
      m.timestamp ≠ r.time := by
  have hqueue : Consecutive ([] ++ m :: (post ++ r.arrived)) := h.queue_consecutive
  have hlost : Consecutive ([] ++ { m with data := none } :: (post ++ r.arrived)) := hqueue.lose true
  have hposition := hqueue.lookUp_byPosition hr
  have hsearch := hlost.lookUp_bySearch hr
  obtain ⟨dropped, rfl, -⟩ := h.dropped
  by_cases htime : m.timestamp = r.time
  · obtain ⟨hmoved, hkept⟩ := checkTimes_moved r.realtime (h.data m (by simp)) htime
    rw [hmoved] at hsearch
    apply iff_of_false _ (not_not.mpr htime)
    have hlost : answers (lookUp bySearch) (lose true (m :: post)) (r :: rs) = [.error .movedData] :=
      answers_cons_error hsearch
    rw [hlost]
    intro heq
    cases hcheck : checkTimes m r.time r.realtime with
    | error e =>
      rw [hcheck] at hposition
      rw [answers_cons_error hposition] at heq
      exact hkept (hcheck.trans (congrArg _ (Except.error.inj (cons.inj heq).1)))
    | ok data =>
      rw [hcheck] at hposition
      rw [answers_cons_ok hposition] at heq
      cases heq
  · have hcheck : ∀ data, checkTimes { m with data } r.time r.realtime = .error .differentTimestamp :=
      fun _ => if_pos htime
    rw [hcheck] at hsearch
    rw [hcheck m.data] at hposition
    refine iff_of_true ?_ htime
    rw [answers_cons_error hposition]
    exact (answers_cons_error hsearch).symm

theorem Stage.answers_eq_iff (h : Stage moved seen queue rs) :
    answers (lookUp byPosition) queue rs = answers (lookUp bySearch) (lose moved queue) rs ↔
      (moved = true → LeavesFront queue rs) ∧ AsksOnce seen rs := by
  induction rs generalizing moved seen queue with
  | nil => exact iff_of_true rfl ⟨fun _ _ _ r hr => (nomatch hr), trivial⟩
  | cons r rs ih =>
    have hlose : lose moved queue ++ r.arrived = lose moved (queue ++ r.arrived) := by
      refine (lose_append ?_).symm
      cases moved with
      | false => exact .inr rfl
      | true =>
        obtain ⟨x, rest, rfl, -⟩ := h.front rfl
        exact .inl (by simp)
    have hqueue := h.queue_consecutive
    by_cases hagain : moved = true ∧ ∃ x ∈ queue.head?, x.queueIndex = r.queueIndex
    · -- The request before was for the same message.
      obtain ⟨rfl, x, hx, hr⟩ := hagain
      obtain ⟨m, rest, rfl, -⟩ := h.front rfl
      obtain rfl := some.inj hx
      rw [h.answers_front hr]
      obtain ⟨dropped, rfl, -⟩ := h.dropped
      constructor
      · intro htime
        refine ⟨fun _ y hy r' hr' _ => ?_, ?_⟩
        · cases hy
          cases hr'
          exact htime.symm
        · exact h.asksOnce_of_error (by simp) hr (if_pos htime)
      · intro hfresh
        exact (hfresh.1 rfl m rfl r rfl hr.symm).symm
    have hfresh : moved = true → LeavesFront queue (r :: rs) := by
      intro hmoved x hx r' hr' hindex
      cases hr'
      exact absurd ⟨hmoved, x, hx, hindex.symm⟩ hagain
    by_cases hqueued : Queued (seen ++ r.arrived) r
    · obtain ⟨m, hm, hr⟩ := h.queued_iff.mp hqueued
      obtain ⟨pre, post, hsplit⟩ := append_of_mem hm
      obtain ⟨dropped, hseen, -⟩ := h.skip.dropped
      have hmem : m ∈ seen ++ r.arrived := hseen ▸ mem_append_right _ hm
      have hloses : lose moved (queue ++ r.arrived) = lose moved pre ++ m :: post := by
        rw [hsplit]
        apply lose_append
        by_contra hcon
        rw [not_or, not_not, Bool.not_eq_false] at hcon
        obtain ⟨x, rest, rfl, -⟩ := h.front hcon.2
        rw [hcon.1] at hsplit
        exact hagain ⟨hcon.2, x, rfl, (cons.inj hsplit).1 ▸ hr⟩
      have hposition := (hsplit ▸ hqueue : Consecutive (pre ++ m :: post)).lookUp_byPosition hr
      have hsearch := (hloses ▸ hqueue.lose moved).lookUp_bySearch hr
      rw [← hsplit] at hposition
      rw [← hloses, ← hlose] at hsearch
      cases hcheck : checkTimes m r.time r.realtime with
      | error e =>
        rw [hcheck] at hposition hsearch
        rw [answers_cons_error hposition, answers_cons_error hsearch]
        exact iff_of_true rfl ⟨hfresh, h.asksOnce_of_error hmem hr hcheck⟩
      | ok data =>
        rw [hcheck] at hposition hsearch
        have hanswered : Answered (seen ++ r.arrived) r := ⟨m, hmem, hr, data, hcheck⟩
        have hnext : LeavesFront (m :: post) rs ↔
            ∀ r' ∈ rs.head?, r'.queueIndex = r.queueIndex → r'.time ≠ r.time := by
          have htime : m.timestamp = r.time := by
            by_contra hne
            rw [checkTimes, if_pos hne] at hcheck
            cases hcheck
          simp [LeavesFront, ← hr, ← htime]
        have hrest := ih (h.find hsplit hr)
        rw [hnext] at hrest
        rw [answers_cons_ok hposition, answers_cons_ok hsearch, cons_eq_cons, and_iff_right rfl,
          and_iff_right hfresh]
        simp only [AsksOnce, hanswered, true_implies, implies_true] at hrest ⊢
        exact hrest
    · have hnot := h.queued_iff.not.mp hqueued
      have hposition := hqueue.lookUp_of_not_queued hnot byPosition
      have hsearch := (hqueue.lose moved).lookUp_of_not_queued (queued_lose.not.mpr hnot) bySearch
      have hnext : moved = true → LeavesFront (queue ++ r.arrived) rs := by
        intro hmoved x hx r' hr' hindex
        obtain ⟨m, rest, rfl, hle⟩ := h.front hmoved
        obtain rfl := some.inj hx
        have hge := (pairwise_cons.mp h.sorted).1 r' (mem_of_mem_head? hr')
        exact absurd ⟨m, mem_cons_self, le_antisymm (hle r mem_cons_self) (hindex ▸ hge)⟩ hnot
      have hanswered : ¬ Answered (seen ++ r.arrived) r := fun hanswered => hqueued hanswered.queued
      rw [← hlose] at hsearch
      rw [answers_cons_ok hposition, answers_cons_ok hsearch, cons_eq_cons, and_iff_right rfl, hlose, ih h.skip,
        and_iff_right hfresh, and_iff_right hnext]
      simp only [AsksOnce, hanswered, hqueued, false_implies, true_implies, true_and]

end

/-- On a queue without missing messages the code copies at every request. The search leaves the same queues only as long as no
request is answered, and returns the same messages only as long as none is asked for again. -/
theorem matching_paths_agree_iff {queue : List QueuedMessage} {rs : List Request}
    (hconsecutive : Consecutive (queue ++ rs.flatMap (·.arrived)))
    (hdata : ∀ m ∈ queue ++ rs.flatMap (·.arrived), m.data ≠ none)
    (hsorted : rs.Pairwise fun r r' => r.queueIndex ≤ r'.queueIndex) :
    outcomes matching queue rs = outcomes (lookUp byPosition) queue rs ∧
      (outcomes (lookUp byPosition) queue rs = outcomes (lookUp bySearch) queue rs ↔ AnswersNone queue rs) ∧
      (answers (lookUp byPosition) queue rs = answers (lookUp bySearch) queue rs ↔ AsksOnce queue rs) := by
  have hstage : Stage false queue queue rs := {
    consecutive := hconsecutive
    data := hdata
    sorted := hsorted
    dropped := ⟨[], rfl, fun _ hm => nomatch hm⟩
    front := fun hmoved => nomatch hmoved }
  refine ⟨outcomes_matching hconsecutive, outcomes_eq_iff hconsecutive hdata, ?_⟩
  have hiff := hstage.answers_eq_iff
  have hlose : lose false queue = queue := by cases queue <;> rfl
  rw [hlose, and_iff_right (fun hmoved => nomatch hmoved)] at hiff
  exact hiff

/-- A request on the first boot, with all data queued. -/
def asks (index time : Nat) : Request := ⟨[], ⟨0, index⟩, ⟨0, time⟩, 0, rfl⟩

/-- The data of three messages, none of which is missing. -/
def threeSent : List Message := [sentAt 0 5 50, sentAt 0 6 60, sentAt 0 7 70]

theorem threeSent_consecutive : Consecutive (threeSent.map .ofMessage) := by
  refine ⟨0, 5, fun i m hm => ?_⟩
  match i with
  | 0 | 1 | 2 =>
    cases hm
    exact ⟨rfl, rfl⟩

theorem matching_paths_agree_distinct :
    answers (lookUp byPosition) (threeSent.map .ofMessage) [asks 5 50, asks 7 70] =
      answers (lookUp bySearch) (threeSent.map .ofMessage) [asks 5 50, asks 7 70] := by
  refine (matching_paths_agree_iff threeSent_consecutive (by decide) (by decide)).2.2.mpr ?_
  refine ⟨?_, fun _ => ⟨fun _ r' hr' => (nomatch hr'), fun _ => trivial⟩⟩
  intro _ r' hr' hindex
  cases hr'
  exact absurd hindex (by decide)

/-- The first message is asked for twice. With all messages it is returned twice. Without the second message it is returned
once, and then its data is used through a null pointer. -/
theorem matching_paths_disagree :
    Consecutive (threeSent.map .ofMessage) ∧
      answers matching (threeSent.map .ofMessage) [asks 5 50, asks 5 50] =
        [.ok (some (sentAt 0 5 50).data), .ok (some (sentAt 0 5 50).data)] ∧
      answers matching ((threeSent.filter (· ≠ sentAt 0 6 60)).map .ofMessage) [asks 5 50, asks 5 50] =
        [.ok (some (sentAt 0 5 50).data), .error .movedData] ∧
      outcomes matching (threeSent.map .ofMessage) [asks 5 50] =
        [.ok (some (sentAt 0 5 50).data, threeSent.map .ofMessage)] ∧
      outcomes matching ((threeSent.filter (· ≠ sentAt 0 6 60)).map .ofMessage) [asks 5 50] =
        [.ok (some (sentAt 0 5 50).data, [⟨⟨0, 5⟩, ⟨0, 50⟩, none⟩, .ofMessage (sentAt 0 7 70)])] :=
  ⟨threeSent_consecutive, rfl, rfl, rfl, rfl⟩

end TimestampMapper

end RobotCode.Logging
