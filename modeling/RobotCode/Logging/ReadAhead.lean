import RobotCode.Lib.KeyedSet
import RobotCode.Logging.TimestampMapper

/-!
# Reading ahead does not show

How far each mapper has read depends on the calls on all mappers, and so does the path that a lookup takes
through the queue of waiting data. What the mappers return does not. The matched messages of a node are a
function of the messages of all nodes: a timestamp gets the data with its queue index, unless the data of a
later message of the channel was handed out before.
-/

namespace RobotCode.Logging

open List Function BootQueueIndex TimestampMapper QueuedMessage Mappers

/-! ### Looking up data -/

theorem add_le_of_increasing {l : List Nat} (hincreasing : l.Pairwise (· < ·)) {i k a b : Nat} (ha : l[i]? = some a)
    (hb : l[i + k]? = some b) : a + k ≤ b := by
  induction k generalizing b with
  | zero => exact (Option.some.inj (ha.symm.trans hb)).le
  | succ k ih =>
    obtain ⟨hk, rfl⟩ := List.getElem?_eq_some_iff.mp hb
    have hk' : i + k < l.length := by omega
    exact (ih (getElem?_eq_getElem hk')).trans_lt (pairwise_iff_getElem.mp hincreasing _ _ hk' hk (by omega))

/-- A message as it waits in a queue, where the data with the index `gone` was moved out. -/
def waiting (gone : Option BootQueueIndex) (d : Message) : QueuedMessage :=
  ⟨d.queueIndex, d.timestamp, if gone = some d.queueIndex then none else some d.data⟩

@[simp] theorem waiting_queueIndex (gone : Option BootQueueIndex) (d : Message) :
    (waiting gone d).queueIndex = d.queueIndex := rfl

variable {gone : Option BootQueueIndex}

theorem waiting_of_ne {d : Message} (h : gone ≠ some d.queueIndex) : waiting gone d = ofMessage d := by
  rw [waiting, if_neg h, ofMessage]

theorem map_waiting {ds : List Message} (h : ∀ d ∈ ds, gone ≠ some d.queueIndex) :
    ds.map (waiting gone) = ds.map ofMessage := by
  apply map_congr_left
  intro d hd
  exact waiting_of_ne (h d hd)

def Increasing (ds : List Message) : Prop := ds.Pairwise fun a b => a.queueIndex < b.queueIndex

section

variable {ds : List Message} {gone : Option BootQueueIndex} {front back : Message}

theorem Increasing.le_back (h : Increasing ds) (hback : ds.getLast? = some back) :
    ∀ d ∈ ds, d.queueIndex ≤ back.queueIndex := by
  obtain ⟨init, rfl⟩ := getLast?_eq_some_iff.mp hback
  intro d hd
  rw [mem_append, mem_singleton] at hd
  obtain hinit | heq := hd
  · exact ((pairwise_append.mp h).2.2 d hinit back (by simp)).le
  · rw [heq]

theorem Increasing.front_le (h : Increasing ds) (hfront : ds.head? = some front) :
    ∀ d ∈ ds, front.queueIndex ≤ d.queueIndex := by
  cases ds with
  | nil => cases hfront
  | cons first rest =>
    obtain rfl : first = front := by simpa using hfront
    intro d hd
    obtain heq | hrest := mem_cons.mp hd
    · rw [heq]
    · exact ((pairwise_cons.mp h).1 d hrest).le

theorem Increasing.queueIndex_eq (h : Increasing ds) (hfront : ds.head? = some front) (hback : ds.getLast? = some back)
    (hconsecutive : TimestampMapper.IsConsecutive (ds.map (waiting gone)) (waiting gone front) (waiting gone back)) :
    ∀ (i : Nat) (d : Message), ds[i]? = some d →
      d.queueIndex = ⟨front.queueIndex.boot, front.queueIndex.index + i⟩ := by
  obtain ⟨hboot, hindex⟩ := hconsecutive
  have hboot : back.queueIndex.boot = front.queueIndex.boot := hboot
  have hindex : back.queueIndex.index - front.queueIndex.index + 1 = ds.length := by simpa using hindex
  have hboots : ∀ d ∈ ds, d.queueIndex.boot = front.queueIndex.boot := by
    intro d hd
    have hle := h.le_back hback d hd
    have hge := h.front_le hfront d hd
    rw [← not_lt, lt_iff] at hle hge
    omega
  have hincreasing : (ds.map fun d => d.queueIndex.index).Pairwise (· < ·) := by
    rw [pairwise_map]
    apply List.Pairwise.imp_of_mem _ h
    intro a b ha hb hlt
    have := hboots a ha
    have := hboots b hb
    rw [lt_iff] at hlt
    omega
  intro i d hd
  have hget : ∀ (k : Nat) (d : Message), ds[k]? = some d →
      (ds.map fun d => d.queueIndex.index)[k]? = some d.queueIndex.index := by
    intro k d hd
    rw [getElem?_map, hd]
    rfl
  have hi : i < ds.length := (List.getElem?_eq_some_iff.mp hd).1
  rw [head?_eq_getElem?] at hfront
  rw [getLast?_eq_getElem?, show ds.length - 1 = i + (ds.length - 1 - i) by omega] at hback
  have hlow := add_le_of_increasing hincreasing (hget 0 front hfront) ((Nat.zero_add i).symm ▸ hget i d hd)
  have hhigh := add_le_of_increasing hincreasing (hget i d hd) (hget _ back hback)
  exact BootQueueIndex.ext (hboots d (mem_of_getElem? hd)) (show d.queueIndex.index = front.queueIndex.index + i by omega)

theorem checkTimes_ofMessage (d : Message) :
    checkTimes (ofMessage d) d.timestamp d.data.realtimeSentTime = .ok d.data := by
  simp [checkTimes, ofMessage]

end

/-- Data that is waiting is found on either path, and everything before it is erased. Whether the data itself
stays depends on the path. -/
theorem findData_of_mem {pre post : List Message} {d : Message}
    (h : Increasing (pre ++ d :: post)) (hgone : ∀ x ∈ d :: post, gone ≠ some x.queueIndex) :
    ∃ gone', (gone' = none ∨ gone' = some d.queueIndex) ∧
      findData ((pre ++ d :: post).map (waiting gone)) d.queueIndex d.timestamp
        d.data.realtimeSentTime = .ok (some d.data, (d :: post).map (waiting gone')) := by
  have hd : d ∈ pre ++ d :: post := by simp
  obtain ⟨front, hfront⟩ : ∃ front, (pre ++ d :: post).head? = some front := by
    cases pre <;> simp
  obtain ⟨back, hback⟩ : ∃ back, (pre ++ d :: post).getLast? = some back := by
    rw [← Option.isSome_iff_exists, getLast?_isSome]
    simp
  rw [findData, head?_map, getLast?_map, hfront, hback]
  simp only [Option.map_some]
  have hrange : ¬ (d.queueIndex < (waiting gone front).queueIndex ∨ d.queueIndex > (waiting gone back).queueIndex) :=
    not_or.mpr ⟨(h.front_le hfront d hd).not_gt, (h.le_back hback d hd).not_gt⟩
  rw [if_neg hrange]
  split
  · next hconsecutive =>
    have hindex := h.queueIndex_eq hfront hback hconsecutive pre.length d (by simp)
    have hboot : ¬ d.queueIndex.boot ≠ (waiting gone front).queueIndex.boot := by
      rw [hindex]
      simp
    have hoffset : d.queueIndex.index - (waiting gone front).queueIndex.index = pre.length := by
      rw [hindex]
      simp
    have hdrop : ((pre ++ d :: post).map (waiting gone)).drop pre.length =
        ofMessage d :: post.map ofMessage := by
      rw [← map_drop, drop_left, map_waiting hgone, map_cons]
    have hnone : (d :: post).map (waiting none) = (d :: post).map ofMessage := map_waiting (by simp)
    rw [if_neg hboot, hoffset, hdrop]
    refine ⟨none, .inl rfl, ?_⟩
    simp [checkTimes_ofMessage, bind, Except.bind, pure, Except.pure, hnone, map_cons]
  · have hpre : ∀ e ∈ pre.map (waiting gone),
        decide (¬ (e.queueIndex = d.queueIndex ∧ e.timestamp.boot = d.timestamp.boot)) = true := by
      intro e he
      obtain ⟨x, hx, rfl⟩ := mem_map.mp he
      have hlt := (pairwise_append.mp h).2.2 x hx d mem_cons_self
      simp [hlt.ne]
    have hdrop : ((pre ++ d :: post).map (waiting gone)).dropWhile
        (fun m => ¬ (m.queueIndex = d.queueIndex ∧ m.timestamp.boot = d.timestamp.boot)) =
          ofMessage d :: post.map ofMessage := by
      rw [map_append, dropWhile_append_of_pos hpre, map_waiting hgone, map_cons]
      exact dropWhile_cons_of_neg (by simp [ofMessage])
    have hpost : ∀ x ∈ post, some d.queueIndex ≠ some x.queueIndex := by
      intro x hx heq
      have hlt := (pairwise_cons.mp (pairwise_append.mp h).2.1).1 x hx
      exact hlt.ne (Option.some.inj heq)
    rw [hdrop]
    refine ⟨some d.queueIndex, .inr rfl, ?_⟩
    simp only [checkTimes_ofMessage, bind, Except.bind, pure, Except.pure, map_cons, map_waiting hpost]
    rw [waiting, if_pos rfl]
    rfl

theorem findData_of_not_mem {ds : List Message} {index : BootQueueIndex}
    (h : Increasing ds) (hindex : ∀ d ∈ ds, d.queueIndex ≠ index) (time : BootTimestamp) (realtime : Int) :
    findData (ds.map (waiting gone)) index time realtime = .ok (none, ds.map (waiting gone)) := by
  cases ds with
  | nil => rfl
  | cons first rest =>
    obtain ⟨back, hback⟩ : ∃ back, (first :: rest).getLast? = some back := by
      rw [← Option.isSome_iff_exists, getLast?_isSome]
      simp
    rw [findData, head?_map, getLast?_map, hback]
    simp only [head?_cons, Option.map_some]
    by_cases hrange : index < (waiting gone first).queueIndex ∨ index > (waiting gone back).queueIndex
    · rw [if_pos hrange]
    · rw [if_neg hrange]
      rw [not_or, not_lt, gt_iff_lt, not_lt, waiting_queueIndex, waiting_queueIndex] at hrange
      have hconsecutive : ¬ TimestampMapper.IsConsecutive ((first :: rest).map (waiting gone)) (waiting gone first)
          (waiting gone back) := by
        intro hconsecutive
        -- Every index in the range belongs to a message.
        obtain ⟨hboot, hlength⟩ := id hconsecutive
        simp only [waiting_queueIndex, length_map] at hboot hlength
        obtain ⟨hge, hle⟩ := hrange
        rw [← not_lt, lt_iff] at hge hle
        have hi : index.index - first.queueIndex.index < (first :: rest).length := by omega
        have heq := h.queueIndex_eq (by simp) hback hconsecutive _ _ (getElem?_eq_getElem hi)
        apply hindex _ (getElem_mem hi)
        rw [heq]
        apply BootQueueIndex.ext
        · show first.queueIndex.boot = index.boot
          omega
        · show first.queueIndex.index + (index.index - first.queueIndex.index) = index.index
          omega
      have hdrop : ((first :: rest).map (waiting gone)).dropWhile
          (fun m => ¬ (m.queueIndex = index ∧ m.timestamp.boot = time.boot)) = [] := by
        rw [dropWhile_eq_nil_iff]
        intro e he
        obtain ⟨x, hx, rfl⟩ := mem_map.mp he
        simp [hindex x hx]
      rw [if_neg hconsecutive, hdrop]

/-! ### What each node matches -/

variable {n : Nat}

def Message.remoteIndex (m : Message) : BootQueueIndex := ⟨m.monotonicRemoteBoot, m.data.remoteQueueIndex.getD 0⟩

/-- The message is a timestamp on `node`. -/
def MapperConfig.IsTimestamp (cfg : MapperConfig n) (node : Fin n) (m : Message) : Prop :=
  cfg.sourceNode m.channelIndex ≠ node

instance (cfg : MapperConfig n) (node : Fin n) (m : Message) : Decidable (cfg.IsTimestamp node m) :=
  inferInstanceAs (Decidable (_ ≠ _))

/-- The data of the channel is kept for the timestamps on `dest`. -/
def MapperConfig.Saved (cfg : MapperConfig n) (node dest : Fin n) (channel : Nat) : Prop :=
  cfg.saveForPeer node dest = true ∧ cfg.delivered node dest channel = true

instance (cfg : MapperConfig n) (node dest : Fin n) (channel : Nat) : Decidable (cfg.Saved node dest channel) :=
  inferInstanceAs (Decidable (_ ∧ _))

/-- Logs of which the mappers can make sense. -/
structure Consistent (cfg : MapperConfig n) (streams : Fin n → List Message) : Prop where
  sorted : ∀ node, (streams node).Pairwise fun a b => a.timestamp ≤ b.timestamp
  reliable : ∀ node dest channel, cfg.delivered node dest channel = true → cfg.timeToLive channel dest = 0
  unique : ∀ node, (streams node).Pairwise fun a b =>
    cfg.IsTimestamp node a → a.channelIndex = b.channelIndex → a.remoteIndex ≠ b.remoteIndex
  remote : ∀ node, ∀ m ∈ streams node, cfg.IsTimestamp node m →
    m.data.remoteQueueIndex.isSome = true ∧ m.data.monotonicRemoteTime.isSome = true ∧
      m.data.realtimeRemoteTime.isSome = true ∧ m.data.channelIndex = m.channelIndex
  increasing : ∀ node, (streams node).Pairwise fun a b =>
    cfg.sourceNode a.channelIndex = node → a.channelIndex = b.channelIndex → a.queueIndex < b.queueIndex
  agrees : ∀ node, ∀ m ∈ streams node, cfg.IsTimestamp node m →
    ∀ d ∈ streams (cfg.sourceNode m.channelIndex), d.channelIndex = m.channelIndex → d.queueIndex = m.remoteIndex →
      m.data.monotonicRemoteTime = some d.timestamp.time ∧ m.monotonicRemoteBoot = d.timestamp.boot ∧
        m.data.realtimeRemoteTime = some d.data.realtimeSentTime

structure Progress where
  emitted : List TimestampedMessage := []
  kept : Nat → Option BootQueueIndex := fun _ => none

/-- The data is on `channel`, and was not erased when the data with the index `kept` was found. -/
def IsPending (channel : Nat) (kept : Option BootQueueIndex) (d : Message) : Prop :=
  d.channelIndex = channel ∧ ∀ k ∈ kept, k ≤ d.queueIndex

instance (channel : Nat) (kept : Option BootQueueIndex) (d : Message) : Decidable (IsPending channel kept d) :=
  inferInstanceAs (Decidable (_ ∧ ∀ k ∈ kept, k ≤ d.queueIndex))

namespace Progress

variable (cfg : MapperConfig n) (streams : Fin n → List Message) (node : Fin n)

/-- The data for a timestamp. -/
def lookup (p : Progress) (m : Message) : Option Message :=
  if cfg.Saved (cfg.sourceNode m.channelIndex) node m.channelIndex then
    (streams (cfg.sourceNode m.channelIndex)).find? fun d => IsPending m.channelIndex
    (p.kept m.channelIndex) d ∧ d.queueIndex = m.remoteIndex
  else none

def next (p : Progress) (m : Message) : Progress :=
  if ¬ cfg.multiNode ∨ cfg.sourceNode m.channelIndex = node then { p with emitted := p.emitted ++ [.ofLocal m] }
  else match p.lookup cfg streams node m with
    | none => { p with emitted := p.emitted ++ [.ofTimestamp m none] }
    | some d => {
        emitted := p.emitted ++ [.ofTimestamp m (some d.data)]
        kept := update p.kept m.channelIndex (some d.queueIndex) }

def after (done : List Message) : Progress := done.foldl (next cfg streams node) {}

theorem after_append (done : List Message) (m : Message) :
    after cfg streams node (done ++ [m]) = (after cfg streams node done).next cfg streams node m := by
  rw [after, foldl_append]
  rfl

theorem length_emitted (done : List Message) : (after cfg streams node done).emitted.length = done.length := by
  induction done using reverseRecOn with
  | nil => rfl
  | append_singleton done m ih =>
    rw [after_append, next, length_append, ← ih]
    split
    · simp
    · split <;> simp

theorem exists_emitted_append (done rest : List Message) : ∃ later, (after cfg streams node (done ++ rest)).emitted =
      (after cfg streams node done).emitted ++ later := by
  induction rest using reverseRecOn with
  | nil => exact ⟨[], by simp⟩
  | append_singleton rest m ih =>
    obtain ⟨later, hlater⟩ := ih
    rw [← append_assoc, after_append, next]
    split
    · exact ⟨later ++ [.ofLocal m], by rw [hlater, append_assoc]⟩
    · split
      · exact ⟨later ++ [.ofTimestamp m none], by rw [hlater, append_assoc]⟩
      · next d _ => exact ⟨later ++ [.ofTimestamp m (some d.data)], by rw [hlater, append_assoc]⟩

end Progress

namespace Progress

variable {cfg : MapperConfig n} {streams : Fin n → List Message} {node : Fin n} {p : Progress} {m d : Message}

theorem next_local (h : cfg.multiNode = false ∨ cfg.sourceNode m.channelIndex = node) :
    p.next cfg streams node m = { p with emitted := p.emitted ++ [.ofLocal m] } := by
  rw [next, if_pos (by simpa using h)]

theorem next_timestamp (hmulti : cfg.multiNode = true) (h : cfg.IsTimestamp node m) :
    p.next cfg streams node m = {
      emitted := p.emitted ++ [.ofTimestamp m ((p.lookup cfg streams node m).map Message.data)]
      kept := match p.lookup cfg streams node m with
        | none => p.kept
        | some d => update p.kept m.channelIndex (some d.queueIndex) } := by
  rw [next, if_neg (not_or.mpr ⟨by simp [hmulti], h⟩)]
  cases p.lookup cfg streams node m <;> rfl

theorem lookup_some (h : p.lookup cfg streams node m = some d) :
    d.queueIndex = m.remoteIndex ∧ d ∈ streams (cfg.sourceNode m.channelIndex) ∧
      IsPending m.channelIndex (p.kept m.channelIndex) d := by
  rw [lookup] at h
  split at h
  · have hfound := find?_some h
    rw [decide_eq_true_eq] at hfound
    exact ⟨hfound.2, mem_of_find?_eq_some h, hfound.1⟩
  · cases h

theorem exists_of_kept {done : List Message} {channel : Nat} {k : BootQueueIndex}
    (h : (after cfg streams node done).kept channel = some k) :
    ∃ a ∈ done, cfg.IsTimestamp node a ∧ a.channelIndex = channel ∧ a.remoteIndex = k := by
  induction done using reverseRecOn with
  | nil => cases h
  | append_singleton done m ih =>
    have hearlier : (after cfg streams node done).kept channel = some k →
        ∃ a ∈ done ++ [m], cfg.IsTimestamp node a ∧ a.channelIndex = channel ∧ a.remoteIndex = k := by
      intro hkept
      obtain ⟨a, ha, hdata⟩ := ih hkept
      exact ⟨a, mem_append_left _ ha, hdata⟩
    rw [after_append] at h
    by_cases hlocal : cfg.multiNode = false ∨ cfg.sourceNode m.channelIndex = node
    · rw [next_local hlocal] at h
      exact hearlier h
    · obtain ⟨hmulti, htimestamp⟩ := not_or.mp hlocal
      rw [next_timestamp (by simpa using hmulti) htimestamp] at h
      cases hlookup : (after cfg streams node done).lookup cfg streams node m with
      | none =>
        rw [hlookup] at h
        exact hearlier h
      | some d =>
        rw [hlookup] at h
        by_cases hchannel : channel = m.channelIndex
        · subst hchannel
          simp only [update_self, Option.some.injEq] at h
          exact ⟨m, by simp, htimestamp, rfl, h ▸ (lookup_some hlookup).1.symm⟩
        · simp only [update_of_ne hchannel] at h
          exact hearlier h

end Progress

open Progress

def matchedStream (cfg : MapperConfig n) (streams : Fin n → List Message) (node : Fin n) : List TimestampedMessage :=
  (after cfg streams node (streams node)).emitted

/-! ### The queues of waiting data -/

structure QueuesHold (cfg : MapperConfig n) (kept : Fin n → Nat → Option BootQueueIndex) (read : Fin n → List Message)
    (queues : Fin n → Fin n → Nat → List QueuedMessage) : Prop where
  saved : ∀ node dest channel, cfg.Saved node dest channel → ∃ gone, (gone = none ∨ gone = kept dest channel) ∧
    queues node dest channel = ((read node).filter (IsPending channel (kept dest channel))).map (waiting gone)
  unsaved : ∀ node dest channel, ¬ cfg.Saved node dest channel → queues node dest channel = []
  kept_read : ∀ node dest channel, cfg.Saved node dest channel → ∀ k ∈ kept dest channel,
    ∃ d ∈ read node, d.channelIndex = channel ∧ d.queueIndex = k

theorem MapperConfig.Saved.sourceNode_eq {cfg : MapperConfig n} {node dest : Fin n} {channel : Nat}
    (h : cfg.Saved node dest channel) : cfg.sourceNode channel = node := by
  have := h.2
  simp only [delivered, Bool.and_eq_true, decide_eq_true_eq] at this
  exact this.1.2

section

variable {cfg : MapperConfig n} {kept kept' : Fin n → Nat → Option BootQueueIndex}
  {read read' : Fin n → List Message} {queues queues' : Fin n → Fin n → Nat → List QueuedMessage} {node dest : Fin n}
  {channel : Nat} {m d : Message}

theorem QueuesHold.read_message (node : Fin n) (m : Message) (h : QueuesHold cfg kept read queues)
    (hm : ∀ d ∈ read node, cfg.sourceNode d.channelIndex = node → d.channelIndex = m.channelIndex →
      d.queueIndex < m.queueIndex)
    (hread : read' node = read node ++ [m]) (hothers : ∀ node', node' ≠ node → read' node' = read node')
    (hnew : ∀ dest, cfg.Saved node dest m.channelIndex →
      queues' node dest m.channelIndex = queues node dest m.channelIndex ++ [ofMessage m])
    (hsame : ∀ node' dest channel, ¬ (node' = node ∧ channel = m.channelIndex ∧ cfg.Saved node' dest channel) →
      queues' node' dest channel = queues node' dest channel) : QueuesHold cfg kept read' queues' := by
  constructor
  · intro node' dest channel hsaved
    obtain ⟨gone, hgone, hqueue⟩ := h.saved node' dest channel hsaved
    refine ⟨gone, hgone, ?_⟩
    by_cases hnode : node' = node
    · subst hnode
      rw [hread, filter_append, map_append, ← hqueue]
      by_cases hchannel : channel = m.channelIndex
      · subst hchannel
        -- What was found last was read before this message.
        have hlt : ∀ k ∈ kept dest m.channelIndex, k < m.queueIndex := by
          intro k hk
          obtain ⟨d, hd, hdchannel, rfl⟩ := h.kept_read node' dest m.channelIndex hsaved k hk
          exact hm d hd (hdchannel ▸ hsaved.sourceNode_eq) hdchannel
        have hpending : IsPending m.channelIndex (kept dest m.channelIndex) m := ⟨rfl, fun k hk => (hlt k hk).le⟩
        have hne : gone ≠ some m.queueIndex := by
          intro heq
          obtain hnone | hkept := hgone
          · rw [hnone] at heq; cases heq
          · exact (hlt m.queueIndex (hkept ▸ heq)).ne rfl
        rw [hnew dest hsaved, filter_cons_of_pos (by simpa using hpending), filter_nil, map_cons,
          map_nil, waiting_of_ne hne]
      · rw [hsame node' dest channel (by simp [hchannel])]
        have hnot : ¬ IsPending channel (kept dest channel) m := fun hpending => hchannel hpending.1.symm
        rw [filter_cons_of_neg (by simpa using hnot), filter_nil, map_nil, append_nil]
    · rw [hsame node' dest channel (by simp [hnode]), hothers node' hnode, hqueue]
  · intro node' dest channel hsaved
    rw [hsame node' dest channel (by simp [hsaved])]
    exact h.unsaved node' dest channel hsaved
  · intro node' dest channel hsaved k hk
    obtain ⟨d, hd, hdata⟩ := h.kept_read node' dest channel hsaved k hk
    by_cases hnode : node' = node
    · subst hnode
      rw [hread]
      exact ⟨d, mem_append_left _ hd, hdata⟩
    · rw [hothers node' hnode]
      exact ⟨d, hd, hdata⟩

theorem filter_isPending {ds pre post : List Message} {kept : Option BootQueueIndex}
    (hds : ds.filter (IsPending channel kept) = pre ++ d :: post) (hincreasing : Increasing (pre ++ d :: post)) :
    ds.filter (IsPending channel (some d.queueIndex)) = d :: post := by
  have hd : d ∈ ds.filter (IsPending channel kept) := by simp [hds]
  have hpending : IsPending channel kept d := by simpa using (mem_filter.mp hd).2
  have hfilter : ds.filter (IsPending channel (some d.queueIndex)) =
      (ds.filter (IsPending channel kept)).filter (fun x => d.queueIndex ≤ x.queueIndex) := by
    rw [filter_filter]
    apply filter_congr
    intro x _
    rw [← Bool.decide_and, decide_eq_decide]
    constructor
    · intro hx
      exact ⟨hx.2 _ rfl, hx.1, fun k hk => (hpending.2 k hk).trans (hx.2 _ rfl)⟩
    · intro ⟨hle, hchannel, _⟩
      refine ⟨hchannel, ?_⟩
      intro k hk
      obtain rfl : d.queueIndex = k := by simpa using hk
      exact hle
  obtain ⟨-, htail, hcross⟩ := pairwise_append.mp hincreasing
  have hpre : pre.filter (fun x => d.queueIndex ≤ x.queueIndex) = [] := by
    rw [filter_eq_nil_iff]
    intro x hx
    simpa using hcross x hx d mem_cons_self
  have hpost : (d :: post).filter (fun x => d.queueIndex ≤ x.queueIndex) = d :: post := by
    rw [filter_eq_self]
    intro x hx
    obtain heq | hmem := mem_cons.mp hx
    · simp [heq]
    · simpa using ((pairwise_cons.mp htail).1 x hmem).le
  rw [hfilter, hds, filter_append, hpre, hpost, nil_append]

theorem QueuesHold.found {pre post : List Message} {gone : Option BootQueueIndex}
    (h : QueuesHold cfg kept read queues) (hsaved : cfg.Saved node dest channel)
    (hds : (read node).filter (IsPending channel (kept dest channel)) = pre ++ d :: post)
    (hincreasing : Increasing (pre ++ d :: post)) (hgone : gone = none ∨ gone = some d.queueIndex)
    (hkept : kept' dest channel = some d.queueIndex)
    (hkepts : ∀ dest' channel', ¬ (dest' = dest ∧ channel' = channel) → kept' dest' channel' = kept dest' channel')
    (hnew : queues' node dest channel = (d :: post).map (waiting gone))
    (hsame : ∀ node' dest' channel', ¬ (node' = node ∧ dest' = dest ∧ channel' = channel) →
      queues' node' dest' channel' = queues node' dest' channel') : QueuesHold cfg kept' read queues' := by
  -- Only this node saves data of the channel.
  have hother : ∀ node' dest' channel', cfg.Saved node' dest' channel' →
      ¬ (node' = node ∧ dest' = dest ∧ channel' = channel) → kept' dest' channel' = kept dest' channel' := by
    intro node' dest' channel' hsaved' hne
    apply hkepts
    intro ⟨hdest, hchannel⟩
    subst hdest hchannel
    exact hne ⟨hsaved'.sourceNode_eq.symm.trans hsaved.sourceNode_eq, rfl, rfl⟩
  have hd : d ∈ (read node).filter (IsPending channel (kept dest channel)) := by simp [hds]
  constructor
  · intro node' dest' channel' hsaved'
    by_cases hthis : node' = node ∧ dest' = dest ∧ channel' = channel
    · obtain ⟨rfl, rfl, rfl⟩ := hthis
      rw [hkept, filter_isPending hds hincreasing]
      exact ⟨gone, hgone, hnew⟩
    · rw [hother node' dest' channel' hsaved' hthis, hsame node' dest' channel' hthis]
      exact h.saved node' dest' channel' hsaved'
  · intro node' dest' channel' hunsaved
    have hthis : ¬ (node' = node ∧ dest' = dest ∧ channel' = channel) := by
      intro ⟨hnode, hdest, hchannel⟩
      rw [hnode, hdest, hchannel] at hunsaved
      exact hunsaved hsaved
    rw [hsame node' dest' channel' hthis]
    exact h.unsaved node' dest' channel' hunsaved
  · intro node' dest' channel' hsaved' k hk
    by_cases hthis : node' = node ∧ dest' = dest ∧ channel' = channel
    · obtain ⟨rfl, rfl, rfl⟩ := hthis
      rw [hkept] at hk
      obtain rfl : d.queueIndex = k := by simpa using hk
      obtain ⟨hread, hpending⟩ := mem_filter.mp hd
      exact ⟨d, hread, (of_decide_eq_true hpending).1, rfl⟩
    · rw [hother node' dest' channel' hsaved' hthis] at hk
      exact h.kept_read node' dest' channel' hsaved' k hk

end

/-! ### The mappers -/

/-- A mapper has matched the messages `done` of its node, and `pops` of them were popped. -/
structure NodeHolds (cfg : MapperConfig n) (streams : Fin n → List Message) (node : Fin n) (pops : Nat)
    (first : FirstMessage) (done : List Message) (t : TimestampMapper n) : Prop where
  stream_eq : streams node = done ++ (t.messages ++ t.bootMerger)
  matched_eq : t.matchedMessages = (after cfg streams node done).emitted.drop pops
  pops_le : pops ≤ (after cfg streams node done).emitted.length
  first_eq : t.firstMessage = first
  inMessage : first = .inMessage → t.matchedMessages ≠ []
  nullptr : first = .nullptr → t.matchedMessages = [] ∧ done = streams node
  last : t.lastMessageTime = .minTime ∨ ∃ m ∈ done, t.lastMessageTime = m.timestamp
  queued : t.queuedUntil = .minTime ∨ t.bootMerger = [] ∨ ∃ m ∈ done ++ t.messages, t.queuedUntil = m.timestamp
  single : cfg.multiNode = false → t.messages = []

structure Holds (cfg : MapperConfig n) (streams : Fin n → List Message) (pops : Fin n → Nat)
    (first : Fin n → FirstMessage) (done : Fin n → List Message) (s : Mappers n) : Prop where
  nodes : ∀ node, NodeHolds cfg streams node (pops node) (first node) (done node) (s node)
  queues : QueuesHold cfg (fun node => (after cfg streams node (done node)).kept)
    (fun node => done node ++ (s node).messages) (fun node => (s node).nodesData)

section

variable {cfg : MapperConfig n} {streams : Fin n → List Message} {pops : Fin n → Nat} {first : Fin n → FirstMessage}
  {done : Fin n → List Message} {s : Mappers n} {node : Fin n}

theorem Message.minTime_le (m : Message) : BootTimestamp.minTime ≤ m.timestamp := by
  rw [BootTimestamp.le_iff]
  by_cases hboot : m.timestamp.boot = 0
  · right
    exact ⟨hboot.symm, m.isTime.1⟩
  · left
    exact Nat.pos_of_ne_zero hboot

variable {t : TimestampMapper n} {m : Message}

theorem nodesData_update (h : t.nodesData = (s node).nodesData) :
    (fun node' => (update s node t node').nodesData) = fun node' => (s node').nodesData := by
  funext node'
  by_cases heq : node' = node
  · subst heq
    rw [update_self, h]
  · rw [update_of_ne heq]

theorem read_update {done' : List Message} (h : done' ++ t.messages = done node ++ (s node).messages) :
    (fun node' => update done node done' node' ++ (update s node t node').messages) =
      fun node' => done node' ++ (s node').messages := by
  funext node'
  by_cases heq : node' = node
  · subst heq
    rw [update_self, update_self, h]
  · rw [update_of_ne heq, update_of_ne heq]

theorem Holds.updated (h : Holds cfg streams pops first done s) {pops' : Nat}
    {first' : FirstMessage} (hnode : NodeHolds cfg streams node pops' first' (done node) t)
    (hmessages : t.messages = (s node).messages) (hdata : t.nodesData = (s node).nodesData) :
    Holds cfg streams (update pops node pops') (update first node first') done
      (update s node t) := by
  constructor
  · intro node'
    by_cases heq : node' = node
    · subst heq
      simpa only [update_self] using hnode
    · simpa only [update_of_ne heq] using h.nodes node'
  · have hread : (fun node' => update done node (done node) node' ++ (update s node t node').messages) =
        fun node' => done node' ++ (s node').messages := read_update (by rw [hmessages])
    rw [update_eq_self] at hread
    rw [nodesData_update hdata, hread]
    exact h.queues

/-- What `Queue` does when all channels are reliable. -/
structure Queued (cfg : MapperConfig n) (node : Fin n) (t t' : TimestampMapper n) (m : Message) : Prop where
  bootMerger : t.bootMerger = m :: t'.bootMerger
  messages : t'.messages = t.messages ++ [m]
  saved : ∀ dest, cfg.Saved node dest m.channelIndex →
    t'.nodesData dest m.channelIndex = t.nodesData dest m.channelIndex ++ [ofMessage m]
  same : ∀ dest channel, ¬ (channel = m.channelIndex ∧ cfg.Saved node dest channel) →
    t'.nodesData dest channel = t.nodesData dest channel
  matchedMessages : t'.matchedMessages = t.matchedMessages
  firstMessage : t'.firstMessage = t.firstMessage
  lastMessageTime : t'.lastMessageTime = t.lastMessageTime
  queuedUntil : t'.queuedUntil = t.queuedUntil

theorem Consistent.queue (hc : Consistent cfg streams) {t' : TimestampMapper n} (h : t.queue cfg node = some t') :
    ∃ m, Queued cfg node t t' m := by
  rw [TimestampMapper.queue] at h
  split at h
  · cases h
  · next m rest hmerger =>
    cases h
    refine ⟨m, hmerger, rfl, ?_, ?_, rfl, rfl, rfl, rfl⟩
    · intro dest hsaved
      have hreliable := hc.reliable node dest m.channelIndex hsaved.2
      simp [hsaved.1, hsaved.2, hreliable]
    · intro dest channel hnot
      exact if_neg hnot

theorem NodeHolds.queue {t' : TimestampMapper n} {pops : Nat} {first : FirstMessage} {done : List Message}
    (hmulti : cfg.multiNode = true) (h : NodeHolds cfg streams node pops first done t)
    (hqueue : Queued cfg node t t' m) : NodeHolds cfg streams node pops first done t' where
  stream_eq := by
    rw [h.stream_eq, hqueue.bootMerger, hqueue.messages]
    simp
  matched_eq := by rw [hqueue.matchedMessages, h.matched_eq]
  pops_le := h.pops_le
  first_eq := by rw [hqueue.firstMessage, h.first_eq]
  inMessage := by
    rw [hqueue.matchedMessages]
    exact h.inMessage
  nullptr := by
    rw [hqueue.matchedMessages]
    exact h.nullptr
  last := by
    rw [hqueue.lastMessageTime]
    exact h.last
  queued := by
    rw [hqueue.queuedUntil, hqueue.messages, ← append_assoc]
    obtain hmin | hempty | ⟨a, ha, hqueued⟩ := h.queued
    · exact .inl hmin
    · have hmerger := hqueue.bootMerger
      rw [hempty] at hmerger
      cases hmerger
    · exact .inr (.inr ⟨a, mem_append_left _ ha, hqueued⟩)
  single := by simp [hmulti]

theorem Holds.queue (hc : Consistent cfg streams) (hmulti : cfg.multiNode = true)
    (h : Holds cfg streams pops first done s) (hqueue : (s node).queue cfg node = some t) :
    Holds cfg streams pops first done (update s node t) := by
  obtain ⟨m, hqueued⟩ := hc.queue hqueue
  have hstream := (h.nodes node).stream_eq
  rw [hqueued.bootMerger, ← append_assoc] at hstream
  constructor
  · intro node'
    by_cases heq : node' = node
    · subst heq
      rw [update_self]
      exact (h.nodes node').queue hmulti hqueued
    · rw [update_of_ne heq]
      exact h.nodes node'
  · apply h.queues.read_message node m
    · intro d hd hsource hchannel
      have hincreasing := hc.increasing node
      rw [hstream] at hincreasing
      exact (pairwise_append.mp hincreasing).2.2 d hd m mem_cons_self hsource hchannel
    · rw [update_self, hqueued.messages, append_assoc]
    · intro node' hne
      rw [update_of_ne hne]
    · rw [update_self]
      exact hqueued.saved
    · intro node' dest channel hnot
      by_cases heq : node' = node
      · subst heq
        rw [update_self]
        apply hqueued.same
        intro hsaved
        exact hnot ⟨rfl, hsaved⟩
      · rw [update_of_ne heq]

theorem Holds.setQueuedUntil (h : Holds cfg streams pops first done s) {time : BootTimestamp}
    (hqueued : (s node).bootMerger = [] ∨ time = (s node).queuedUntil ∨
      ∃ m ∈ done node ++ (s node).messages, time = m.timestamp) :
    Holds cfg streams pops first done (update s node { s node with queuedUntil := time }) := by
  have hnode : NodeHolds cfg streams node (pops node) (first node) (done node)
      { s node with queuedUntil := time } := by
    refine { h.nodes node with queued := ?_ }
    obtain hempty | hsame | hread := hqueued
    · exact .inr (.inl hempty)
    · rw [hsame]
      exact (h.nodes node).queued
    · exact .inr (.inr hread)
  have hupdate := h.updated hnode rfl rfl
  rwa [update_eq_self, update_eq_self] at hupdate

section

variable (hc : Consistent cfg streams) (hmulti : cfg.multiNode = true) (h : Holds cfg streams pops first done s)

include hc hmulti h

theorem Holds.queuePast (time : BootTimestamp) :
    Holds cfg streams pops first done (update s node ((s node).queuePast cfg node time)) ∧
      ∀ m ∈ ((s node).queuePast cfg node time).bootMerger, time < m.timestamp := by
  induction hlength : (s node).bootMerger.length generalizing s with
  | zero =>
    have hempty : (s node).bootMerger = [] := length_eq_zero_iff.mp hlength
    have hnone : (s node).queue cfg node = none := by rw [TimestampMapper.queue, hempty]
    rw [TimestampMapper.queuePast]
    split
    · exact ⟨h.setQueuedUntil (.inl hempty), by simp [hempty]⟩
    · split
      · exact ⟨h.setQueuedUntil (.inl hempty), by simp [hempty]⟩
      · next heq => exact absurd (heq.symm.trans hnone) (by simp)
  | succ k ih =>
    rw [queuePast]
    split
    · next last hlast =>
      obtain ⟨hlast, htime⟩ := Option.filter_eq_some_iff.mp hlast
      have hmem : last ∈ (s node).messages := mem_of_getLast? hlast
      refine ⟨h.setQueuedUntil (.inr ?_), ?_⟩
      · obtain hle | hle := le_total (s node).queuedUntil last.timestamp
        · exact .inr ⟨last, mem_append_right _ hmem, max_eq_right hle⟩
        · exact .inl (max_eq_left hle)
      · intro m hm
        have hsorted := hc.sorted node
        rw [(h.nodes node).stream_eq] at hsorted
        have hle := (pairwise_append.mp (pairwise_append.mp hsorted).2.1).2.2 last hmem m hm
        exact (of_decide_eq_true htime).trans_le hle
    · split
      · next hqueue =>
        rw [bootMerger_of_queue_none hqueue] at hlength
        cases hlength
      · next t hqueue =>
        obtain ⟨m, hqueued⟩ := hc.queue hqueue
        have hlength' : (update s node t node).bootMerger.length = k := by
          rw [hqueued.bootMerger, length_cons] at hlength
          rw [update_self]
          omega
        have hpast := ih (h.queue hc hmulti hqueue) hlength'
        rw [update_self, update_idem] at hpast
        exact hpast

theorem Holds.queueUnmatchedUntil (node : Fin n) (time : BootTimestamp) :
    Holds cfg streams pops first done (update s node ((s node).queueUnmatchedUntil cfg node time)) ∧
      ∀ m ∈ ((s node).queueUnmatchedUntil cfg node time).bootMerger, time < m.timestamp := by
  rw [TimestampMapper.queueUnmatchedUntil]
  split
  · next hpast =>
    rw [update_eq_self]
    refine ⟨h, ?_⟩
    intro m hm
    obtain hmin | hempty | ⟨a, ha, hqueued⟩ := (h.nodes node).queued
    · rw [hmin] at hpast
      exact hpast.trans_le m.minTime_le
    · simp [hempty] at hm
    · have hsorted := hc.sorted node
      rw [(h.nodes node).stream_eq, ← append_assoc] at hsorted
      rw [hqueued] at hpast
      exact hpast.trans_le ((pairwise_append.mp hsorted).2.2 a ha m hm)
  · exact h.queuePast hc hmulti time

end

theorem Consistent.increasing_filter (hc : Consistent cfg streams) {channel : Nat} {ds : List Message}
    (kept : Option BootQueueIndex) (hsource : cfg.sourceNode channel = node) (hds : ds.Sublist (streams node)) :
    Increasing (ds.filter (IsPending channel kept)) := by
  have hincreasing := ((hc.increasing node).sublist hds).filter (IsPending channel kept)
  apply List.Pairwise.imp_of_mem _ hincreasing
  intro a b ha hb hlt
  have hchannel : ∀ x ∈ ds.filter (IsPending channel kept), x.channelIndex = channel := by
    intro x hx
    have hpending : IsPending channel kept x := by simpa using (mem_filter.mp hx).2
    exact hpending.1
  rw [hchannel a ha, hchannel b hb] at hlt
  exact hlt hsource rfl

open Progress

theorem Consistent.lookup_eq (hc : Consistent cfg streams) {p : Progress} {d : Message}
    (hsaved : cfg.Saved (cfg.sourceNode m.channelIndex) node m.channelIndex)
    (hd : d ∈ streams (cfg.sourceNode m.channelIndex))
    (hpending : IsPending m.channelIndex (p.kept m.channelIndex) d) (hindex : d.queueIndex = m.remoteIndex) :
    p.lookup cfg streams node m = some d := by
  have hsome : (p.lookup cfg streams node m).isSome = true := by
    rw [Progress.lookup, if_pos hsaved, find?_isSome]
    exact ⟨d, hd, by simpa using ⟨hpending, hindex⟩⟩
  obtain ⟨d', hlookup⟩ := Option.isSome_iff_exists.mp hsome
  obtain ⟨hindex', hd', hpending'⟩ := lookup_some hlookup
  have hincreasing := hc.increasing_filter (p.kept m.channelIndex) rfl
    (List.Sublist.refl (streams (cfg.sourceNode m.channelIndex)))
  have heq : d' = d := KeyedSet.Ordered.eq_of_key_eq hincreasing (mem_filter.mpr ⟨hd', by simpa using hpending'⟩)
    (mem_filter.mpr ⟨hd, by simpa using hpending⟩) (hindex'.trans hindex.symm)
  rw [hlookup, heq]

/-- With `queue` as the data of the sending node for `node` on the channel of `m`, the queues hold after `m` was
matched. -/
def Leaves (cfg : MapperConfig n) (streams : Fin n → List Message) (done : Fin n → List Message) (s : Mappers n)
    (node : Fin n) (m : Message) (queue : List QueuedMessage) : Prop :=
  ∀ kept' queues', kept' node = (after cfg streams node (done node ++ [m])).kept →
    (∀ node', node' ≠ node → kept' node' = (after cfg streams node' (done node')).kept) →
    queues' (cfg.sourceNode m.channelIndex) node m.channelIndex = queue →
    (∀ node' dest channel, ¬ (node' = cfg.sourceNode m.channelIndex ∧ dest = node ∧ channel = m.channelIndex) →
      queues' node' dest channel = (s node').nodesData dest channel) →
    QueuesHold cfg kept' (fun node' => done node' ++ (s node').messages) queues'

section

variable {m : Message}

section

variable (hmulti : cfg.multiNode = true) (h : Holds cfg streams pops first done s) (htimestamp : cfg.IsTimestamp node m)

include hmulti h htimestamp

theorem Holds.leaves_of_lookup_none (hlookup : (after cfg streams node (done node)).lookup cfg streams node m = none) :
    Leaves cfg streams done s node m ((s (cfg.sourceNode m.channelIndex)).nodesData node m.channelIndex) := by
  intro kept' queues' hkept hothers hqueue hsame
  have hkept' : kept' = fun node' => (after cfg streams node' (done node')).kept := by
    funext node'
    by_cases heq : node' = node
    · rw [heq, hkept, after_append, next_timestamp hmulti htimestamp, hlookup]
    · exact hothers node' heq
  have hqueues' : queues' = fun node' => (s node').nodesData := by
    funext node' dest channel
    by_cases hthis : node' = cfg.sourceNode m.channelIndex ∧ dest = node ∧ channel = m.channelIndex
    · obtain ⟨rfl, rfl, rfl⟩ := hthis
      exact hqueue
    · exact hsame node' dest channel hthis
  rw [hkept', hqueues']
  exact h.queues

theorem Holds.leaves_of_lookup_some {d : Message} {pre post : List Message} {gone : Option BootQueueIndex}
    (hlookup : (after cfg streams node (done node)).lookup cfg streams node m = some d)
    (hsaved : cfg.Saved (cfg.sourceNode m.channelIndex) node m.channelIndex)
    (hds : (done (cfg.sourceNode m.channelIndex) ++ (s (cfg.sourceNode m.channelIndex)).messages).filter
      (IsPending m.channelIndex ((after cfg streams node (done node)).kept m.channelIndex)) = pre ++ d :: post)
    (hincreasing : Increasing (pre ++ d :: post)) (hgone : gone = none ∨ gone = some d.queueIndex) :
    Leaves cfg streams done s node m ((d :: post).map (waiting gone)) := by
  intro kept' queues' hkept hothers hqueue hsame
  rw [after_append, next_timestamp hmulti htimestamp, hlookup] at hkept
  apply h.queues.found hsaved hds hincreasing hgone _ _ hqueue hsame
  · rw [hkept]
    exact update_self ..
  · intro dest channel hne
    by_cases hdest : dest = node
    · subst hdest
      rw [hkept]
      exact update_of_ne (fun heq => hne ⟨rfl, heq⟩) ..
    · rw [hothers dest hdest]

end

/-- The queue of waiting data answers as the lookup in the whole log does, once everything up to the time of
the timestamp was read. -/
theorem Holds.findData (hc : Consistent cfg streams) (hmulti : cfg.multiNode = true)
    (h : Holds cfg streams pops first done s) {later : List Message} {remoteTime realtimeRemoteTime : Int}
    (hstream : streams node = done node ++ m :: later) (htimestamp : cfg.IsTimestamp node m)
    (htime : m.data.monotonicRemoteTime = some remoteTime)
    (hrealtime : m.data.realtimeRemoteTime = some realtimeRemoteTime)
    (hread : ∀ d ∈ (s (cfg.sourceNode m.channelIndex)).bootMerger, ⟨m.monotonicRemoteBoot, remoteTime⟩ < d.timestamp) :
    ∃ queue, findData ((s (cfg.sourceNode m.channelIndex)).nodesData node m.channelIndex)
        m.remoteIndex ⟨m.monotonicRemoteBoot, remoteTime⟩ realtimeRemoteTime =
          .ok (((after cfg streams node (done node)).lookup cfg streams node m).map Message.data, queue) ∧
      Leaves cfg streams done s node m queue := by
  have hm : m ∈ streams node := by simp [hstream]
  by_cases hsaved : cfg.Saved (cfg.sourceNode m.channelIndex) node m.channelIndex
  · obtain ⟨gone, hgone, hqueue⟩ := h.queues.saved _ _ _ hsaved
    have hsource := (h.nodes (cfg.sourceNode m.channelIndex)).stream_eq
    rw [← append_assoc] at hsource
    have hincreasing := hc.increasing_filter
      ((after cfg streams node (done node)).kept m.channelIndex) rfl
      (hsource ▸ sublist_append_left _ _)
    cases hlookup : (after cfg streams node (done node)).lookup cfg streams node m with
    | some d =>
      obtain ⟨hindex, hd, hpending⟩ := lookup_some hlookup
      obtain ⟨htime', hboot, hrealtime'⟩ := hc.agrees node m hm htimestamp d hd hpending.1 hindex
      obtain rfl : remoteTime = d.timestamp.time := Option.some.inj (htime.symm.trans htime')
      obtain rfl : realtimeRemoteTime = d.data.realtimeSentTime := Option.some.inj (hrealtime.symm.trans hrealtime')
      have htimestamp' : (⟨m.monotonicRemoteBoot, d.timestamp.time⟩ : BootTimestamp) = d.timestamp := by rw [hboot]
      rw [htimestamp'] at hread ⊢
      -- The data is old enough to have been read.
      have hmem : d ∈ done (cfg.sourceNode m.channelIndex) ++ (s (cfg.sourceNode m.channelIndex)).messages := by
        rw [hsource, mem_append] at hd
        exact hd.resolve_right fun hunread => (hread d hunread).false
      have hfilter : d ∈ (done (cfg.sourceNode m.channelIndex) ++ (s (cfg.sourceNode m.channelIndex)).messages).filter
          (IsPending m.channelIndex ((after cfg streams node (done node)).kept m.channelIndex)) :=
        mem_filter.mpr ⟨hmem, decide_eq_true hpending⟩
      obtain ⟨pre, post, hds⟩ := append_of_mem hfilter
      rw [hds] at hincreasing hqueue
      have hgone' : ∀ x ∈ d :: post, gone ≠ some x.queueIndex := by
        intro x hx heq
        obtain hnone | hkept := hgone
        · exact absurd (hnone.symm.trans heq) (by simp)
        · have hkept := hkept.symm.trans heq
          obtain ⟨a, ha, htimestampa, hchannel, hremote⟩ := exists_of_kept hkept
          have hunique := hc.unique node
          rw [hstream] at hunique
          have hne := (pairwise_append.mp hunique).2.2 a ha m mem_cons_self htimestampa hchannel
          have hle := hpending.2 x.queueIndex hkept
          rw [hremote, ← hindex] at hne
          obtain hxd | hpost := mem_cons.mp hx
          · exact hne (hxd ▸ rfl)
          · have hlt := (pairwise_cons.mp (pairwise_append.mp hincreasing).2.1).1 x hpost
            exact (hlt.trans_le hle).false
      obtain ⟨gone', hgone'', hfind⟩ := findData_of_mem hincreasing hgone'
      rw [hqueue, ← hindex]
      exact ⟨_, hfind, h.leaves_of_lookup_some hmulti htimestamp hlookup hsaved hds hincreasing hgone''⟩
    | none =>
      refine ⟨_, ?_, h.leaves_of_lookup_none hmulti htimestamp hlookup⟩
      rw [hqueue]
      apply findData_of_not_mem hincreasing
      intro d hd hindex
      obtain ⟨hmem, hpending⟩ := mem_filter.mp hd
      have hd' : d ∈ streams (cfg.sourceNode m.channelIndex) := by
        rw [hsource]
        exact mem_append_left _ hmem
      rw [hc.lookup_eq hsaved hd' (of_decide_eq_true hpending) hindex] at hlookup
      cases hlookup
  · have hlookup : (after cfg streams node (done node)).lookup cfg streams node m = none := by
      rw [Progress.lookup, if_neg hsaved]
    have hleaves := h.leaves_of_lookup_none hmulti htimestamp hlookup
    rw [h.queues.unsaved _ _ _ hsaved] at hleaves ⊢
    rw [hlookup]
    exact ⟨[], rfl, hleaves⟩

variable {rest : List Message} {x : TimestampedMessage} {t : TimestampMapper n}

open Mappers

section

variable (hc : Consistent cfg streams)

include hc

theorem Holds.matchingMessageFor (hmulti : cfg.multiNode = true)
    (h : Holds cfg streams pops first done s) (hmessages : (s node).messages = m :: rest)
    (htimestamp : cfg.IsTimestamp node m) : ∃ s1, matchingMessageFor cfg node m s =
        .ok (((after cfg streams node (done node)).lookup cfg streams node m).map Message.data, s1) ∧
      s1 node = s node ∧ (∀ node', NodeHolds cfg streams node' (pops node') (first node') (done node') (s1 node')) ∧
      QueuesHold cfg
        (fun node' => (Progress.after cfg streams node' (update done node (done node ++ [m]) node')).kept)
        (fun node' => done node' ++ (s1 node').messages) (fun node' => (s1 node').nodesData) := by
  have hstream : streams node = done node ++ m :: (rest ++ (s node).bootMerger) := by
    rw [(h.nodes node).stream_eq, hmessages, cons_append]
  obtain ⟨hindex, htime, hrealtime, hchannel⟩ := hc.remote node m (by simp [hstream]) htimestamp
  obtain ⟨remoteIndex, hindex⟩ := Option.isSome_iff_exists.mp hindex
  obtain ⟨remoteTime, htime⟩ := Option.isSome_iff_exists.mp htime
  obtain ⟨realtimeRemoteTime, hrealtime⟩ := Option.isSome_iff_exists.mp hrealtime
  have hremote : m.remoteIndex = ⟨m.monotonicRemoteBoot, remoteIndex⟩ := by
    rw [Message.remoteIndex, hindex, Option.getD_some]
  have hne : node ≠ cfg.sourceNode m.channelIndex := fun heq => htimestamp heq.symm
  have hkept : ∀ node', node' ≠ node →
      (Progress.after cfg streams node' (update done node (done node ++ [m]) node')).kept =
        (Progress.after cfg streams node' (done node')).kept := by
    intro node' hne'
    rw [update_of_ne hne']
  rw [Mappers.matchingMessageFor, hindex, htime, hrealtime]
  simp only [hchannel]
  split
  · next hpeer =>
    have hlookup : (Progress.after cfg streams node (done node)).lookup cfg streams node m = none := by
      rw [Progress.lookup, if_neg (fun hsaved => hpeer hsaved.1)]
    have hleaves := h.leaves_of_lookup_none hmulti htimestamp hlookup
    rw [hlookup]
    refine ⟨s, rfl, rfl, h.nodes, hleaves _ _ ?_ hkept rfl ?_⟩
    · rw [update_self]
    · intro node' dest channel _
      rfl
  · obtain ⟨hs1, hread⟩ := h.queueUnmatchedUntil hc hmulti (cfg.sourceNode m.channelIndex)
      ⟨m.monotonicRemoteBoot, remoteTime⟩
    set peer := (s (cfg.sourceNode m.channelIndex)).queueUnmatchedUntil cfg (cfg.sourceNode m.channelIndex)
      ⟨m.monotonicRemoteBoot, remoteTime⟩ with hpeer
    obtain ⟨queue, hfind, hleaves⟩ := hs1.findData hc hmulti hstream htimestamp htime hrealtime
      (by rw [update_self]; exact hread)
    rw [update_self, hremote] at hfind
    simp only [hfind, bind, Except.bind, pure, Except.pure]
    refine ⟨_, rfl, update_of_ne hne .., ?_, ?_⟩
    · intro node'
      have hnode := hs1.nodes node'
      by_cases heq : node' = cfg.sourceNode m.channelIndex
      · subst heq
        rw [update_self] at hnode ⊢
        exact { hnode with }
      · rw [update_of_ne heq] at hnode ⊢
        exact hnode
    · have hmessages' : ∀ node', (update s (cfg.sourceNode m.channelIndex)
          (peer.setQueue node m.channelIndex queue) node').messages =
            (update s (cfg.sourceNode m.channelIndex) peer node').messages := by
        intro node'
        by_cases heq : node' = cfg.sourceNode m.channelIndex
        · subst heq
          rw [update_self, update_self]
          rfl
        · rw [update_of_ne heq, update_of_ne heq]
      simp only [hmessages']
      apply hleaves _ _ _ hkept
      · rw [update_self, setQueue]
        simp [update_self]
      · intro node' dest channel hother
        by_cases heq : node' = cfg.sourceNode m.channelIndex
        · subst heq
          rw [update_self, update_self, setQueue]
          by_cases hdest : dest = node
          · subst hdest
            have hchannel' : channel ≠ m.channelIndex := fun hch => hother ⟨rfl, rfl, hch⟩
            simp [update_self, update_of_ne hchannel']
          · simp [update_of_ne hdest]
        · rw [update_of_ne heq, update_of_ne heq]
      · rw [update_self]

theorem NodeHolds.deliver {pops : Nat} {first : FirstMessage}
    {done : List Message} (h : NodeHolds cfg streams node pops first done t)
    (hnext : t.messages ++ t.bootMerger = m :: rest) (hx : x.monotonicEventTime = m.timestamp) :
    deliver t x =
      .ok { t with matchedMessages := t.matchedMessages ++ [x], lastMessageTime := x.monotonicEventTime } := by
  apply if_pos
  rw [hx]
  obtain hmin | ⟨a, ha, hlast⟩ := h.last
  · rw [hmin]
    exact m.minTime_le
  · have hsorted := hc.sorted node
    rw [h.stream_eq, hnext] at hsorted
    rw [hlast]
    exact (pairwise_append.mp hsorted).2.2 a ha m mem_cons_self

omit hc in
theorem NodeHolds.advance {t' : TimestampMapper n} {pops : Nat} {first : FirstMessage} {done : List Message}
    (h : NodeHolds cfg streams node pops first done t)
    (hnext : t.messages ++ t.bootMerger = m :: (t'.messages ++ t'.bootMerger))
    (hemitted : (after cfg streams node (done ++ [m])).emitted =
      (after cfg streams node done).emitted ++ [x])
    (hx : x.monotonicEventTime = m.timestamp) (hmatched : t'.matchedMessages = t.matchedMessages ++ [x])
    (hlast : t'.lastMessageTime = x.monotonicEventTime) (hfirst : t'.firstMessage = t.firstMessage)
    (huntil : t'.queuedUntil = t.queuedUntil) (hempty : t.bootMerger = [] → t'.bootMerger = [])
    (hread : ∀ a ∈ done ++ t.messages, a ∈ done ++ [m] ++ t'.messages)
    (hsingle : cfg.multiNode = false → t'.messages = []) :
    NodeHolds cfg streams node pops first (done ++ [m]) t' where
  stream_eq := by
    rw [h.stream_eq, hnext]
    simp
  matched_eq := by rw [hmatched, hemitted, drop_append_of_le_length h.pops_le, h.matched_eq]
  pops_le := by
    rw [hemitted, length_append]
    exact h.pops_le.trans (Nat.le_add_right _ _)
  first_eq := by rw [hfirst, h.first_eq]
  inMessage := by simp [hmatched]
  nullptr := by
    intro hnull
    have heq := (h.nullptr hnull).2
    rw [h.stream_eq, hnext] at heq
    simp at heq
  last := .inr ⟨m, by simp, hlast.trans hx⟩
  queued := by
    rw [huntil]
    obtain hmin | hmerger | ⟨a, ha, hqueued⟩ := h.queued
    · exact .inl hmin
    · exact .inr (.inl (hempty hmerger))
    · exact .inr (.inr ⟨a, hread a ha, hqueued⟩)
  single := hsingle

omit hc in
theorem nodeHolds_update {s1 : Mappers n} {done' : List Message}
    (hnodes : ∀ node', NodeHolds cfg streams node' (pops node') (first node') (done node') (s1 node'))
    (hnode : NodeHolds cfg streams node (pops node) (first node) done' t) (node' : Fin n) :
    NodeHolds cfg streams node' (pops node') (first node') (update done node done' node')
      (update s1 node t node') := by
  by_cases heq : node' = node
  · subst heq
    rw [update_self, update_self]
    exact hnode
  · rw [update_of_ne heq, update_of_ne heq]
    exact hnodes node'

theorem Holds.advance (hmulti : cfg.multiNode = true) {s1 : Mappers n}
    (hnodes : ∀ node', NodeHolds cfg streams node' (pops node') (first node') (done node') (s1 node'))
    (hqueues : QueuesHold cfg
      (fun node' => (after cfg streams node' (update done node (done node ++ [m]) node')).kept)
      (fun node' => done node' ++ (s1 node').messages) (fun node' => (s1 node').nodesData))
    (hmessages : (s1 node).messages = m :: rest)
    (hemitted : (after cfg streams node (done node ++ [m])).emitted =
      (after cfg streams node (done node)).emitted ++ [x])
    (hx : x.monotonicEventTime = m.timestamp) :
    ∃ t, deliver (s1 node) x = .ok t ∧
      Holds cfg streams pops first (update done node (done node ++ [m]))
        (update s1 node { t with messages := t.messages.tail }) := by
  have hread : done node ++ [m] ++ (s1 node).messages.tail = done node ++ (s1 node).messages := by
    rw [hmessages, tail_cons, append_assoc, singleton_append]
  have hnext : (s1 node).messages ++ (s1 node).bootMerger =
      m :: ((s1 node).messages.tail ++ (s1 node).bootMerger) := by
    rw [hmessages, tail_cons, cons_append]
  refine ⟨_, (hnodes node).deliver hc hnext hx, ?_, ?_⟩
  · apply nodeHolds_update hnodes
    refine (hnodes node).advance hnext hemitted hx rfl rfl rfl rfl id ?_ ?_
    · intro a ha
      rw [← hread] at ha
      exact ha
    · simp [hmulti]
  · rw [nodesData_update, read_update]
    · exact hqueues
    · exact hread
    · rfl

theorem Holds.matchFront (hmulti : cfg.multiNode = true)
    (h : Holds cfg streams pops first done s) (hmessages : (s node).messages = m :: rest) :
    ∃ s', Mappers.matchFront cfg node s = .ok (true, s') ∧
      Holds cfg streams pops first (update done node (done node ++ [m])) s' := by
  rw [Mappers.matchFront, hmessages]
  dsimp only
  split
  · next hlocal =>
    have hnext := after_append cfg streams node (done node) m
    rw [next_local (.inr hlocal)] at hnext
    have hkept : (fun node' =>
        (after cfg streams node' (update done node (done node ++ [m]) node')).kept) =
          fun node' => (after cfg streams node' (done node')).kept := by
      funext node'
      by_cases heq : node' = node
      · rw [heq, update_self, hnext]
      · rw [update_of_ne heq]
    obtain ⟨t, hdeliver, ht⟩ := advance hc hmulti h.nodes (hkept ▸ h.queues) hmessages
      (congrArg emitted hnext) rfl
    simp only [hdeliver, bind, Except.bind, pure, Except.pure]
    exact ⟨_, rfl, ht⟩
  · next htimestamp =>
    obtain ⟨s1, hmatching, hnode, hnodes, hqueues⟩ := h.matchingMessageFor hc hmulti hmessages htimestamp
    have hnext := after_append cfg streams node (done node) m
    rw [next_timestamp hmulti htimestamp] at hnext
    obtain ⟨t, hdeliver, ht⟩ := advance hc hmulti hnodes hqueues (hnode ▸ hmessages)
      (congrArg emitted hnext) rfl
    simp only [hmatching, hdeliver, bind, Except.bind, pure, Except.pure]
    exact ⟨_, rfl, ht⟩

omit hc in
theorem QueuesHold.of_single {kept kept' : Fin n → Nat → Option BootQueueIndex} {read read' : Fin n → List Message}
    {queues : Fin n → Fin n → Nat → List QueuedMessage} (hsingle : cfg.multiNode = false)
    (h : QueuesHold cfg kept read queues) : QueuesHold cfg kept' read' queues := by
  have hunsaved : ∀ node dest channel, ¬ cfg.Saved node dest channel := by
    intro node dest channel hsaved
    have hfalse := cfg.saveForPeer_single hsingle node dest
    rw [hsaved.1] at hfalse
    cases hfalse
  constructor
  · intro node dest channel hsaved
    exact absurd hsaved (hunsaved node dest channel)
  · exact h.unsaved
  · intro node dest channel hsaved
    exact absurd hsaved (hunsaved node dest channel)

theorem Holds.queueMatched (h : Holds cfg streams pops first done s) (node : Fin n) :
    (queueMatched cfg node s = .ok (false, s) ∧ done node = streams node) ∨
      ∃ m s', queueMatched cfg node s = .ok (true, s') ∧
        Holds cfg streams pops first (update done node (done node ++ [m])) s' := by
  have hstream := (h.nodes node).stream_eq
  rw [Mappers.queueMatched]
  split
  · next hsingle =>
    have hsingle : cfg.multiNode = false := by simpa using hsingle
    have hmessages := (h.nodes node).single hsingle
    rw [if_neg (by simp [hmessages])]
    cases hmerger : (s node).bootMerger with
    | nil =>
      left
      rw [hmessages, hmerger, append_nil, append_nil] at hstream
      exact ⟨rfl, hstream.symm⟩
    | cons m rest =>
      right
      have hnext : (s node).messages ++ (s node).bootMerger = m :: ((s node).messages ++ rest) := by
        rw [hmessages, hmerger, nil_append, nil_append]
      have hafter := after_append cfg streams node (done node) m
      rw [next_local (.inl hsingle)] at hafter
      simp only [(h.nodes node).deliver hc hnext (x := .ofLocal m) rfl, bind, Except.bind, pure, Except.pure]
      refine ⟨m, _, rfl, ?_, ?_⟩
      · apply nodeHolds_update h.nodes
        refine (h.nodes node).advance hnext (congrArg emitted hafter) rfl rfl rfl rfl rfl ?_ ?_ ?_
        · rw [hmerger]
          intro hnil
          cases hnil
        · intro a ha
          rw [hmessages, append_nil] at ha
          exact mem_append_left _ (mem_append_left _ ha)
        · intro _
          exact hmessages
      · rw [nodesData_update]
        · exact h.queues.of_single hsingle
        · rfl
  · next hmulti =>
    have hmulti : cfg.multiNode = true := by simpa using hmulti
    split
    · next hmessages =>
      cases hqueue : (s node).queue cfg node with
      | none =>
        left
        rw [hmessages, bootMerger_of_queue_none hqueue, append_nil, append_nil] at hstream
        exact ⟨rfl, hstream.symm⟩
      | some t =>
        right
        obtain ⟨m, -, hqueued⟩ := TimestampMapper.bootMerger_of_queue hqueue
        have hmessages' : (update s node t node).messages = [m] := by
          rw [update_self, hqueued, hmessages, nil_append]
        exact ⟨m, (h.queue hc hmulti hqueue).matchFront hc hmulti hmessages'⟩
    · next hmessages =>
      right
      obtain ⟨m, rest, hcons⟩ := exists_cons_of_ne_nil hmessages
      exact ⟨m, h.matchFront hc hmulti hcons⟩

end

end

/-! ### What the calls return -/

theorem Holds.queueWhile (hc : Consistent cfg streams) (h : Holds cfg streams pops first done s) (node : Fin n)
    (wants : TimestampMapper n → Bool) :
    ∃ s' done', queueWhile cfg node wants s = .ok s' ∧ Holds cfg streams pops first done' s' := by
  induction hremaining : remaining (s node) using Nat.strongRecOn generalizing s done with
  | ind k ih =>
    rw [queueWhile]
    split
    · obtain ⟨hmatched, -⟩ | ⟨m, s', hmatched, hs'⟩ := h.queueMatched hc node
      · rw [hmatched]
        exact ⟨s, done, rfl, h⟩
      · have hlt := remaining_of_queueMatched hmatched
        rw [hremaining] at hlt
        rw [hmatched]
        exact ih _ hlt hs' rfl
    · exact ⟨s, done, rfl, h⟩

section

variable {t : TimestampMapper n} {pops : Nat} {first : FirstMessage} {done : List Message}

theorem NodeHolds.head?_matched (h : NodeHolds cfg streams node pops first done t) (hmatched : t.matchedMessages ≠ []) :
    t.matchedMessages.head? = (matchedStream cfg streams node)[pops]? := by
  obtain ⟨later, hlater⟩ := exists_emitted_append cfg streams node done (t.messages ++ t.bootMerger)
  rw [← h.stream_eq] at hlater
  rw [h.matched_eq] at hmatched
  have hlt : pops < (after cfg streams node done).emitted.length := by
    rw [Ne, drop_eq_nil_iff] at hmatched
    omega
  rw [h.matched_eq, head?_drop, matchedStream, hlater, getElem?_append_left hlt]

theorem NodeHolds.matchedStream_end (h : NodeHolds cfg streams node pops first done t)
    (hmatched : t.matchedMessages = []) (hdone : done = streams node) :
    (matchedStream cfg streams node)[pops]? = none := by
  rw [h.matched_eq, drop_eq_nil_iff, hdone] at hmatched
  exact getElem?_eq_none hmatched

end

theorem Holds.matched_ne_nil (h : Holds cfg streams pops first done s) {s' : Mappers n}
    (hs' : Holds cfg streams pops first (update done node (done node ++ [m])) s') :
    (s' node).matchedMessages ≠ [] := by
  have hpops := (h.nodes node).pops_le
  rw [length_emitted] at hpops
  rw [(hs'.nodes node).matched_eq, update_self, Ne, drop_eq_nil_iff, length_emitted,
    length_append, length_singleton]
  omega

section

variable (hc : Consistent cfg streams) (h : Holds cfg streams pops first done s) (node : Fin n)

include hc h

theorem Holds.ensureMatched :
    ∃ available s' done', Mappers.ensureMatched cfg node s = .ok (available, s') ∧
      Holds cfg streams pops first done' s' ∧ (available = true → (s' node).matchedMessages ≠ []) ∧
      (available = false → (s' node).matchedMessages = [] ∧ done' node = streams node) := by
  rw [Mappers.ensureMatched]
  split
  · next hempty =>
    obtain ⟨hmatched, hdone⟩ | ⟨m, s', hmatched, hs'⟩ := h.queueMatched hc node
    · exact ⟨false, s, done, hmatched, h, by simp, fun _ => ⟨hempty, hdone⟩⟩
    · exact ⟨true, s', _, hmatched, hs', fun _ => h.matched_ne_nil hs', by simp⟩
  · next hmatched => exact ⟨true, s, done, rfl, h, fun _ => hmatched, by simp⟩

theorem Holds.queueFor (timeEstimationBuffer : Int) :
    ∃ s' done', Mappers.queueFor cfg node timeEstimationBuffer s = .ok s' ∧ Holds cfg streams pops first done' s' := by
  obtain ⟨available, s1, done1, havailable, hs1, -, -⟩ := h.ensureMatched hc node
  rw [Mappers.queueFor, havailable]
  simp only [bind, Except.bind]
  split
  · exact hs1.queueWhile hc node _
  · exact ⟨s1, done1, rfl, hs1⟩

end

theorem Holds.front_again (h : Holds cfg streams pops first done s) (hfirst : first node ≠ .needsUpdate) :
    front cfg node s = .ok ((matchedStream cfg streams node)[pops node]?, s) := by
  have hnode := h.nodes node
  rw [front, hnode.first_eq]
  cases hcase : first node with
  | needsUpdate => exact absurd hcase hfirst
  | inMessage =>
    rw [hnode.head?_matched (hnode.inMessage hcase)]
  | nullptr =>
    obtain ⟨hempty, hdone⟩ := hnode.nullptr hcase
    rw [hnode.matchedStream_end hempty hdone]

theorem Holds.front (hc : Consistent cfg streams) (h : Holds cfg streams pops first done s) (node : Fin n) :
    ∃ s' first' done', Mappers.front cfg node s = .ok ((matchedStream cfg streams node)[pops node]?, s') ∧
      first' ≠ .needsUpdate ∧ Holds cfg streams pops (update first node first') done' s' := by
  by_cases hfirst : first node = .needsUpdate
  · obtain ⟨available, s1, done1, havailable, hs1, hmatched, hend⟩ := h.ensureMatched hc node
    have hnode := hs1.nodes node
    rw [Mappers.front, (h.nodes node).first_eq, hfirst]
    simp only [havailable, bind, Except.bind, pure, Except.pure]
    cases available with
    | true =>
      have hmatched := hmatched rfl
      rw [← hnode.head?_matched hmatched]
      refine ⟨_, .inMessage, done1, rfl, by simp, ?_⟩
      have hupdate := hs1.updated (t := { s1 node with firstMessage := .inMessage })
        { hnode with first_eq := rfl, inMessage := fun _ => hmatched, nullptr := by simp } rfl rfl
      rwa [update_eq_self] at hupdate
    | false =>
      obtain ⟨hempty, hdone⟩ := hend rfl
      rw [hnode.matchedStream_end hempty hdone]
      refine ⟨_, .nullptr, done1, rfl, by simp, ?_⟩
      have hupdate := hs1.updated (t := { s1 node with firstMessage := .nullptr })
        { hnode with first_eq := rfl, inMessage := by simp, nullptr := fun _ => ⟨hempty, hdone⟩ } rfl rfl
      rwa [update_eq_self] at hupdate
  · refine ⟨s, first node, done, h.front_again hfirst, hfirst, ?_⟩
    rwa [update_eq_self]

theorem Holds.popFront (h : Holds cfg streams pops first done s) (hfirst : first node ≠ .needsUpdate)
    (hpops : pops node < (matchedStream cfg streams node).length) : ∃ s', Mappers.popFront cfg node s = .ok s' ∧
      Holds cfg streams (update pops node (pops node + 1)) (update first node .needsUpdate) done s' := by
  have hnode := h.nodes node
  have hfirst' : ¬ (s node).firstMessage = .needsUpdate := by rwa [hnode.first_eq]
  have hmatched : (s node).matchedMessages ≠ [] := by
    cases hcase : first node with
    | needsUpdate => exact absurd hcase hfirst
    | inMessage => exact hnode.inMessage hcase
    | nullptr =>
      obtain ⟨hempty, hdone⟩ := hnode.nullptr hcase
      have hend := hnode.matchedStream_end hempty hdone
      rw [getElem?_eq_none_iff] at hend
      omega
  have hlt : pops node < (after cfg streams node (done node)).emitted.length := by
    rw [hnode.matched_eq, Ne, drop_eq_nil_iff] at hmatched
    omega
  rw [Mappers.popFront, if_neg hfirst']
  simp only [h.front_again hfirst, getElem?_eq_getElem hpops, bind, Except.bind, pure, Except.pure]
  refine ⟨_, rfl, h.updated { hnode with
    matched_eq := ?_
    pops_le := hlt
    first_eq := rfl
    inMessage := by simp
    nullptr := by simp } rfl rfl⟩
  rw [hnode.matched_eq, tail_drop]

theorem Holds.start (cfg : MapperConfig n) (streams : Fin n → List Message) :
    Holds cfg streams (fun _ => 0) (fun _ => .needsUpdate) (fun _ => []) (start streams) where
  nodes := by
    intro node
    exact {
      stream_eq := rfl
      matched_eq := rfl
      pops_le := le_rfl
      first_eq := rfl
      inMessage := by simp
      nullptr := by simp
      last := .inl rfl
      queued := .inl rfl
      single := fun _ => rfl }
  queues := by
    constructor
    · intro node dest channel _
      exact ⟨none, .inl rfl, rfl⟩
    · intro node dest channel _
      rfl
    · intro node dest channel _ k hk
      cases hk

end

/-- What the `Front` calls return when each node just returns its own list of messages. -/
def reads (lists : Fin n → List TimestampedMessage) (pops : Fin n → Nat) (seen : Fin n → Bool) :
    List (Mappers.Call n) → Except MapCheck (List (Option TimestampedMessage))
  | [] => .ok []
  | .front node :: calls => do return (lists node)[pops node]? :: (← reads lists pops (update seen node true) calls)
  | .popFront node :: calls =>
    if seen node = false then .error .popBeforeFront
    else if (lists node).length ≤ pops node then .error .popAtEnd
    else reads lists (update pops node (pops node + 1)) (update seen node false) calls
  | .queueUntil _ _ :: calls => reads lists pops seen calls
  | .queueFor _ _ :: calls => reads lists pops seen calls

theorem Holds.run {cfg : MapperConfig n} {streams : Fin n → List Message} (hc : Consistent cfg streams)
    {pops : Fin n → Nat} {first : Fin n → FirstMessage} {done : Fin n → List Message} {s : Mappers n}
    (h : Holds cfg streams pops first done s) (calls : List (Mappers.Call n)) : Mappers.run cfg s calls =
      reads (matchedStream cfg streams) pops (fun node => decide (first node ≠ .needsUpdate)) calls := by
  have hseen : ∀ (first : Fin n → FirstMessage) (node : Fin n) (first' : FirstMessage),
      update (fun node' => decide (first node' ≠ .needsUpdate)) node (decide (first' ≠ .needsUpdate)) =
        fun node' => decide (update first node first' node' ≠ .needsUpdate) := by
    intro first node first'
    funext node'
    by_cases heq : node' = node
    · rw [heq, update_self, update_self]
    · rw [update_of_ne heq, update_of_ne heq]
  induction calls generalizing pops first done s with
  | nil => rfl
  | cons call calls ih =>
    cases call with
    | front node =>
      obtain ⟨s', first', done', hfront, hfirst', hs'⟩ := h.front hc node
      have hupdate := hseen first node first'
      rw [decide_eq_true hfirst'] at hupdate
      rw [Mappers.run, reads, hfront, hupdate, ← ih hs']
      rfl
    | popFront node =>
      rw [Mappers.run, reads]
      by_cases hfirst : first node = .needsUpdate
      · have hpop : Mappers.popFront cfg node s = .error .popBeforeFront := by
          rw [Mappers.popFront, if_pos ((h.nodes node).first_eq.trans hfirst)]
          rfl
        rw [if_pos (by simp [hfirst]), hpop]
        rfl
      · rw [if_neg (by simp [hfirst])]
        by_cases hend : (matchedStream cfg streams node).length ≤ pops node
        · have hpop : Mappers.popFront cfg node s = .error .popAtEnd := by
            rw [Mappers.popFront, if_neg (by rwa [(h.nodes node).first_eq])]
            simp only [h.front_again hfirst, getElem?_eq_none hend, bind, Except.bind]
            rfl
          rw [if_pos hend, hpop]
          rfl
        · obtain ⟨s', hpop, hs'⟩ := h.popFront hfirst (Nat.lt_of_not_le hend)
          have hupdate := hseen first node .needsUpdate
          rw [if_neg hend, hpop]
          exact (ih hs').trans (by rw [← hupdate]; rfl)
    | queueUntil node queueTime =>
      obtain ⟨s', done', huntil, hs'⟩ := h.queueWhile hc node fun t => decide (t.lastMessageTime ≤ queueTime)
      rw [Mappers.run, Mappers.queueUntil, huntil, reads]
      exact ih hs'
    | queueFor node timeEstimationBuffer =>
      obtain ⟨s', done', hfor, hs'⟩ := h.queueFor hc node timeEstimationBuffer
      rw [Mappers.run, hfor, reads]
      exact ih hs'

/-- Whatever was called before, `Front` returns the next message of the node's matched stream, which only depends on the logs. -/
theorem Mappers.run_eq_reads {cfg : MapperConfig n} {streams : Fin n → List Message} (hc : Consistent cfg streams)
    (calls : List (Mappers.Call n)) :
    run cfg (start streams) calls =
      reads (matchedStream cfg streams) (fun _ => 0) (fun _ => false) calls :=
  (Holds.start cfg streams).run hc calls

/-! Node 0 sends on channel 0, which is forwarded to node 1, and on channel 1, which is not. -/

def twoNodes : MapperConfig 2 where
  multiNode := true
  sourceNode := fun _ => 0
  readable := fun channel node => channel = 0 ∨ node = 0
  timeToLive := fun _ _ => 0
  saveForPeer := fun node dest => decide (node ≠ dest)
  saveForPeer_self := by decide
  saveForPeer_single := by decide
  monotonicStartTime := fun _ _ => 0
  maxNetworkDelay := 1000

def sentAt (channel index time : Nat) (isTime : IsTime (time : Int) := by decide) : Message where
  channelIndex := channel
  queueIndex := ⟨0, index⟩
  timestamp := ⟨0, time⟩
  data := { channelIndex := channel, monotonicSentTime := time, queueIndex := index, span := [1], isTime }
  isTime := isTime

/-- A timestamp on channel 0, for the message that was sent as number `remoteIndex` at `remoteTime`. -/
def receivedAt (index time remoteIndex remoteTime : Nat) (isTime : IsTime (time : Int) := by decide) : Message where
  channelIndex := 0
  queueIndex := ⟨0, index⟩
  timestamp := ⟨0, time⟩
  monotonicRemoteBoot := 0
  data := { channelIndex := 0, monotonicSentTime := time, queueIndex := index, isTime
            monotonicRemoteTime := some remoteTime, realtimeRemoteTime := some 0, remoteQueueIndex := some remoteIndex }
  isTime := isTime

def forwardedLog (node : Fin 2) : List Message :=
  if node = 0 then [sentAt 0 0 10, sentAt 1 0 15, sentAt 0 2 30]
  else [receivedAt 0 110 0 10, receivedAt 1 120 1 20, receivedAt 2 130 2 30]

theorem run_eq_reads_forwardedLog :
    Consistent twoNodes forwardedLog ∧
      ∀ calls : List (Mappers.Call 2), run twoNodes (start forwardedLog) calls =
        reads (matchedStream twoNodes forwardedLog) (fun _ => 0) (fun _ => false) calls := by
  have hc : Consistent twoNodes forwardedLog := {
    sorted := by decide
    reliable := fun _ _ _ _ => rfl
    unique := by decide
    remote := by decide
    increasing := by decide
    agrees := by decide }
  exact ⟨hc, run_eq_reads hc⟩

/-- The queue indices of channel 0 do not go up, and a timestamp for its last but one message has the time of the one before. -/
def unorderedLog (node : Fin 2) : List Message :=
  if node = 0 then [sentAt 0 0 10, sentAt 0 2 20, sentAt 1 0 25, sentAt 0 1 30, sentAt 0 3 40]
  else [receivedAt 0 100 1 20]

/-- Whether the timestamp gets data depends on how far node 0 was read before. -/
theorem unordered_log_shows_read_ahead :
    (∀ node, (unorderedLog node).Pairwise fun a b => a.timestamp ≤ b.timestamp) ∧
      (∀ node dest channel, twoNodes.delivered node dest channel = true → twoNodes.timeToLive channel dest = 0) ∧
      (∀ node, (unorderedLog node).Pairwise fun a b =>
        twoNodes.IsTimestamp node a → a.channelIndex = b.channelIndex → a.remoteIndex ≠ b.remoteIndex) ∧
      run twoNodes (start unorderedLog) [.front 1] =
        .ok [some (.ofTimestamp (receivedAt 0 100 1 20) none)] ∧
      run twoNodes (start unorderedLog) [.queueUntil 0 ⟨0, 50⟩, .front 1] =
        .ok [some (.ofTimestamp (receivedAt 0 100 1 20) (some (sentAt 0 2 20).data))] := by
  exact ⟨by decide, fun _ _ _ _ => rfl, by decide, by decide +kernel⟩

end RobotCode.Logging
