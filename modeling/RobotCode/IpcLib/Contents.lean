import RobotCode.IpcLib.Numbering

/-!
# What is in a message

The stores of `Send` before its exchange put the arguments of the call into the scratch message, so what
an exchange publishes is what the caller handed in. A published message is not written again while its
header carries its number: the sender that popped it invalidates the header first, and a sender that
stamps the message again does so with a larger number.
-/

namespace RobotCode.IpcLib

open Function

variable {c : Configuration} {s s' : State} {i : Nat}

/-- The message holds what `Send` was called with. -/
structure Message.Carries (x : Message) (args : SendArgs) (payload : Nat → UInt8) : Prop where
  length : x.length = args.length
  remoteQueueIndex : x.remoteQueueIndex = args.remoteQueueIndex
  sourceBootUuid : x.sourceBootUuid = args.sourceBootUuid
  monotonicRemoteTime : x.monotonicRemoteTime = args.monotonicRemoteTime
  realtimeRemoteTime : x.realtimeRemoteTime = args.realtimeRemoteTime
  data : x.data = payload

def SenderProc.Filled (p : SenderProc) (x : Message) : Prop :=
  p.pc ≤ .abandonExchange →
  (.loadScratch ≤ p.pc → x.data = p.payload) ∧
  (.storeLength < p.pc → x.length = p.args.length) ∧
  (.storeRemoteQueueIndex < p.pc → x.remoteQueueIndex = p.args.remoteQueueIndex) ∧
  (.storeSourceBootUuid < p.pc → x.sourceBootUuid = p.args.sourceBootUuid) ∧
  (.storeMonotonicRemoteTime < p.pc → x.monotonicRemoteTime = p.args.monotonicRemoteTime) ∧
  (.storeRealtimeRemoteTime < p.pc → x.realtimeRemoteTime = p.args.realtimeRemoteTime)

theorem SenderProc.Filled.carries {p : SenderProc} {x : Message} (h : p.Filled x) (hpc : p.pc = .exchange) :
    x.Carries p.args p.payload := by
  rw [SenderProc.Filled, hpc] at h
  obtain ⟨hdata, hlength, hremote, huuid, hmonotonic, hrealtime⟩ := h (by decide)
  exact ⟨hlength (by decide), hremote (by decide), huuid (by decide), hmonotonic (by decide),
    hrealtime (by decide), hdata (by decide)⟩

theorem senderNext_filled {p : SenderProc} {w : Write} (hagrees : (s.sender i).Agrees c (s.memory.senders i))
    (hfilled : (s.sender i).Filled (s.memory.messages (s.hand i).messageIndex))
    (hnext : senderNext c s i = some (p, w)) : p.Filled (w.onMessages s.memory.messages (s.hand i).messageIndex) := by
  have hhand := hagrees.hand_scratch
  cases heq : (s.sender i).pc <;> simp only [senderNext, heq] at hnext <;>
    simp +decide only [SenderProc.Filled, heq] at hfilled <;> simp +decide only [heq] at hhand
  all_goals
    repeat' split at hnext
    all_goals cases hnext <;> simp_all +decide [SenderProc.Filled, Write.onMessages]

/-! ### Published messages -/

def Message.body (x : Message) : Message := { x with queueIndex := 0, redzonesCorrupt := false }

structure Contents (c : Configuration) (s : State) : Prop where
  filled : ∀ i < c.numSenders, (s.sender i).Filled (s.memory.messages (s.hand i).messageIndex)
  records : ∀ n r, s.history.sent[n]? = some r → r.message.Carries r.args r.payload ∧
    (s.history.number r.messageIndex = some n → (s.memory.messages r.messageIndex).body = r.message.body)

theorem contents_initial : Contents c (initialState c) where
  filled _ _ _ := by
    refine ⟨fun hpc => absurd hpc ?_, fun hpc => absurd hpc ?_, fun hpc => absurd hpc ?_, fun hpc => absurd hpc ?_,
      fun hpc => absurd hpc ?_, fun hpc => absurd hpc ?_⟩ <;> simp +decide [initialState, initialSender]
  records _ _ hr := nomatch hr

variable {a : Action}

theorem step_body {b : Nat} (hagree : SendersAgree c s)
    (hb : ∀ i < c.numSenders, (s.sender i).pc ≤ .exchange → b ≠ (s.hand i).messageIndex)
    (hstep : step c s a = some s') : (s'.memory.messages b).body = (s.memory.messages b).body := by
  cases step_move hstep with
  | sender i p w ha hi hheld hnext =>
    rw [State.setSender_memory, store_messages]
    cases w with
    | field k store =>
      obtain ⟨-, -, -, hpc⟩ := senderNext_field hnext
      rw [senderNext_messages_of_ne (hagree i hi).1 hnext (hb i hi (hpc.le.trans (by decide)))]
    | queueIndex k value =>
      by_cases hk : b = k
      · simp [Write.onMessages, Message.body, hk]
      · simp [Write.onMessages, hk]
    | _ => rfl
  | fill i offset byte hi hheld hpc =>
    have hne := hb i hi (by rw [hpc]; decide)
    rw [(hagree i hi).1.hand_data hpc] at hne
    simp [Write.onMessages, hne]
  | overrun k =>
    by_cases hk : b = k
    · simp [Memory.setMessage, Message.body, hk]
    · simp [Memory.setMessage, hk]
  | _ => rfl

theorem Contents.filled_step (h : Contents c s) (hsound : Sound c s)
    (hstep : step c s a = some s') (k : Nat) (hk : k < c.numSenders) :
    (s'.sender k).Filled (s'.memory.messages (s'.hand k).messageIndex) := by
  have hfilled := h.filled k hk
  cases step_move hstep with
  | sender i p w ha hi hheld hnext =>
    have hagrees := (hsound.agree i hi).1
    by_cases hki : k = i
    · subst hki
      intro hpc
      have hhand : (((s.store c k w).setSender k p).hand k).messageIndex = (s.hand k).messageIndex := by
        rw [hand_store_self]
        have htrade := senderNext_trades hagrees hnext
        simp only [State.setSender_sender, update_self] at hpc
        cases w with
        | slot j value =>
          obtain ⟨-, -, -, -, rfl⟩ := senderNext_slot hnext
          exact absurd hpc (by dsimp only; decide)
        | pinnerScratch q value =>
          obtain ⟨-, -, -, -, rfl⟩ := senderNext_pinnerScratch hnext
          exact absurd hpc (by dsimp only; decide)
        | _ => exact htrade
      have hnew := senderNext_filled hagrees hfilled hnext
      rw [hhand]
      simp only [State.setSender_sender, update_self, State.setSender_memory, store_messages] at hpc ⊢
      exact hnew hpc
    · rw [hand_store_of_ne hki, State.setSender_memory, store_messages,
        senderNext_messages_of_ne hagrees hnext (hsound.owned.hand_ne_hand hi hk hki)]
      simpa [hki] using hfilled
  | fill i offset byte hi hheld hpc =>
    by_cases hki : k = i
    · subst hki
      intro _
      refine ⟨fun h1 => absurd h1 ?_, fun h1 => absurd h1 ?_, fun h1 => absurd h1 ?_, fun h1 => absurd h1 ?_,
        fun h1 => absurd h1 ?_, fun h1 => absurd h1 ?_⟩ <;> rw [store_sender, hpc] <;> decide
    · have hne := hsound.owned.hand_ne_hand hi hk hki
      rw [(hsound.agree i hi).1.hand_data hpc] at hne
      change (s.sender k).Filled (update s.memory.messages (s.sender i).data _ (s.hand k).messageIndex)
      rwa [update_of_ne hne]
  | enter i t p hi hold hnew htid hdied =>
    have hpc : (s.sender i).pc.Outside := hold.elim id fun ht => .inl ((hsound.agree i hi).2 ht)
    rw [hand_enter hpc.not_exchanged hnew.not_exchanged]
    by_cases hki : k = i
    · subst hki
      simp only [State.setSender_sender, update_self]
      intro _
      rcases hnew with hnew | ⟨hnew, -⟩ | ⟨hnew, hpayload⟩
      · simp +decide [hnew]
      · simp +decide [hnew]
      · have hscratch : s.hand k = (s.memory.senders k).scratchIndex := if_neg hpc.not_exchanged
        simp +decide [hnew, hscratch, hpayload]
    · simpa [hki] using hfilled
  | kill i hi hheld =>
    rw [hand_kill]
    exact hfilled
  | overrun k' =>
    change (s.sender k).Filled (update s.memory.messages k' _ (s.hand k).messageIndex)
    by_cases hk' : (s.hand k).messageIndex = k'
    · rw [hk', update_self]
      rw [hk'] at hfilled
      exact hfilled
    · rwa [update_of_ne hk']
  | _ => exact hfilled

theorem Contents.step (h : Contents c s) (hsound : Sound c s) (hstep : step c s a = some s') : Contents c s' := by
  refine ⟨h.filled_step hsound hstep, fun n r hr => ?_⟩
  by_cases hold : s.history.sent[n]? = some r
  · refine ⟨(h.records n r hold).1, fun hnumber => ?_⟩
    have hn := (List.getElem?_eq_some_iff.mp hold).1
    have hsize := hsound.numbered.nonempty (by omega)
    have hnumber' : s.history.number r.messageIndex = some n := by
      refine (hsound.number_of_step hstep hnumber).resolve_right fun ⟨hfresh, hslots⟩ => ?_
      rcases (hsound.numbered.records n r hold).2 with ⟨-, hslot⟩ | ⟨-, hleft⟩
      · exact hslots _ (Nat.mod_lt n hsize) hslot
      · omega
    rw [step_body hsound.agree (fun i hi hpc => hsound.record_ne_hand hold hnumber' hi (hpc.trans (by decide))) hstep,
      (h.records n r hold).2 hnumber']
  -- The record is new, so this step is the exchange that published it.
  · cases step_move hstep with
    | sender i p w ha hi hheld hnext =>
      cases w with
      | slot j value =>
        obtain ⟨hpc, -⟩ := senderNext_slot hnext
        have hcarries := (h.filled i hi).carries hpc
        rw [(hsound.agree i hi).1.hand_scratch (by rw [hpc]; decide) (by rw [hpc]; decide)] at hcarries
        change (s.history.sent ++ [s.record i])[n]? = some r at hr
        have hlen := (List.getElem?_eq_some_iff.mp hr).1
        rw [List.length_append, List.length_singleton] at hlen
        rcases Nat.lt_or_ge n s.history.sent.length with hn | hn
        · exact absurd ((List.getElem?_append_left hn).symm.trans hr) hold
        · obtain rfl : n = s.history.sent.length := by omega
          rw [List.getElem?_concat_length, Option.some.injEq] at hr
          subst hr
          exact ⟨hcarries, fun _ => rfl⟩
      | _ => exact absurd hr hold
    | _ => exact absurd hr hold

/-! ### Looking at a message through its slot

A reader and a pinner load the slot of the index they want and then look at the header of the message
they found. Nothing stops senders from recycling the message in between. -/

/-- What is known of a `message` found in the slot of the number `request` by somebody who started when `startedAt`
messages were sent and the slot waited for `dueSeen`. -/
structure Seen (c : Configuration) (s : State) (request startedAt dueSeen message : Nat) : Prop where
  started : startedAt ≤ dueSeen
  due : dueSeen % c.queueSize = request % c.queueSize
  place : s.history.due (request % c.queueSize) = dueSeen ∧
      (s.memory.queue (request % c.queueSize)).messageIndex = message ∨ dueSeen < s.history.leftAt message
  number : ∀ w, s.history.number message = some w → w + c.queueSize = dueSeen ∨ dueSeen < w
  record : c.queueSize ≤ dueSeen →
    ∃ r, s.history.sent[dueSeen - c.queueSize]? = some r ∧ r.messageIndex = message

theorem getElem?_of_extends {l l' : List SendRecord} {n : Nat} {r : SendRecord} (h : l <+: l')
    (hr : l[n]? = some r) : l'[n]? = some r := by
  obtain ⟨rest, rfl⟩ := h
  rw [List.getElem?_append_left (List.getElem?_eq_some_iff.mp hr).1, hr]

section Seen

variable {request startedAt dueSeen message : Nat}

theorem Seen.load (hsound : Sound c s) (hsize : 0 < c.queueSize) (hstarted : startedAt ≤ s.history.sent.length) :
    Seen c s request startedAt (s.history.due (request % c.queueSize))
      (s.memory.queue (request % c.queueSize)).messageIndex := by
  have hlt : request % c.queueSize < c.queueSize := Nat.mod_lt _ hsize
  obtain ⟨hdue, hround, hmod⟩ := hsound.numbered.ring _ hlt
  refine ⟨hstarted.trans hdue, hmod, .inl ⟨rfl, rfl⟩, fun w hw => ?_, fun hle => ?_⟩
  · rw [hsound.numbered.number _ hlt, Option.ite_none_right_eq_some] at hw
    have hw' := Option.some.inj hw.2
    exact .inl (by omega)
  · have hn : s.history.due (request % c.queueSize) - c.queueSize < s.history.sent.length := by omega
    have hslot : (s.history.due (request % c.queueSize) - c.queueSize) % c.queueSize = request % c.queueSize := by
      rw [← Nat.mod_eq_sub_mod hle, hmod]
    refine ⟨_, List.getElem?_eq_getElem hn, ?_⟩
    have hplace := (hsound.numbered.records _ _ (List.getElem?_eq_getElem hn)).2
    rw [hslot, Nat.sub_add_cancel hle] at hplace
    exact (hplace.resolve_right fun hlater => lt_irrefl _ hlater.1).2.symm

theorem Seen.number_of_step {a : Action} (h : Seen c s request startedAt dueSeen message) (hsound : Sound c s)
    (hsize : 0 < c.queueSize) (hstep : step c s a = some s') {n : Nat} (hn : n ≤ dueSeen)
    (hnumber : s'.history.number message = some n) : s.history.number message = some n := by
  refine (hsound.number_of_step hstep hnumber).resolve_right fun ⟨hleft, hslots⟩ => ?_
  rcases h.place with ⟨-, hslot⟩ | hlt
  · exact hslots _ (Nat.mod_lt _ hsize) hslot
  · omega

theorem Seen.step {a : Action} (h : Seen c s request startedAt dueSeen message) (hsound : Sound c s)
    (hsize : 0 < c.queueSize) (hok : InOrder c s a) (hstep : step c s a = some s') :
    Seen c s' request startedAt dueSeen message where
  __ := h
  place := hsound.place_of_step hok hstep h.place
  number w hw := by
    rcases Nat.lt_or_ge dueSeen w with hlt | hle
    · exact .inr hlt
    · exact h.number w (h.number_of_step hsound hsize hstep hle hw)
  record hle := by
    obtain ⟨r, hr, hmessage⟩ := h.record hle
    exact ⟨r, getElem?_of_extends (step_extends_sent hstep) hr, hmessage⟩

theorem Seen.body (h : Seen c s request startedAt dueSeen message) (hcontents : Contents c s)
    (hle : c.queueSize ≤ dueSeen) (hnumber : s.history.number message = some (dueSeen - c.queueSize))
    {r : SendRecord} (hr : s.history.sent[dueSeen - c.queueSize]? = some r) :
    (s.memory.messages message).body = r.message.body := by
  obtain ⟨r', hr', hmessage⟩ := h.record hle
  obtain rfl : r' = r := Option.some.inj (hr'.symm.trans hr)
  rw [← hmessage] at hnumber ⊢
  exact (hcontents.records _ r' hr).2 hnumber

theorem Seen.number_of_header (hmax : c.Indexable)
    (h : Seen c s request startedAt dueSeen message) (hsound : Sound c s) (hfew : Few c s) (hsize : 0 < c.queueSize)
    (hstarted : startedAt ≤ s.history.sent.length) (hstart : request < startedAt + c.queueSize)
    (hheader : (s.memory.messages message).queueIndex = request % c.maxIndex) :
    request < c.maxIndex ∧ dueSeen = request + c.queueSize ∧ s.history.number message = some request := by
  rw [hsound.numbered.header] at hheader
  cases hnumber : s.history.number message with
  | none =>
    rw [hnumber] at hheader
    exact absurd hheader (Configuration.mod_maxIndex_lt hmax hsize _).ne'
  | some w =>
    rw [hnumber] at hheader
    change w % c.maxIndex = request % c.maxIndex at hheader
    have hw : w < c.maxIndex :=
      ((hsound.numbered.number_le _ w hnumber).trans hsound.numbered.hint_le).trans_lt hfew.1
    rw [Nat.mod_eq_of_lt hw] at hheader
    have hcase := h.number w hnumber
    have hstartedDue := h.started
    have hlarge := Configuration.lt_maxIndex_add hsize
    have hsmall := Configuration.queueSize_le hmax
    have hbound := hfew.2
    rcases Nat.lt_or_ge request c.maxIndex with hlt | hge
    · rw [Nat.mod_eq_of_lt hlt] at hheader
      subst hheader
      refine ⟨hlt, ?_, rfl⟩
      rcases hcase with hcase | hcase
      · exact hcase.symm
      · have := Ring.add_le_of_mod_eq h.due hcase
        omega
    · have hrequest : request = c.maxIndex := by omega
      rw [hrequest, Nat.mod_self] at hheader
      omega

end Seen

end RobotCode.IpcLib
