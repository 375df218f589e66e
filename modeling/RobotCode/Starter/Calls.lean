import RobotCode.Starter.Application

/-!
# What is called for an application

An application has a child exactly while its status says so, and each of its timers is set only in the status it
belongs to. What decides whether the application is started again is `Halted`: it is stopped, or it is being stopped
and no restart is queued. A command to stop makes it so, and nothing but a command to start ends it. `Effect` says
this of every call.
-/

namespace RobotCode.Starter

open List Fallible

def State.HasProcess (s : State) : Prop := s = .starting ∨ s = .running ∨ s = .stopping

instance (s : State) : Decidable s.HasProcess := inferInstanceAs (Decidable (_ ∨ _))

/-- No process id was given out twice. -/
structure Host.Given (h : Host) : Prop where
  forked : ∀ c ∈ h.children, (c.owner, some c.pid) ∈ h.forks
  unique : ∀ pid n n', (n, some pid) ∈ h.forks → (n', some pid) ∈ h.forks → n = n'

theorem Host.Given.forkFailed {h : Host} (hgiven : h.Given) (name : String) :
    ({ h with forks := h.forks ++ [(name, none)] } : Host).Given where
  forked c hc := mem_append_left _ (hgiven.forked c hc)
  unique pid n n' hn hn' := by
    simp only [mem_append, mem_singleton, Prod.mk.injEq, reduceCtorEq, and_false, or_false] at hn hn'
    exact hgiven.unique pid n n' hn hn'

theorem Host.Given.fork {h : Host} (hgiven : h.Given) {name : String} {pid : Pid}
    (hfresh : some pid ∉ h.forks.map Prod.snd) :
    ({ h with children := ⟨name, pid, none⟩ :: h.children, forks := h.forks ++ [(name, some pid)] } : Host).Given where
  forked c hc := by
    cases hc with
    | head => exact mem_append_right _ mem_cons_self
    | tail _ hc => exact mem_append_left _ (hgiven.forked c hc)
  unique p n n' hn hn' := by
    have hold : ∀ q, (q, some pid) ∉ h.forks := fun q hq => hfresh (mem_map_of_mem hq)
    simp only [mem_append, mem_singleton, Prod.mk.injEq, Option.some.injEq] at hn hn'
    obtain hn | ⟨rfl, rfl⟩ := hn
    · obtain hn' | ⟨rfl, rfl⟩ := hn'
      · exact hgiven.unique p n n' hn hn'
      · exact absurd hn (hold n)
    · obtain hn' | ⟨rfl, -⟩ := hn'
      · exact absurd hn' (hold n')
      · rfl

namespace Managed

/-- What holds of an application between two calls. -/
structure Sound (m : Managed) : Prop where
  child : m.app.status.HasProcess → ∃ c, m.host.childrenOf m.app.name = [c] ∧ m.app.pid = some c.pid
  idle : ¬ m.app.status.HasProcess → m.host.childrenOf m.app.name = []
  pid : ∀ pid, m.app.pid = some pid → (m.app.name, some pid) ∈ m.host.forks
  startTimer : m.app.startTimer ≠ none → m.app.status = .starting
  restartTimer : m.app.restartTimer ≠ none ↔ m.app.status = .waiting
  stopTimer : m.app.stopTimer ≠ none → m.app.status = .stopping

/-- The application is not started again by itself. -/
def Halted (m : Managed) : Prop :=
  m.app.status = .stopped ∨ m.app.status = .stopping ∧ m.app.queueRestart = false

instance (m : Managed) : Decidable m.Halted := inferInstanceAs (Decidable (_ ∨ _))

/-- A call leaves the other applications of the host alone, and no process id is given out twice. -/
structure Frame (m m' : Managed) : Prop where
  name : m'.app.name = m.app.name
  given : m'.host.Given
  forks : m.host.forks <+: m'.host.forks
  others : ∀ n, n ≠ m.app.name →
    m'.host.childrenOf n = m.host.childrenOf n ∧ m'.host.forksOf n = m.host.forksOf n

variable {m m' m'' : Managed}

theorem Frame.of_same (hgiven : m.host.Given) (hname : m'.app.name = m.app.name)
    (hchildren : m'.host.children = m.host.children) (hforks : m'.host.forks = m.host.forks) : Frame m m' where
  name := hname
  given := ⟨by rw [hchildren, hforks]; exact hgiven.forked, by rw [hforks]; exact hgiven.unique⟩
  forks := hforks ▸ prefix_rfl
  others n _ := by
    unfold Host.childrenOf Host.forksOf
    rw [hchildren, hforks]
    exact ⟨rfl, rfl⟩

theorem Frame.trans (h : Frame m m') (h' : Frame m' m'') : Frame m m'' where
  name := h'.name.trans h.name
  given := h'.given
  forks := h.forks.trans h'.forks
  others n hn := by
    obtain ⟨hchildren, hforks⟩ := h.others n hn
    obtain ⟨hchildren', hforks'⟩ := h'.others n (by rwa [h.name])
    exact ⟨hchildren'.trans hchildren, hforks'.trans hforks⟩

/-- What `DoStart` finds when it is called to start a process. -/
structure Idle (m : Managed) : Prop where
  waiting : m.app.status = .waiting
  children : m.host.childrenOf m.app.name = []
  pid : ∀ pid, m.app.pid = some pid → (m.app.name, some pid) ∈ m.host.forks
  stopTimer : m.app.stopTimer = none

/-- What `DoStart` leaves behind. -/
structure Started (m : Managed) (fork : Option Pid) (m' : Managed) : Prop where
  sound : m'.Sound
  frame : Frame m m'
  terminating : m'.app.terminating = m.app.terminating
  forked : m'.host.forksOf m.app.name = m.host.forksOf m.app.name ++ [fork]
  halted : m'.Halted → fork = none

variable {fork : Option Pid} {remove : Bool} {now : Int} {e : Stop}

theorem forksOf_self (hforks : m'.host.forks = m.host.forks ++ [(m.app.name, fork)]) :
    m'.host.forksOf m.app.name = m.host.forksOf m.app.name ++ [fork] := by
  simp [Host.forksOf, hforks]

theorem forksOf_other (hforks : m'.host.forks = m.host.forks ++ [(m.app.name, fork)])
    {n : String} (hn : n ≠ m.app.name) : m'.host.forksOf n = m.host.forksOf n := by
  simp [Host.forksOf, hforks, Ne.symm hn]

theorem Idle.forkFailed (hidle : m.Idle) (hgiven : m.host.Given) : Started m none m.disableForStart.forkFailed where
  sound :=
    { child := by simp [Managed.forkFailed, State.HasProcess]
      idle := fun _ => hidle.children
      pid := fun pid hpid => mem_append_left _ (hidle.pid pid hpid)
      startTimer := fun h => absurd rfl h
      restartTimer := by simp [Managed.forkFailed, disableForStart]
      stopTimer := fun h => absurd hidle.stopTimer h }
  frame :=
    { name := rfl
      given := hgiven.forkFailed m.app.name
      forks := prefix_append _ _
      others := fun n hn => ⟨rfl, forksOf_other rfl hn⟩ }
  terminating := rfl
  forked := forksOf_self rfl
  halted _ := rfl

theorem Idle.forked {pid : Pid} (hidle : m.Idle) (hgiven : m.host.Given)
    (hfresh : some pid ∉ m.host.forks.map Prod.snd) : Started m (some pid) (m.disableForStart.forked now pid) where
  sound :=
    { child := fun _ => ⟨⟨m.app.name, pid, none⟩,
        (filter_cons_of_pos (p := fun c : Child => c.owner = m.app.name) (decide_eq_true rfl)).trans
          (congrArg _ hidle.children), rfl⟩
      idle := fun h => absurd (.inl rfl) h
      pid := fun q hq => mem_append_right _ (by
        cases hq
        exact mem_cons_self)
      startTimer := fun _ => rfl
      restartTimer := by simp [Managed.forked, disableForStart]
      stopTimer := fun h => absurd hidle.stopTimer h }
  frame :=
    { name := rfl
      given := hgiven.fork hfresh
      forks := prefix_append _ _
      others := fun n hn =>
        ⟨filter_cons_of_neg fun h => hn (of_decide_eq_true h).symm, forksOf_other rfl hn⟩ }
  terminating := rfl
  forked := forksOf_self rfl
  halted h := by simp [Halted, Managed.forked] at h

theorem doStart_spec (h : m.doStart now fork = .ok m') (hidle : m.Idle)
    (hgiven : m.host.Given) : Started m fork m' := by
  unfold doStart at h
  rw [if_neg (not_not.mpr hidle.waiting)] at h
  cases fork with
  | none =>
    cases h
    exact hidle.forkFailed hgiven
  | some pid =>
    dsimp only at h
    split at h
    · cases h
    · rename_i hfresh
      cases h
      exact hidle.forked hgiven hfresh

theorem doStart_error (h : m.doStart now fork = .error e) : e = .notNow := by
  unfold doStart at h
  split at h
  · cases h
  · split at h
    · cases h
    · split at h
      · exact (Except.error.inj h).symm
      · cases h

def Call.Starts : Call → Prop
  | .handleCommand cmd _ _ => cmd = .start ∨ cmd = .restart
  | _ => False

def Call.Stops : Call → Prop
  | .handleCommand cmd _ _ => cmd = .stop
  | .terminate _ => True
  | _ => False

structure Effect (m : Managed) (c : Call) (remove : Bool) (m' : Managed) : Prop where
  sound : m'.Sound
  frame : Frame m m'
  terminating : m'.app.terminating = true → m.app.terminating = true ∨ ∃ now, c = .terminate now
  stops : c.Stops ∨ ¬ c.Starts ∧ m.Halted → m'.Halted ∧ m'.host.forksOf m.app.name = m.host.forksOf m.app.name
  starts : ¬ c.Stops → c.Starts ∨ ¬ m.Halted → m'.Halted →
    m'.host.forksOf m.app.name = m.host.forksOf m.app.name ++ [none] ∨ m.app.terminating = true ∧ remove = true

variable {c : Call}

theorem Started.effect {m1 : Managed} (h : Started m1 fork m') (hframe : Frame m m1)
    (hforks : m1.host.forks = m.host.forks) (hterminating : m1.app.terminating = m.app.terminating)
    (hstops : ¬ c.Stops) (hstarts : c.Starts ∨ ¬ m.Halted) : Effect m c false m' where
  sound := h.sound
  frame := hframe.trans h.frame
  terminating ht := .inl (by rw [← hterminating, ← h.terminating, ht])
  stops hor := by
    obtain hc | ⟨hc, hhalted⟩ := hor
    · exact absurd hc hstops
    · exact absurd hhalted (hstarts.resolve_left hc)
  starts _ _ hhalted := .inl (by
    have hforked := h.forked
    rw [hframe.name, h.halted hhalted] at hforked
    rw [hforked]
    unfold Host.forksOf
    rw [hforks])

theorem Effect.of_frame (hframe : Frame m m') (hforks : m'.host.forks = m.host.forks)
    (hterminating : m'.app.terminating = true → m.app.terminating = true ∨ ∃ now, c = .terminate now)
    (hsound : m'.Sound) (hstops : c.Stops ∨ ¬ c.Starts ∧ m.Halted → m'.Halted)
    (hstarts : ¬ c.Stops → c.Starts ∨ ¬ m.Halted → m'.Halted → m.app.terminating = true ∧ remove = true) :
    Effect m c remove m' where
  sound := hsound
  frame := hframe
  terminating := hterminating
  stops hor := ⟨hstops hor, by
    unfold Host.forksOf
    rw [hforks]⟩
  starts hc hor hhalted := .inr (hstarts hc hor hhalted)

section

variable (hgiven : m.host.Given) (hname : m'.app.name = m.app.name)
  (hchildren : m'.host.children = m.host.children) (hforks : m'.host.forks = m.host.forks)

include hgiven hname hchildren hforks

theorem Effect.of_quiet
    (hterminating : m'.app.terminating = true → m.app.terminating = true ∨ ∃ now, c = .terminate now)
    (hsound : m'.Sound) (hstops : c.Stops ∨ ¬ c.Starts ∧ m.Halted → m'.Halted)
    (hstarts : ¬ c.Stops → c.Starts ∨ ¬ m.Halted → ¬ m'.Halted) : Effect m c remove m' :=
  .of_frame (.of_same hgiven hname hchildren hforks) hforks hterminating hsound hstops
    fun hc hor hhalted => absurd hhalted (hstarts hc hor)

theorem Effect.of_starts (hterminating : m'.app.terminating = m.app.terminating) (hstops : ¬ c.Stops) (hstarts : c.Starts)
    (hsound : m'.Sound) (hhalted : ¬ m'.Halted) : Effect m c remove m' :=
  .of_quiet hgiven hname hchildren hforks (fun ht => .inl (hterminating ▸ ht)) hsound
    (fun hor => absurd hstarts (hor.resolve_left hstops).1) fun _ _ => hhalted

theorem Effect.of_halted_iff
    (hterminating : m'.app.terminating = m.app.terminating) (hsound : m'.Sound) (hstops : ¬ c.Stops)
    (hstarts : ¬ c.Starts) (hiff : m'.Halted ↔ m.Halted) : Effect m c remove m' :=
  .of_quiet hgiven hname hchildren hforks (fun ht => .inl (hterminating ▸ ht)) hsound
    (fun hor => hiff.mpr (hor.resolve_left hstops).2) fun _ hor => mt hiff.mp (hor.resolve_left hstarts)

end

theorem Sound.noProcess (h : m.Sound) {s : State} (hs : m.app.status = s) (hno : ¬ s.HasProcess) :
    m.host.childrenOf m.app.name = [] ∧ m.app.startTimer = none ∧ m.app.stopTimer = none := by
  subst hs
  refine ⟨h.idle hno, ?_, ?_⟩
  · by_contra htimer
    exact hno (.inl (h.startTimer htimer))
  · by_contra htimer
    exact hno (.inr (.inr (h.stopTimer htimer)))

theorem Sound.idle_of_waiting (h : m.Sound) (hs : m.app.status = .waiting) : m.Idle :=
  have hno := h.noProcess hs (by decide)
  ⟨hs, hno.1, h.pid, hno.2.2⟩

theorem Sound.idle_of_stopped (h : m.Sound) (hs : m.app.status = .stopped) : (m.setStatus .waiting).Idle :=
  have hno := h.noProcess hs (by decide)
  ⟨rfl, hno.1, h.pid, hno.2.2⟩

theorem Sound.stopProcess (h : m.Sound) (hs : m.app.status.HasProcess) (now : Int) (restart : Bool) :
    (m.disableForStart.stopProcess now restart).Sound where
  child _ := h.child hs
  idle hno := absurd (.inr (.inr rfl)) hno
  pid := h.pid
  startTimer hne := absurd rfl hne
  restartTimer := by simp [Managed.stopProcess, disableForStart, kill]
  stopTimer _ := rfl

theorem Sound.stopped (hchildren : m.host.childrenOf m.app.name = [])
    (hpid : ∀ pid, m.app.pid = some pid → (m.app.name, some pid) ∈ m.host.forks) (hs : m.app.status = .stopped)
    (hstart : m.app.startTimer = none) (hrestart : m.app.restartTimer = none) (hstop : m.app.stopTimer = none) :
    m.Sound where
  child hp := by simp [hs, State.HasProcess] at hp
  idle _ := hchildren
  pid := hpid
  startTimer hne := absurd hstart hne
  restartTimer := by simp [hrestart, hs]
  stopTimer hne := absurd hstop hne

theorem Sound.setQueueRestart (h : m.Sound) (restart : Bool) (hs : m.app.status = .stopping) :
    (m.disableForStart.setQueueRestart restart).Sound where
  __ := h
  startTimer hne := absurd rfl hne
  restartTimer := by simp [Managed.setQueueRestart, disableForStart, hs]

/-- What `DoStop(false)` leaves behind. -/
structure Stopped (m m' : Managed) : Prop where
  sound : m'.Sound
  halted : m'.Halted
  name : m'.app.name = m.app.name
  children : m'.host.children = m.host.children
  forks : m'.host.forks = m.host.forks
  terminating : m'.app.terminating = m.app.terminating

theorem doStop_false (hsound : m.Sound) (h : m.doStop false now fork = .ok m') : Stopped m m' := by
  cases hs : m.app.status <;> simp only [doStop, show m.disableForStart.app.status = _ from hs] at h <;> cases h
  · obtain ⟨hchildren, -, hstop⟩ := hsound.noProcess hs (by decide)
    exact ⟨.stopped hchildren hsound.pid rfl rfl rfl hstop, .inl rfl, rfl, rfl, rfl, rfl⟩
  · exact ⟨hsound.stopProcess (.inl hs) now false, .inr ⟨rfl, rfl⟩, rfl, rfl, rfl, rfl⟩
  · exact ⟨hsound.stopProcess (.inr (.inl hs)) now false, .inr ⟨rfl, rfl⟩, rfl, rfl, rfl, rfl⟩
  · exact ⟨hsound.setQueueRestart false hs, .inr ⟨hs, rfl⟩, rfl, rfl, rfl, rfl⟩
  · obtain ⟨hchildren, -, hstop⟩ := hsound.noProcess hs (by decide)
    exact ⟨.stopped hchildren hsound.pid hs rfl rfl hstop, .inl hs, rfl, rfl, rfl, rfl⟩

theorem Stopped.effect (h : Stopped m m') (hgiven : m.host.Given) :
    Effect m (.handleCommand .stop now fork) false m' :=
  .of_quiet hgiven h.name h.children h.forks (fun ht => .inl (h.terminating ▸ ht)) h.sound (fun _ => h.halted)
    fun hc => absurd rfl hc

theorem Sound.setStopReason (h : m.Sound) (reason : LastStopReason) : (m.setStopReason reason).Sound :=
  { h with }

theorem Effect.of_setStopReason {reason : LastStopReason}
    (h : Effect (m.setStopReason reason) c remove m') : Effect m c remove m' :=
  ⟨h.sound, { h.frame with }, h.terminating, h.stops, h.starts⟩

theorem doStop_true (hsound : m.Sound) (hgiven : m.host.Given)
    (h : m.doStop true now fork = .ok m') : Effect m (.handleCommand .restart now fork) false m' := by
  have hstops : ¬ (Call.handleCommand .restart now fork).Stops := by simp [Call.Stops]
  have hstarts : (Call.handleCommand .restart now fork).Starts := .inr rfl
  cases hs : m.app.status <;> simp only [doStop, show m.disableForStart.app.status = _ from hs] at h
  · have hidle : m.disableForStart.Idle := { hsound.idle_of_waiting hs with }
    exact (doStart_spec h hidle hgiven).effect (.of_same hgiven rfl rfl rfl) rfl rfl hstops (.inl hstarts)
  · cases h
    exact .of_starts hgiven rfl rfl rfl rfl hstops hstarts (hsound.stopProcess (.inl hs) now true)
      (by simp [Halted, stopProcess, kill])
  · cases h
    exact .of_starts hgiven rfl rfl rfl rfl hstops hstarts (hsound.stopProcess (.inr (.inl hs)) now true)
      (by simp [Halted, stopProcess, kill])
  · cases h
    exact .of_starts hgiven rfl rfl rfl rfl hstops hstarts (hsound.setQueueRestart true hs)
      (by simp [Halted, setQueueRestart, disableForStart, hs])
  · have hidle : (m.disableForStart.setStatus .waiting).Idle := { hsound.idle_of_stopped hs with }
    exact (doStart_spec (m := m.disableForStart.setStatus .waiting) h hidle hgiven).effect
      (.of_same hgiven rfl rfl rfl) rfl rfl hstops (.inl hstarts)

theorem start_effect (hsound : m.Sound) (hgiven : m.host.Given)
    (h : m.handleCommand .start now fork = .ok m') : Effect m (.handleCommand .start now fork) false m' := by
  have hstops : ¬ (Call.handleCommand .start now fork).Stops := by simp [Call.Stops]
  have hstarts : (Call.handleCommand .start now fork).Starts := .inl rfl
  unfold handleCommand at h
  cases hs : m.app.status <;> rw [hs] at h
  · have hidle : m.disableRestart.Idle := { hsound.idle_of_waiting hs with }
    exact (doStart_spec h hidle hgiven).effect (.of_same hgiven rfl rfl rfl) rfl rfl hstops (.inl hstarts)
  · cases h
    exact .of_starts hgiven rfl rfl rfl rfl hstops hstarts hsound (by simp [Halted, hs])
  · cases h
    exact .of_starts hgiven rfl rfl rfl rfl hstops hstarts hsound (by simp [Halted, hs])
  · cases h
    exact .of_starts hgiven rfl rfl rfl rfl hstops hstarts { hsound with } (by simp [Halted, setQueueRestart, hs])
  · exact (doStart_spec h (hsound.idle_of_stopped hs) hgiven).effect (.of_same hgiven rfl rfl rfl) rfl rfl hstops
      (.inl hstarts)

theorem terminate_effect (hsound : m.Sound) (hgiven : m.host.Given) (h : m.terminate now = .ok m') :
    Effect m (.terminate now) false m' := by
  obtain ⟨m1, hstop, rfl⟩ := map_eq_ok.mp h
  have hstopped := doStop_false (hsound.setStopReason .terminate) hstop
  exact .of_quiet hgiven hstopped.name hstopped.children hstopped.forks (fun _ => .inr ⟨now, rfl⟩)
    { hstopped.sound with } (fun _ => hstopped.halted) fun hc => absurd trivial hc

/-! ### Signals -/

/-- The host after a child of the application was waited for. -/
structure Reaped (m : Managed) (host : Host) : Prop where
  process : m.app.status.HasProcess
  forks : host.forks = m.host.forks
  children : host.childrenOf m.app.name = []
  frame : Frame m ⟨m.app, host⟩

/-- The process ids of different applications are different, so nobody else's child is waited for. -/
theorem waitpid_spec {m1 : Managed} {status : WaitStatus} (hsound : m.Sound) (hgiven : m.host.Given)
    (h : m.app.pid.bind m.waitpid = some (status, m1)) : ∃ host, m1 = ⟨m.app, host⟩ ∧ Reaped m host := by
  obtain ⟨pid, hpid, hwait⟩ := Option.bind_eq_some_iff.mp h
  obtain ⟨child, hfind, hended⟩ := Option.bind_eq_some_iff.mp hwait
  obtain ⟨status', -, heq⟩ := Option.bind_eq_some_iff.mp hended
  cases heq
  have howner : ∀ c ∈ m.host.children, c.pid = pid → c.owner = m.app.name := by
    intro c hc hcpid
    exact hgiven.unique pid _ _ (hcpid ▸ hgiven.forked c hc) (hsound.pid pid hpid)
  have hmem : child ∈ m.host.childrenOf m.app.name := by
    have hchild := mem_of_find?_eq_some hfind
    have hcpid : child.pid = pid := by simpa using find?_some hfind
    exact mem_filter.mpr ⟨hchild, decide_eq_true (howner child hchild hcpid)⟩
  have hprocess : m.app.status.HasProcess := by
    by_contra hno
    rw [hsound.idle hno] at hmem
    cases hmem
  refine ⟨_, rfl, hprocess, rfl, ?_, rfl, ?_, prefix_rfl, ?_⟩
  · obtain ⟨c, hchildren, hc⟩ := hsound.child hprocess
    rw [hpid] at hc
    unfold Host.childrenOf at hchildren ⊢
    rw [filter_comm, hchildren]
    simp [Option.some.inj hc]
  · exact ⟨fun c hc => hgiven.forked c (mem_of_mem_filter hc), hgiven.unique⟩
  · intro n hn
    refine ⟨?_, rfl⟩
    unfold Host.childrenOf
    rw [filter_comm, filter_eq_self]
    intro c hc
    obtain ⟨hc, hcn⟩ := mem_filter.mp hc
    apply decide_eq_true
    intro hcpid
    exact hn ((of_decide_eq_true hcn).symm.trans (howner c hc hcpid))

variable {host : Host} {now : Int} {status : WaitStatus} {readResult : Option LastStopReason} {fork : Option Pid}

theorem Reaped.pid_mem (h : Reaped m host) (hsound : m.Sound) :
    ∀ pid, m.app.pid = some pid → (m.app.name, some pid) ∈ host.forks := by
  intro pid hpid
  rw [h.forks]
  exact hsound.pid pid hpid

theorem Reaped.queueStart (h : Reaped m host) (hsound : m.Sound)
    (hs : m.app.status = .starting ∨ m.app.status = .running) :
    Effect m (.maybeHandleSignal now readResult fork) false
      ((Managed.noteExit ⟨m.app, host⟩ now status readResult).queueStart now) := by
  have hnot : ¬ m.Halted := by
    obtain hs | hs := hs <;> simp [Halted, hs]
  refine .of_frame { h.frame with } h.forks .inl ?_ ?_ ?_
  · exact
      { child := by simp [Managed.queueStart, State.HasProcess]
        idle := fun _ => h.children
        pid := h.pid_mem hsound
        startTimer := fun hne => absurd rfl hne
        restartTimer := by simp [Managed.queueStart]
        stopTimer := fun hne => absurd rfl hne }
  · intro hor
    exact hor.elim False.elim fun hand => absurd hand.2 hnot
  · intro _ _ hhalted
    simp [Halted, Managed.queueStart] at hhalted

theorem Reaped.processStopped (h : Reaped m host) (hsound : m.Sound) (hs : m.app.status = .stopping)
    (hstopped : (noteExit ⟨m.app, host⟩ now status readResult).processStopped now fork = .ok (remove, m')) :
    Effect m (.maybeHandleSignal now readResult fork) remove m' := by
  have hstart : m.app.startTimer = none := by
    by_contra hne
    exact absurd (hs.symm.trans (hsound.startTimer hne)) (by decide)
  have hrestart : m.app.restartTimer = none := by
    by_contra hne
    exact absurd (hs.symm.trans (hsound.restartTimer.mp hne)) (by decide)
  unfold Managed.processStopped at hstopped
  dsimp only at hstopped
  split at hstopped
  · rename_i hterminating
    cases hstopped
    exact .of_frame { h.frame with } h.forks .inl (.stopped h.children (h.pid_mem hsound) rfl hstart hrestart rfl)
      (fun _ => .inl rfl) fun _ _ _ => ⟨hterminating, rfl⟩
  · split at hstopped
    · rename_i hqueue
      obtain ⟨m1, hdo, heq⟩ := map_eq_ok.mp hstopped
      cases heq
      refine (doStart_spec hdo ⟨rfl, h.children, h.pid_mem hsound, rfl⟩ h.frame.given).effect { h.frame with } h.forks
        rfl id (.inr ?_)
      replace hqueue : m.app.queueRestart = true := hqueue
      simp [Halted, hs, hqueue]
    · rename_i hqueue
      cases hstopped
      refine .of_frame { h.frame with } h.forks .inl (.stopped h.children (h.pid_mem hsound) rfl hstart hrestart rfl)
        (fun _ => .inl rfl) ?_
      intro _ hor
      exact hor.elim False.elim fun hnot => absurd (.inr ⟨hs, Bool.eq_false_iff.mpr hqueue⟩) hnot

theorem maybeHandleSignal_effect (hsound : m.Sound) (hgiven : m.host.Given)
    (h : m.maybeHandleSignal now readResult fork = .ok (remove, m')) :
    Effect m (.maybeHandleSignal now readResult fork) remove m' := by
  unfold maybeHandleSignal at h
  cases hwait : m.app.pid.bind m.waitpid with
  | none =>
    rw [hwait] at h
    cases h
    exact .of_halted_iff hgiven rfl rfl rfl rfl hsound id id .rfl
  | some r =>
    obtain ⟨status, m1⟩ := r
    obtain ⟨host, rfl, hreaped⟩ := waitpid_spec hsound hgiven hwait
    rw [hwait] at h
    cases hs : m.app.status <;>
      simp only [show (noteExit { m with host } now status readResult).app.status = _ from hs] at h
    · cases h
    · cases h
      exact hreaped.queueStart hsound (.inl hs)
    · cases h
      exact hreaped.queueStart hsound (.inr hs)
    · exact hreaped.processStopped hsound hs h
    · cases h

/-- A child that was waited for belongs to a process that was not stopped yet. -/
theorem maybeHandleSignal_error (hsound : m.Sound) (hgiven : m.host.Given)
    (h : m.maybeHandleSignal now readResult fork = .error e) : e = .notNow := by
  unfold maybeHandleSignal at h
  cases hwait : m.app.pid.bind m.waitpid with
  | none =>
    rw [hwait] at h
    cases h
  | some r =>
    obtain ⟨status, m1⟩ := r
    obtain ⟨host, rfl, hreaped⟩ := waitpid_spec hsound hgiven hwait
    rw [hwait] at h
    obtain hs | hs | hs := hreaped.process <;>
      simp only [show (noteExit { m with host } now status readResult).app.status = _ from hs] at h
    · cases h
    · cases h
    · unfold processStopped at h
      dsimp only at h
      split at h
      · cases h
      · split at h
        · exact doStart_error (map_eq_error.mp h)
        · cases h

/-! ### Everything that is called -/

theorem ne_none_of_expired {timer : Option Int} (h : Expired timer now) : timer ≠ none := by
  intro hnone
  simp [hnone, Expired] at h

section

variable (hsound : m.Sound) (hgiven : m.host.Given)

include hsound hgiven

theorem onStartTimer_effect (hexpired : Expired m.app.startTimer now) :
    Effect m (.startTimer now) false m.onStartTimer := by
  have hs := hsound.startTimer (ne_none_of_expired hexpired)
  have hrestart : m.app.restartTimer = none := by
    by_contra hne
    exact absurd (hs.symm.trans (hsound.restartTimer.mp hne)) (by decide)
  refine .of_halted_iff hgiven rfl rfl rfl rfl ?_ id id (by simp [Halted, onStartTimer, hs])
  exact
    { child := fun _ => hsound.child (.inl hs)
      idle := fun hno => absurd (.inr (.inl rfl)) hno
      pid := hsound.pid
      startTimer := fun hne => absurd rfl hne
      restartTimer := by simp [onStartTimer, hrestart]
      stopTimer := fun hne => absurd (hs.symm.trans (hsound.stopTimer hne)) (by decide) }

theorem onRestartTimer_effect (hexpired : Expired m.app.restartTimer now)
    (h : m.onRestartTimer now fork = .ok m') : Effect m (.restartTimer now fork) false m' := by
  have hs := hsound.restartTimer.mp (ne_none_of_expired hexpired)
  have hidle : m.disableRestart.Idle := { hsound.idle_of_waiting hs with }
  exact (doStart_spec h hidle hgiven).effect (.of_same hgiven rfl rfl rfl) rfl rfl id
    (.inr (by simp [Halted, hs]))

theorem onStopTimer_effect : Effect m (.stopTimer now) false m.onStopTimer :=
  .of_halted_iff hgiven rfl rfl rfl rfl { hsound with stopTimer := fun hne => absurd rfl hne } id id .rfl

theorem call_effect (h : m.call c = .ok (remove, m')) : Effect m c remove m' := by
  cases c with
  | handleCommand cmd now fork =>
    obtain ⟨m1, hcmd, heq⟩ := map_eq_ok.mp h
    cases heq
    cases cmd with
    | start => exact start_effect hsound hgiven hcmd
    | stop => exact ((doStop_false (hsound.setStopReason .stopRequested) hcmd).effect hgiven).of_setStopReason
    | restart => exact (doStop_true (hsound.setStopReason .restartRequested) hgiven hcmd).of_setStopReason
  | terminate now =>
    obtain ⟨m1, hterminate, heq⟩ := map_eq_ok.mp h
    cases heq
    exact terminate_effect hsound hgiven hterminate
  | startTimer now =>
    rw [call] at h
    split at h
    · rename_i hexpired
      cases h
      exact onStartTimer_effect hsound hgiven hexpired
    · cases h
  | restartTimer now fork =>
    rw [call] at h
    split at h
    · rename_i hexpired
      obtain ⟨m1, hstart, heq⟩ := map_eq_ok.mp h
      cases heq
      exact onRestartTimer_effect hsound hgiven hexpired hstart
    · cases h
  | stopTimer now =>
    rw [call] at h
    split at h
    · cases h
      exact onStopTimer_effect hsound hgiven
    · cases h
  | maybeHandleSignal now readResult fork => exact maybeHandleSignal_effect hsound hgiven h

end

theorem doStop_error {restart : Bool} (h : m.doStop restart now fork = .error e) : e = .notNow := by
  unfold doStop at h
  dsimp only at h
  split at h
  · cases h
  · cases h
  · split at h
    · exact doStart_error h
    · cases h
  · cases h
  · split at h
    · exact doStart_error h
    · cases h

theorem call_error (hsound : m.Sound) (hgiven : m.host.Given) (h : m.call c = .error e) : e = .notNow := by
  cases c with
  | handleCommand cmd now fork =>
    replace h := map_eq_error.mp h
    cases cmd with
    | start =>
      unfold handleCommand at h
      dsimp only at h
      split at h
      · exact doStart_error h
      · cases h
      · cases h
      · cases h
      · exact doStart_error h
    | stop | restart => exact doStop_error h
  | terminate now =>
    exact doStop_error (map_eq_error.mp (map_eq_error.mp h))
  | startTimer | stopTimer =>
    rw [call] at h
    split at h
    · cases h
    · exact (Except.error.inj h).symm
  | restartTimer now fork =>
    rw [call] at h
    split at h
    · exact doStart_error (map_eq_error.mp h)
    · exact (Except.error.inj h).symm
  | maybeHandleSignal now readResult fork => exact maybeHandleSignal_error hsound hgiven h

theorem Sound.of_host {app : Application} {h h' : Host} (hs : Sound ⟨app, h⟩)
    (hchildren : h'.childrenOf app.name = h.childrenOf app.name) (hforks : h.forks <+: h'.forks) : Sound ⟨app, h'⟩ :=
  { hs with
    child := fun hp => by simpa only [hchildren] using hs.child hp
    idle := fun hp => hchildren.trans (hs.idle hp)
    pid := fun pid hpid => hforks.subset (hs.pid pid hpid) }

theorem Sound.child_or_waiting (h : m.Sound) (hnot : ¬ m.Halted) :
    m.host.childrenOf m.app.name ≠ [] ∨ m.app.restartTimer ≠ none := by
  by_cases hp : m.app.status.HasProcess
  · obtain ⟨child, hchildren, -⟩ := h.child hp
    exact .inl (by simp [hchildren])
  · refine .inr (h.restartTimer.mpr ?_)
    cases hs : m.app.status with
    | waiting => rfl
    | stopped => exact absurd (.inl hs) hnot
    | starting | running | stopping => simp [hs, State.HasProcess] at hp

end Managed

end RobotCode.Starter
