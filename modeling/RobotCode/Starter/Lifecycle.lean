import RobotCode.Starter.Calls

/-!
# The life of an application's process

The applications of a host in any order of calls, while their processes end whenever they like. What a call does to
one application the others do not notice, so what `Effect` says of a call holds of every event of a run, and an
induction over the events gives the life of each application.
-/

namespace RobotCode.Starter

open List Fallible

/-! ### Runs -/

def Event.Starts (n : String) : Event → Prop
  | .call name c => name = n ∧ c.Starts
  | .exits _ _ => False

/-- A command to stop the application, or `Terminate`. -/
def Event.Stops (n : String) : Event → Prop
  | .call name c => name = n ∧ c.Stops
  | .exits _ _ => False

theorem Event.Starts.not_stops {n : String} {e : Event} (h : e.Starts n) : ¬ e.Stops n := by
  cases e with
  | exits => exact id
  | call name c =>
    cases c with
    | handleCommand cmd =>
      obtain ⟨-, rfl | rfl⟩ := h <;> simp [Event.Stops, Managed.Call.Stops]
    | terminate | startTimer | restartTimer | stopTimer | maybeHandleSignal => exact h.2.elim

namespace Applications

structure Sound (s : Applications) : Prop where
  given : s.host.Given
  name : ∀ n, (s.apps n).name = n
  view : ∀ n, (s.view n).Sound

structure Effect (s : Applications) (n : String) (e : Event) (s' : Applications) : Prop where
  terminating : (s'.apps n).terminating = true →
    (s.apps n).terminating = true ∨ ∃ now, e = .call n (.terminate now)
  stops : e.Stops n ∨ ¬ e.Starts n ∧ (s.view n).Halted →
    (s'.view n).Halted ∧ s'.host.forksOf n = s.host.forksOf n
  starts : ¬ e.Stops n → e.Starts n ∨ ¬ (s.view n).Halted → (s'.view n).Halted →
    s'.host.forksOf n = s.host.forksOf n ++ [none] ∨
      (s.apps n).terminating = true ∧ s.removed.count n < s'.removed.count n
  forks : s.host.forksOf n <+: s'.host.forksOf n
  removed : s.removed <+: s'.removed

variable {s s' : Applications} {e : Event}

theorem Effect.of_same {n : String} (happ : s'.apps n = s.apps n) (hforks : s'.host.forksOf n = s.host.forksOf n)
    (hstarts : ¬ e.Starts n) (hstops : ¬ e.Stops n) (hremoved : s.removed <+: s'.removed) : Effect s n e s' where
  terminating ht := .inl (happ ▸ ht)
  stops hor := by
    unfold Managed.Halted view at *
    rw [happ]
    exact ⟨(hor.resolve_left hstops).2, hforks⟩
  starts _ hor hhalted := by
    unfold Managed.Halted view at *
    rw [happ] at hhalted
    exact absurd hhalted (hor.resolve_left hstarts)
  forks := hforks ▸ prefix_rfl
  removed := hremoved

section

variable (s : Applications) (name : String) (remove : Bool) (m : Managed)

theorem put_removed : s.removed <+: (s.put name remove m).removed := by
  unfold put
  cases remove with
  | false => exact prefix_rfl
  | true => exact prefix_append _ _

theorem put_self : (s.put name remove m).view name = m := by
  simp [put, view]

end

variable {name : String}

theorem put_sound {c : Managed.Call} {remove : Bool} {m : Managed} (hs : s.Sound)
    (h : Managed.Effect (s.view name) c remove m) : (s.put name remove m).Sound := by
  have hname : m.app.name = name := h.frame.name.trans (hs.name name)
  refine ⟨h.frame.given, ?_, ?_⟩
  · intro n
    by_cases hn : n = name
    · subst hn
      simpa [put] using hname
    · simpa [put, hn] using hs.name n
  · intro n
    by_cases hn : n = name
    · subst hn
      rw [put_self]
      exact h.sound
    · rw [show (s.put name remove m).view n = ⟨s.apps n, m.host⟩ by simp [put, view, hn]]
      have hne : (s.apps n).name ≠ (s.view name).app.name := by
        rw [hs.name n]
        exact fun heq => hn (heq.trans (hs.name name))
      exact (hs.view n).of_host (h.frame.others _ hne).1 h.frame.forks

theorem put_effect {c : Managed.Call} {remove : Bool} {m : Managed} (hs : s.Sound)
    (h : Managed.Effect (s.view name) c remove m) (n : String) : Effect s n (.call name c) (s.put name remove m) := by
  have hremoved := put_removed s name remove m
  by_cases hn : n = name
  · subst hn
    have hname : (s.view n).app.name = n := hs.name n
    have happ : (s.put n remove m).apps n = m.app := congrArg Managed.app (put_self s n remove m)
    refine ⟨?_, ?_, ?_, ?_, hremoved⟩
    · intro ht
      rw [happ] at ht
      obtain ht | ⟨now, rfl⟩ := h.terminating ht
      · exact .inl ht
      · exact .inr ⟨now, rfl⟩
    · intro hor
      have hstops := h.stops (by simpa [Event.Stops, Event.Starts] using hor)
      rw [hname] at hstops
      rw [put_self]
      exact hstops
    · intro hc hor hhalted
      rw [put_self] at hhalted
      have hstarts := h.starts (by simpa [Event.Stops] using hc) (by simpa [Event.Starts] using hor) hhalted
      rw [hname] at hstarts
      refine hstarts.imp id ?_
      intro hand
      refine ⟨hand.1, ?_⟩
      simp [put, hand.2]
    · exact (h.frame.forks.filter _).map _
  · have hne : n ≠ (s.view name).app.name := fun heq => hn (heq.trans (hs.name name))
    exact .of_same (Function.update_of_ne hn _ _) (h.frame.others n hne).2 (fun hc => hn hc.1.symm)
      (fun hc => hn hc.1.symm) hremoved

theorem exits_childrenOf (s : Applications) (pid : Pid) (status : WaitStatus) (n : String) :
    (s.exits pid status).host.childrenOf n =
      (s.host.childrenOf n).map fun c => if c.pid = pid then { c with ended := some status } else c := by
  unfold exits Host.childrenOf
  rw [filter_map]
  congr 2
  funext c
  by_cases hc : c.pid = pid <;> simp [hc]

theorem exits_sound (hs : s.Sound) (pid : Pid) (status : WaitStatus) : (s.exits pid status).Sound := by
  refine ⟨⟨?_, hs.given.unique⟩, hs.name, ?_⟩
  · intro c hc
    obtain ⟨c0, hc0, rfl⟩ := mem_map.mp hc
    have hforked := hs.given.forked c0 hc0
    by_cases hpid : c0.pid = pid
    · rw [if_pos hpid]
      exact hforked
    · rw [if_neg hpid]
      exact hforked
  · intro n
    have hview := hs.view n
    have hmap := exits_childrenOf s pid status (s.apps n).name
    refine { hview with child := fun hp => ?_, idle := fun hp => ?_ }
    · obtain ⟨c, hchildren, hc⟩ := hview.child hp
      refine ⟨_, hmap.trans (congrArg _ hchildren), hc.trans ?_⟩
      dsimp only
      split <;> rfl
    · exact hmap.trans (congrArg _ (hview.idle hp))

theorem step_spec (hs : s.Sound) (h : s.step e = .ok s') : s'.Sound ∧ ∀ n, Effect s n e s' := by
  cases e with
  | call name c =>
    obtain ⟨⟨remove, m⟩, hcall, rfl⟩ := map_eq_ok.mp h
    have heffect := Managed.call_effect (hs.view name) hs.given hcall
    exact ⟨put_sound hs heffect, put_effect hs heffect⟩
  | exits pid status =>
    rw [step] at h
    split at h
    · cases h
      exact ⟨exits_sound hs pid status, fun n => .of_same rfl rfl id id prefix_rfl⟩
    · cases h

theorem step_error {stop : Stop} (hs : s.Sound) (h : s.step e = .error stop) : stop = .notNow := by
  cases e with
  | call name c => exact Managed.call_error (hs.view name) hs.given (map_eq_error.mp h)
  | exits pid status =>
    rw [step] at h
    split at h
    · cases h
    · exact (Except.error.inj h).symm

theorem initial_sound : initial.Sound where
  given := ⟨fun _ hc => absurd hc not_mem_nil, fun _ _ _ h => absurd h not_mem_nil⟩
  name _ := rfl
  view _ := .stopped rfl (fun _ hpid => absurd hpid (by simp [initial, view])) rfl rfl rfl rfl

variable {events : List Event}

theorem run_sound (hs : s.Sound) (h : s.run events = .ok s') : s'.Sound := by
  induction events generalizing s with
  | nil =>
    cases h
    exact hs
  | cons e events ih =>
    obtain ⟨s1, hstep, hrun⟩ := bind_eq_ok.mp h
    exact ih (step_spec hs hstep).1 hrun

theorem run_error {stop : Stop} (hs : s.Sound) (h : s.run events = .error stop) : stop = .notNow := by
  induction events generalizing s with
  | nil => cases h
  | cons e events ih =>
    rw [run, foldlM_cons] at h
    cases hstep : s.step e with
    | error stop' =>
      rw [hstep] at h
      cases h
      exact step_error hs hstep
    | ok s1 =>
      rw [hstep] at h
      exact ih (step_spec hs hstep).1 h

theorem run_singleton : s.run [e] = s.step e := by
  rw [run, foldlM_cons]
  exact bind_pure _

theorem run_append {before after : List Event} (h : s.run (before ++ after) = .ok s') :
    ∃ s1, s.run before = .ok s1 ∧ s1.run after = .ok s' := by
  rw [run, foldlM_append] at h
  exact bind_eq_ok.mp h

variable {n : String}

section

variable (hs : s.Sound) (h : s.run events = .ok s')

include hs h

theorem run_grows : s.host.forksOf n <+: s'.host.forksOf n ∧ s.removed <+: s'.removed := by
  induction events generalizing s with
  | nil =>
    cases h
    exact ⟨prefix_rfl, prefix_rfl⟩
  | cons e events ih =>
    obtain ⟨s1, hstep, hrun⟩ := bind_eq_ok.mp h
    obtain ⟨hs1, heffect⟩ := step_spec hs hstep
    obtain ⟨hforks, hremoved⟩ := ih hs1 hrun
    exact ⟨(heffect n).forks.trans hforks, (heffect n).removed.trans hremoved⟩

theorem run_terminating (ht : (s'.apps n).terminating = true) :
    (s.apps n).terminating = true ∨ ∃ now, .call n (.terminate now) ∈ events := by
  induction events generalizing s with
  | nil =>
    cases h
    exact .inl ht
  | cons e events ih =>
    obtain ⟨s1, hstep, hrun⟩ := bind_eq_ok.mp h
    obtain ⟨hs1, heffect⟩ := step_spec hs hstep
    obtain ht1 | ⟨now, hmem⟩ := ih hs1 hrun
    · obtain ht0 | ⟨now, rfl⟩ := (heffect n).terminating ht1
      · exact .inl ht0
      · exact .inr ⟨now, mem_cons_self⟩
    · exact .inr ⟨now, mem_cons_of_mem _ hmem⟩

theorem run_halted (hstarts : ∀ e ∈ events, ¬ e.Starts n)
    (hhalted : (s.view n).Halted) : s'.host.forksOf n = s.host.forksOf n := by
  induction events generalizing s with
  | nil =>
    cases h
    rfl
  | cons e events ih =>
    obtain ⟨s1, hstep, hrun⟩ := bind_eq_ok.mp h
    obtain ⟨hs1, heffect⟩ := step_spec hs hstep
    obtain ⟨hhalted1, hforks⟩ := (heffect n).stops (.inr ⟨hstarts e mem_cons_self, hhalted⟩)
    exact (ih hs1 hrun (fun e he => hstarts e (mem_cons_of_mem _ he)) hhalted1).trans hforks

theorem run_started (hstops : ∀ e ∈ events, ¬ e.Stops n)
    (hstarts : (∃ e ∈ events.head?, e.Starts n) ∨ ¬ (s.view n).Halted)
    (hforks : ∀ fork ∈ (s'.host.forksOf n).drop (s.host.forksOf n).length, fork ≠ none) :
    ¬ (s'.view n).Halted ∨ (s.apps n).terminating = true ∧ s.removed.count n < s'.removed.count n := by
  induction events generalizing s with
  | nil =>
    cases h
    exact .inl (hstarts.resolve_left (by simp))
  | cons e events ih =>
    obtain ⟨s1, hstep, hrun⟩ := bind_eq_ok.mp h
    obtain ⟨hs1, heffect⟩ := step_spec hs hstep
    obtain ⟨hforks1, hremoved1⟩ := run_grows (n := n) hs1 hrun
    have hnot : ¬ e.Stops n := hstops e mem_cons_self
    by_cases hhalted : (s1.view n).Halted
    · obtain hfailed | ⟨hterminating, hcount⟩ := (heffect n).starts hnot (by simpa using hstarts) hhalted
      · obtain ⟨rest, hrest⟩ := hforks1
        refine absurd rfl (hforks none ?_)
        rw [← hrest, hfailed, append_assoc, drop_left]
        exact mem_append_left _ mem_cons_self
      · exact .inr ⟨hterminating, hcount.trans_le (hremoved1.sublist.count_le n)⟩
    · have hforks' : ∀ fork ∈ (s'.host.forksOf n).drop (s1.host.forksOf n).length, fork ≠ none := by
        intro fork hfork
        exact hforks fork ((drop_sublist_drop_left _ (heffect n).forks.length_le).subset hfork)
      have hstops' : ∀ e ∈ events, ¬ e.Stops n := fun e he => hstops e (mem_cons_of_mem _ he)
      refine (ih hs1 hrun hstops' (.inr hhalted) hforks').imp id ?_
      intro hand
      refine ⟨?_, ((heffect n).removed.sublist.count_le n).trans_lt hand.2⟩
      obtain ht | ⟨now, rfl⟩ := (heffect n).terminating hand.1
      · exact ht
      · exact absurd ⟨rfl, trivial⟩ hnot

end

end Applications

open Applications in
/-- The life of each application, over every run of all of them. -/
theorem application_lifecycle (events : List Event) (n : String) :
    initial.run events ≠ .error .alreadyStopped ∧
      ∀ s, initial.run events = .ok s →
        (s.host.childrenOf n).length ≤ 1 ∧
        ((s.apps n).status.HasProcess ↔ s.host.childrenOf n ≠ []) ∧
        ((s.apps n).startTimer ≠ none → (s.apps n).status = .starting) ∧
        ((s.apps n).restartTimer ≠ none → (s.apps n).status = .waiting) ∧
        ((s.apps n).stopTimer ≠ none → (s.apps n).status = .stopping) ∧
        (∀ before e after s₁, events = before ++ e :: after → e.Stops n → (∀ e ∈ after, ¬ e.Starts n) →
          initial.run (before ++ [e]) = .ok s₁ → s.host.forksOf n = s₁.host.forksOf n) ∧
        (∀ before e after s₀, events = before ++ e :: after → e.Starts n → (∀ e ∈ after, ¬ e.Stops n) →
          initial.run before = .ok s₀ →
          (∀ fork ∈ (s.host.forksOf n).drop (s₀.host.forksOf n).length, fork ≠ none) →
          s.host.childrenOf n ≠ [] ∨ (s.apps n).restartTimer ≠ none ∨
            (∃ now, .call n (.terminate now) ∈ before) ∧ s₀.removed.count n < s.removed.count n) := by
  refine ⟨fun herror => absurd (run_error initial_sound herror) (by decide), ?_⟩
  intro s hrun
  have hs := run_sound initial_sound hrun
  have hview := hs.view n
  have hname : (s.apps n).name = n := hs.name n
  have hchild := hview.child
  have hidle := hview.idle
  simp only [view, hname] at hchild hidle
  refine ⟨?_, ?_, hview.startTimer, hview.restartTimer.mp, hview.stopTimer, ?_, ?_⟩
  · by_cases hp : (s.apps n).status.HasProcess
    · obtain ⟨c, hchildren, -⟩ := hchild hp
      simp [hchildren]
    · simp [hidle hp]
  · refine ⟨fun hp => ?_, not_imp_comm.mp hidle⟩
    obtain ⟨c, hchildren, -⟩ := hchild hp
    simp [hchildren]
  · intro before e after s₁ hevents hstops hstarts hbefore
    rw [hevents, append_cons] at hrun
    obtain ⟨s1', hbefore', hafter⟩ := run_append hrun
    obtain rfl := Except.ok.inj (hbefore.symm.trans hbefore')
    obtain ⟨s₀, hbefore0, hstep⟩ := run_append hbefore
    rw [run_singleton] at hstep
    have heffect := (step_spec (run_sound initial_sound hbefore0) hstep).2 n
    exact run_halted (run_sound initial_sound hbefore) hafter hstarts (heffect.stops (.inl hstops)).1
  · intro before e after s₀ hevents hstarts hstops hbefore hforks
    rw [hevents] at hrun
    obtain ⟨s0', hbefore', hafter⟩ := run_append hrun
    obtain rfl := Except.ok.inj (hbefore.symm.trans hbefore')
    have hnotStops : ∀ e' ∈ e :: after, ¬ e'.Stops n := by
      intro e' he'
      obtain rfl | he' := mem_cons.mp he'
      · exact hstarts.not_stops
      · exact hstops e' he'
    obtain hnot | ⟨hterminating, hcount⟩ :=
      run_started (run_sound initial_sound hbefore) hafter hnotStops (.inl ⟨e, rfl, hstarts⟩) hforks
    · have hor := hview.child_or_waiting hnot
      simp only [view, hname] at hor
      exact hor.imp id .inl
    · refine .inr (.inr ⟨?_, hcount⟩)
      exact (run_terminating initial_sound hbefore hterminating).resolve_left (by simp [initial])

/-- A process that ends by itself is started again, and one that is stopped is not. -/
theorem application_lifecycle_stopped :
    ∃ s, Applications.initial.run
        [.call "joystick_reader" (.handleCommand .start 0 (some 7)), .exits 7 (.exited 1),
          .call "joystick_reader" (.maybeHandleSignal 5 none none),
          .call "joystick_reader" (.restartTimer 3000000005 (some 8)),
          .call "joystick_reader" (.handleCommand .stop 3000000006 none), .exits 8 (.signaled 2),
          .call "joystick_reader" (.maybeHandleSignal 3000000007 none (some 9))] = .ok s ∧
      s.host.forksOf "joystick_reader" = [some 7, some 8] ∧
      ((s.apps "joystick_reader").status.HasProcess ↔ s.host.childrenOf "joystick_reader" ≠ []) := by
  exact Exists.imp (fun s (hs : _ = _ ∧ _ = _) => ⟨hs.1, hs.2, ((application_lifecycle _ "joystick_reader").2 s hs.1).2.1⟩)
    (by decide +kernel)

/-- After `Terminate` a command to start does not bring the application back: there is neither a child nor a timer. -/
theorem terminated_not_restarted :
    ∃ s, Applications.initial.run
        [.call "joystick_reader" (.handleCommand .start 0 (some 7)), .call "joystick_reader" (.terminate 1),
          .call "joystick_reader" (.handleCommand .start 2 none), .exits 7 (.signaled 2),
          .call "joystick_reader" (.maybeHandleSignal 3 none none)] = .ok s ∧
      s.host.forksOf "joystick_reader" = [some 7] ∧ s.host.childrenOf "joystick_reader" = [] ∧
      (s.apps "joystick_reader").restartTimer = none := by
  decide +kernel

end RobotCode.Starter
