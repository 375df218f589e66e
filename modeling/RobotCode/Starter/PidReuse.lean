import RobotCode.Starter.Lifecycle

/-!
# Process ids that are used again

The kernel may give a new child the id of one that was waited for. An application goes on asking for the id of its
last child, so it takes the exit of another application's child once that has the same id.
-/

namespace RobotCode.Starter

/-- An event of the starter, or the kernel forgets that it gave out an id. -/
inductive KernelEvent where
  | starter (event : Event)
  | recycle (pid : Pid)

namespace Applications

variable (s : Applications)

/-- `fork` can return the process id again. -/
def recycle (pid : Pid) : Applications :=
  { s with host := { s.host with forks := s.host.forks.filter (·.2 ≠ some pid) } }

def kernelStep : KernelEvent → Except Stop Applications
  | .starter event => s.step event
  | .recycle pid => if ∃ c ∈ s.host.children, c.pid = pid then .error .notNow else .ok (s.recycle pid)

def kernelRun (events : List KernelEvent) : Except Stop Applications := events.foldlM kernelStep s

/-- The child that `MaybeHandleSignal` of an application finds was forked by it. -/
def HandledByOwner : Prop :=
  ∀ n pid c, (s.apps n).pid = some pid → s.host.children.find? (·.pid = pid) = some c → c.owner = n

/-- The kernel does not give out an id that an application remembers. -/
def Forgotten : Applications → List KernelEvent → Prop
  | _, [] => True
  | s, .starter event :: events => ∀ s', s.step event = .ok s' → Forgotten s' events
  | s, .recycle pid :: events => (∀ n, (s.apps n).pid ≠ some pid) ∧ Forgotten (s.recycle pid) events

variable {s} {pid : Pid}

theorem recycle_sound (hs : s.Sound) (hchildren : ∀ c ∈ s.host.children, c.pid ≠ pid)
    (hforgotten : ∀ n, (s.apps n).pid ≠ some pid) : (s.recycle pid).Sound := by
  have hmem : ∀ n q, (n, some q) ∈ s.host.forks → q ≠ pid → (n, some q) ∈ (s.recycle pid).host.forks := by
    intro n q hq hne
    exact List.mem_filter.mpr ⟨hq, by simpa using hne⟩
  refine ⟨⟨?_, ?_⟩, hs.name, ?_⟩
  · intro c hc
    exact hmem _ _ (hs.given.forked c hc) (hchildren c hc)
  · intro q n n' hn hn'
    exact hs.given.unique q n n' (List.mem_of_mem_filter hn) (List.mem_of_mem_filter hn')
  · intro n
    refine { hs.view n with pid := fun q hq => hmem _ _ ((hs.view n).pid q hq) ?_ }
    rintro rfl
    exact hforgotten n hq

theorem Sound.handledByOwner (hs : s.Sound) : s.HandledByOwner := by
  intro n pid c hpid hfind
  have hforked := hs.given.forked c (List.mem_of_find?_eq_some hfind)
  have hremembered := (hs.view n).pid pid hpid
  have hc : c.pid = pid := by simpa using List.find?_some hfind
  rw [hc] at hforked
  exact (hs.given.unique pid _ _ hforked hremembered).trans (hs.name n)

theorem kernelRun_sound {events : List KernelEvent} (hs : s.Sound) (hforgotten : Forgotten s events) :
    s.kernelRun events ≠ .error .alreadyStopped ∧ ∀ s', s.kernelRun events = .ok s' → s'.Sound := by
  induction events generalizing s with
  | nil => exact ⟨nofun, fun s' h => Except.ok.inj h ▸ hs⟩
  | cons e events ih =>
    rw [kernelRun, List.foldlM_cons]
    cases e with
    | starter event =>
      rw [kernelStep]
      cases hstep : s.step event with
      | error stop =>
        obtain rfl := step_error hs hstep
        exact ⟨nofun, nofun⟩
      | ok s1 => exact ih (step_spec hs hstep).1 (hforgotten s1 hstep)
    | recycle pid =>
      rw [kernelStep]
      split
      · exact ⟨nofun, nofun⟩
      · rename_i hchildren
        exact ih (recycle_sound hs (fun c hc hpid => hchildren ⟨c, hc, hpid⟩) hforgotten.1) hforgotten.2

end Applications

end RobotCode.Starter
