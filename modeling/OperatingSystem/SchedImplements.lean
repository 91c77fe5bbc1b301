import OperatingSystem.SchedCallbacks
import OperatingSystem.SchedEffect

/-!
# The schedulers on pointers

The callbacks of all seven schedulers on pointers do what the callbacks on lists do, and what the
framework needs of a callback on lists is collected: it frees nobody, leaves the lists of the
processes alone and chooses a candidate.
-/

namespace OperatingSystem.Sched

variable {n : Nat}

/-! ## What a callback leaves alone -/

/-- The running process and the lists of all processes stay, and nobody is freed. -/
structure Sim.Keeps (s after : Sim n) : Prop where
  current : after.current = s.current
  pending : ∀ q, (after.procs q).resourcesToAcquire = (s.procs q).resourcesToAcquire
  holding : ∀ q, (after.procs q).resourcesHolding = (s.procs q).resourcesHolding
  live : ∀ q, s.Live q → after.Live q

namespace Sim

variable {s after last : Sim n}

theorem Keeps.refl (s : Sim n) : s.Keeps s := ⟨rfl, fun _ => rfl, fun _ => rfl, fun _ => id⟩

theorem Keeps.trans (hfirst : s.Keeps after) (hsecond : after.Keeps last) : s.Keeps last where
  current := hsecond.current.trans hfirst.current
  pending := fun q => (hsecond.pending q).trans (hfirst.pending q)
  holding := fun q => (hsecond.holding q).trans (hfirst.holding q)
  live := fun q hq => hsecond.live q (hfirst.live q hq)

theorem keeps_setProcess {p : Fin n} {process : Process}
    (hpending : process.resourcesToAcquire = (s.procs p).resourcesToAcquire)
    (hholding : process.resourcesHolding = (s.procs p).resourcesHolding)
    (hlive : s.Live p → process.status ≠ .exit) : s.Keeps (s.setProcess p process) := by
  have hprocs : ∀ q, (s.setProcess p process).procs q = if q = p then process else s.procs q :=
    fun q => Function.update_apply _ _ _ _
  constructor
  case current => rfl
  case pending =>
    intro q
    rw [hprocs]
    split
    · simp_all
    · rfl
  case holding =>
    intro q
    rw [hprocs]
    split
    · simp_all
    · rfl
  case live =>
    intro q hq
    rw [Live, hprocs]
    split
    next hqp => exact hlive (hqp ▸ hq)
    next => exact hq

theorem keeps_setStatus (s : Sim n) (p : Fin n) {status : ProcessStatus}
    (hstatus : status ≠ .exit) : s.Keeps (s.setStatus p status) :=
  keeps_setProcess rfl rfl fun _ => hstatus

theorem keeps_setPrio (s : Sim n) (p : Fin n) (prio : Nat) : s.Keeps (s.setPrio p prio) :=
  keeps_setProcess rfl rfl id

theorem keeps_setOwner (s : Sim n) (r : Fin NR_RESOURCES) (owner : Option (Fin n)) :
    s.Keeps (s.setOwner r owner) :=
  ⟨rfl, fun _ => rfl, fun _ => rfl, fun _ => id⟩

theorem keeps_setList (s : Sim n) (list : List (Fin n)) (q : Pointers.Queue) :
    s.Keeps (s.setList list q) := by
  refine ⟨s.setList_current list q, ?_, ?_, ?_⟩
  all_goals
    intro p
    simp only [Live, setList_procs]
    try exact id

theorem keeps_block (s : Sim n) (p : Fin n) (r : Fin NR_RESOURCES) : s.Keeps (s.block p r) :=
  (keeps_setStatus s p (by simp)).trans (keeps_setList _ _ (.waitqueue r))

theorem keeps_wake (s : Sim n) (r : Fin NR_RESOURCES) (waiter : Fin n)
    (hwake : s.wake r waiter = .ok after) : s.Keeps after := by
  rw [wake] at hwake
  split at hwake
  · cases hwake
    exact ((keeps_setList s _ (.waitqueue r)).trans (keeps_setStatus _ waiter (by simp))).trans
      (keeps_setList _ _ .readyqueue)
  · cases hwake

end Sim

section Callbacks

variable (s : Sim n) (p : Fin n) (r : Fin NR_RESOURCES)

theorem fcfsAcquire_keeps : s.Keeps (fcfsAcquire s p r).2 := by
  rw [fcfsAcquire]
  split
  · exact s.keeps_setOwner r (some p)
  · exact s.keeps_block p r

theorem pcpAcquire_keeps : s.Keeps (pcpAcquire s p r).2 := by
  rw [pcpAcquire]
  split
  · exact (s.keeps_setOwner r (some p)).trans (Sim.keeps_setPrio _ p MAX_PRIO)
  · exact s.keeps_block p r

theorem pipAcquire_keeps : s.Keeps (pipAcquire s p r).2 := by
  rw [pipAcquire]
  split
  · exact s.keeps_setOwner r (some p)
  · refine Sim.Keeps.trans ?_ (Sim.keeps_block _ p r)
    split
    · exact s.keeps_setPrio _ _
    · exact .refl s

theorem fcfsRelease_keeps {after : Sim n} (hrelease : fcfsRelease s p r = .ok after) :
    s.Keeps after := by
  rw [fcfsRelease] at hrelease
  split at hrelease
  · refine (s.keeps_setOwner r none).trans ?_
    dsimp only at hrelease
    split at hrelease
    · cases hrelease
      exact .refl _
    · exact Sim.keeps_wake _ r _ hrelease
  · cases hrelease

theorem prioRelease_keeps {after : Sim n} (hrelease : prioRelease s p r = .ok after) :
    s.Keeps after := by
  rw [prioRelease] at hrelease
  split at hrelease
  · refine ((s.keeps_setPrio p (s.procs p).prioOrig).trans (Sim.keeps_setOwner _ r none)).trans ?_
    dsimp only at hrelease
    split at hrelease
    · cases hrelease
      exact .refl _
    · exact Sim.keeps_wake _ r _ hrelease
  · cases hrelease

end Callbacks

/-! ## Schedulers on pointers -/

namespace Pointers

/-- The callbacks on pointers do what those on lists do, in the states in which the framework
calls them. The guard is on the states in which the scheduler is called. -/
structure Implements (code : Scheduler n) (sched : Sched.Scheduler n) (Guard : Sim n → Prop) :
    Prop where
  schedule : ∀ {m s}, Shows m s → s.Queued → Pc.Shaped s .iterate → Guard s →
    Agrees SameChoice (code.schedule m) (sched.schedule s)
  chosen : ∀ {s next after}, s.Queued → Guard s → sched.schedule s = .ok (next, after) →
    ∃ queue, after = { s with readyqueue := queue } ∧ ∀ p, next = some p → p ∈ s.candidates
  acquire : ∀ {m s p} r, Shows m s → s.Queued → s.Owned → s.Runs p →
    ∃ after, code.acquire m r = .ok ((sched.acquire s p r).1, after) ∧
      Shows after (sched.acquire s p r).2
  acquire_keeps : ∀ (s : Sim n) p r, s.Keeps (sched.acquire s p r).2
  release : ∀ {m s p} r, Shows m s → s.Runs p →
    Agrees Shows (code.release m r) (sched.release s p r)
  release_keeps : ∀ {s after : Sim n} {p r}, sched.release s p r = .ok after → s.Keeps after

section Instances

variable {s : Sim n}

theorem live_of_runs {p : Fin n} (hruns : s.Runs p) : s.Live p := by
  simp [Sim.Live, hruns.2]

theorem current_live (hqueued : s.Queued) (hshaped : Pc.Shaped s .iterate) (p : Fin n)
    (hcurrent : s.current = some p) : s.Live p := by
  rw [Sim.Live]
  rcases current_status hqueued hshaped hcurrent with hstatus | hstatus <;> simp [hstatus]

theorem owner_live (howned : s.Owned) {r : Fin NR_RESOURCES} (q : Fin n)
    (howner : (s.resources r).owner = some q) : s.Live q := by
  intro hexit
  have hheld := (howned.owner r q).mp howner
  simp [Process.held, howned.exited q hexit] at hheld

theorem chosen_of_lawful {sched : Sched.Scheduler n} {policy : Policy n}
    (hlaw : Lawful sched policy) {next : Option (Fin n)} {after : Sim n} (hqueued : s.Queued)
    (hschedule : sched.schedule s = .ok (next, after)) :
    ∃ queue, after = { s with readyqueue := queue } ∧ ∀ p, next = some p → p ∈ s.candidates := by
  obtain ⟨next', queue, heq, hchosen⟩ := hlaw.schedule s fun q hq => (hqueued.ready q hq).2
  rw [heq, Except.ok.injEq, Prod.mk.injEq] at hschedule
  obtain ⟨rfl, rfl⟩ := hschedule
  exact ⟨queue, rfl, fun p hp => hchosen.perm.mem_iff.mp (by simp [hp])⟩

theorem chosen_of_blind {sched : Sched.Scheduler n} (hblind : Blind sched)
    {next : Option (Fin n)} {after : Sim n} (hqueued : s.Queued) (hdone : s.BlockedDone)
    (hschedule : sched.schedule s = .ok (next, after)) :
    ∃ queue, after = { s with readyqueue := queue } ∧ ∀ p, next = some p → p ∈ s.candidates := by
  rcases hblind.chosen s (fun q hq => (hqueued.ready q hq).2) hdone with
    herror | ⟨next', queue, hpicks⟩
  · rw [herror] at hschedule
    cases hschedule
  · have heq := hpicks.schedule
    rw [heq, Except.ok.injEq, Prod.mk.injEq] at hschedule
    obtain ⟨rfl, rfl⟩ := hschedule
    exact ⟨queue, rfl, fun p hp => hpicks.chosen.perm.mem_iff.mp (by simp [hp])⟩

/-- An unfinished process that is scheduled again is on no queue. -/
theorem unfinished_not_linked (hqueued : s.Queued) (hshaped : Pc.Shaped s .iterate)
    (hdone : s.BlockedDone) (p : Fin n) (hcurrent : s.current = some p)
    (hage : (s.procs p).age < (s.procs p).lifespan) : ¬ s.linked p := by
  rcases current_status hqueued hshaped hcurrent with hrun | hwait
  · exact hqueued.not_linked hrun
  · exact absurd (hdone p hcurrent hwait) (not_le.mpr hage)

theorem fifo_implements :
    Implements (fifoScheduler : Scheduler n) Sched.fifoScheduler fun _ => True where
  schedule := fun hshows hqueued hshaped _ =>
    fifoSchedule_agrees hshows (current_live hqueued hshaped)
  chosen := fun hqueued _ => chosen_of_lawful fifoScheduler_lawful hqueued
  acquire := fun r hshows hqueued _ hruns =>
    fcfsAcquire_shows hshows hruns.1 (live_of_runs hruns) (hqueued.not_linked hruns.2) r
  acquire_keeps := fcfsAcquire_keeps
  release := fun _ hshows hruns => fcfsRelease_agrees hshows hruns.1
  release_keeps := fcfsRelease_keeps _ _ _

/-- The schedulers that run `prio_schedule`. -/
theorem prioSchedule_shows {m : Memory n} (hshows : Shows m s) (hqueued : s.Queued)
    (hshaped : Pc.Shaped s .iterate) :
    Agrees SameChoice (prioSchedule m) (Sched.prioSchedule s) :=
  prioSchedule_agrees hshows (current_live hqueued hshaped) fun _ hrunning =>
    hqueued.not_linked (status_of_running hqueued hshaped hrunning)

theorem prio_implements :
    Implements (prioScheduler : Scheduler n) Sched.prioScheduler fun _ => True :=
  { fifo_implements with
    schedule := fun hshows hqueued hshaped _ => prioSchedule_shows hshows hqueued hshaped
    chosen := fun hqueued _ => chosen_of_lawful prioScheduler_lawful hqueued }

theorem pcp_implements :
    Implements (pcpScheduler : Scheduler n) Sched.pcpScheduler fun _ => True where
  schedule := fun hshows hqueued hshaped _ => prioSchedule_shows hshows hqueued hshaped
  chosen := fun hqueued _ => chosen_of_lawful pcpScheduler_lawful hqueued
  acquire := fun r hshows hqueued _ hruns =>
    pcpAcquire_shows hshows hruns.1 (live_of_runs hruns) (hqueued.not_linked hruns.2) r
  acquire_keeps := pcpAcquire_keeps
  release := fun _ hshows hruns => prioRelease_agrees hshows hruns.1 (live_of_runs hruns)
  release_keeps := prioRelease_keeps _ _ _

theorem pip_implements :
    Implements (pipScheduler : Scheduler n) Sched.pipScheduler fun _ => True :=
  { pcp_implements with
    chosen := fun hqueued _ => chosen_of_lawful pipScheduler_lawful hqueued
    acquire := fun r hshows hqueued howned hruns =>
      pipAcquire_shows hshows hruns.1 (live_of_runs hruns) (hqueued.not_linked hruns.2) r
        fun q => owner_live howned q
    acquire_keeps := pipAcquire_keeps }

theorem sjf_implements :
    Implements (sjfScheduler : Scheduler n) Sched.sjfScheduler Sim.BlockedDone :=
  { fifo_implements with
    schedule := fun hshows hqueued hshaped _ =>
      sjfSchedule_agrees hshows (current_live hqueued hshaped)
    chosen := fun hqueued hdone => chosen_of_blind sjfScheduler_blind hqueued hdone }

theorem srtf_implements :
    Implements (srtfScheduler : Scheduler n) Sched.srtfScheduler Sim.BlockedDone :=
  { fifo_implements with
    schedule := fun hshows hqueued hshaped hdone =>
      srtfSchedule_agrees hshows (current_live hqueued hshaped)
        (unfinished_not_linked hqueued hshaped hdone)
    chosen := fun hqueued hdone => chosen_of_blind srtfScheduler_blind hqueued hdone }

theorem rr_implements :
    Implements (rrScheduler : Scheduler n) Sched.rrScheduler Sim.BlockedDone :=
  { fifo_implements with
    schedule := fun hshows hqueued hshaped hdone =>
      rrSchedule_agrees hshows (current_live hqueued hshaped)
        (unfinished_not_linked hqueued hshaped hdone)
    chosen := fun hqueued hdone => chosen_of_blind rrScheduler_blind hqueued hdone }

end Instances

end Pointers

end OperatingSystem.Sched
