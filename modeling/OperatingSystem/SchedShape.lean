import OperatingSystem.SchedLawful

/-!
# The shape of a simulation

Where the processes are, by status, and which resources they own. A process is on the
fork queue or the ready queue with status ready, on the wait queue of the resource
that it requests with status wait, and on no queue while it runs; the owner of a
resource is the process that holds an entry for it.
-/

namespace OperatingSystem.Sched

variable {n : Nat}

/-- The resource of the first pending entry whose age has come. -/
def Process.request (process : Process) : Option (Fin NR_RESOURCES) :=
  (process.resourcesToAcquire.find? fun rs => rs.atAge = process.age).map fun rs => rs.resourceId

/-- The resources of the entries that are held. -/
def Process.held (process : Process) : List (Fin NR_RESOURCES) :=
  process.resourcesHolding.map fun rs => rs.resourceId

structure Sim.Queued (s : Sim n) : Prop where
  forkNodup : s.forkqueue.Nodup
  readyNodup : s.readyqueue.Nodup
  waitNodup : ∀ r, (s.resources r).waitqueue.Nodup
  disjoint : ∀ p ∈ s.forkqueue, p ∉ s.readyqueue
  fork : ∀ p ∈ s.forkqueue, (s.procs p).status = .ready ∧
    (s.procs p).age ≤ (s.procs p).lifespan ∧ (s.procs p).resourcesHolding = []
  ready : ∀ p ∈ s.readyqueue, (s.procs p).status = .ready ∧
    (s.procs p).age ≤ (s.procs p).lifespan
  wait : ∀ r, ∀ p ∈ (s.resources r).waitqueue, (s.procs p).status = .wait ∧
    (s.procs p).age ≤ (s.procs p).lifespan ∧ (s.procs p).request = some r

structure Sim.Owned (s : Sim n) : Prop where
  owner : ∀ r p, (s.resources r).owner = some p ↔ r ∈ (s.procs p).held
  nodup : ∀ p, (s.procs p).held.Nodup
  exited : ∀ p, (s.procs p).status = .exit → (s.procs p).resourcesHolding = []

def Sim.Runs (s : Sim n) (p : Fin n) : Prop :=
  s.current = some p ∧ (s.procs p).status = .running

/-- What holds of the running process at each loop head. -/
def Pc.Shaped (s : Sim n) : Pc n → Prop
  | .iterate => ∀ p, s.current = some p →
      (s.procs p).status = .running ∨ ∃ r, p ∈ (s.resources r).waitqueue
  | .acquire p skipped todo => s.Runs p ∧ (s.procs p).resourcesToAcquire = skipped ++ todo ∧
      (∀ rs ∈ skipped, rs.atAge ≠ (s.procs p).age) ∧ (s.procs p).age ≤ (s.procs p).lifespan
  | .release p kept todo => s.Runs p ∧ (s.procs p).resourcesHolding = kept ++ todo
  | .finished => True
  | .failed _ => True

structure Config.WellFormed (c : Config n) : Prop where
  queued : c.sim.Queued
  owned : c.sim.Owned
  shaped : c.pc.Shaped c.sim

/-! ## Running processes are on no queue -/

theorem Sim.Queued.not_linked {s : Sim n} (hqueued : s.Queued) {p : Fin n}
    (hrunning : (s.procs p).status = .running) : ¬ s.linked p := by
  rintro (hfork | hready | ⟨r, hwait⟩)
  · exact absurd (hqueued.fork p hfork).1 (by simp [hrunning])
  · exact absurd (hqueued.ready p hready).1 (by simp [hrunning])
  · exact absurd (hqueued.wait r p hwait).1 (by simp [hrunning])

/-- The queues stay well formed when only a running process changes. -/
theorem Sim.Queued.of_running {s after : Sim n} (hqueued : s.Queued) {p : Fin n}
    (hrunning : (s.procs p).status = .running) (hfork : after.forkqueue = s.forkqueue)
    (hready : after.readyqueue = s.readyqueue)
    (hwait : ∀ r, (after.resources r).waitqueue = (s.resources r).waitqueue)
    (hsame : ∀ q, q ≠ p → after.procs q = { s.procs q with prio := (after.procs q).prio }) :
    after.Queued := by
  have hne : ∀ {q}, s.linked q → q ≠ p := fun hlinked heq =>
    hqueued.not_linked hrunning (heq ▸ hlinked)
  constructor
  case forkNodup => rw [hfork]; exact hqueued.forkNodup
  case readyNodup => rw [hready]; exact hqueued.readyNodup
  case waitNodup => intro r; rw [hwait]; exact hqueued.waitNodup r
  case disjoint => rw [hfork, hready]; exact hqueued.disjoint
  case fork =>
    intro q hq
    rw [hfork] at hq
    rw [hsame q (hne (.inl hq))]
    exact hqueued.fork q hq
  case ready =>
    intro q hq
    rw [hready] at hq
    rw [hsame q (hne (.inr (.inl hq)))]
    exact hqueued.ready q hq
  case wait =>
    intro r q hq
    rw [hwait] at hq
    rw [hsame q (hne (.inr (.inr ⟨r, hq⟩)))]
    exact hqueued.wait r q hq

theorem Sim.Owned.congr {s after : Sim n} (howned : s.Owned)
    (howner : ∀ r, (after.resources r).owner = (s.resources r).owner)
    (hheld : ∀ q, (after.procs q).held = (s.procs q).held)
    (hexit : ∀ q, (after.procs q).status = .exit → (after.procs q).resourcesHolding = []) :
    after.Owned := by
  constructor
  case owner =>
    intro r q
    rw [howner, hheld]
    exact howned.owner r q
  case nodup =>
    intro q
    rw [hheld]
    exact howned.nodup q
  case exited => exact hexit

/-! ## Forking -/

theorem forkOnSchedule_procs {s : Sim n} (hqueued : s.Queued) :
    (__forkOnSchedule s).procs = s.procs := by
  funext p
  by_cases hdue : p ∈ s.forkqueue ∧ (s.procs p).startsAt ≤ s.ticks
  · have hready := (hqueued.fork p hdue.1).1
    simp [__forkOnSchedule, hdue, ← hready]
  · simp [__forkOnSchedule, hdue]

theorem forkOnSchedule_queued {s : Sim n} (hqueued : s.Queued) :
    (__forkOnSchedule s).Queued := by
  have hprocs := forkOnSchedule_procs hqueued
  constructor
  case forkNodup => exact hqueued.forkNodup.filter _
  case readyNodup =>
    refine List.Nodup.append hqueued.readyNodup (hqueued.forkNodup.filter _) ?_
    intro p hready hdue
    exact hqueued.disjoint p (List.mem_of_mem_filter hdue) hready
  case waitNodup => exact hqueued.waitNodup
  case disjoint =>
    intro p hfork hready
    obtain ⟨hmem, hlate⟩ := List.mem_filter.mp hfork
    rcases List.mem_append.mp hready with hready | hdue
    · exact hqueued.disjoint p hmem hready
    · have hstart := (List.mem_filter.mp hdue).2
      simp only [decide_eq_true_eq] at hlate hstart
      exact hlate hstart
  case fork =>
    intro p hfork
    rw [hprocs]
    exact hqueued.fork p (List.mem_of_mem_filter hfork)
  case ready =>
    intro p hready
    rw [hprocs]
    rcases List.mem_append.mp hready with hready | hdue
    · exact hqueued.ready p hready
    · obtain ⟨hstatus, hage, -⟩ := hqueued.fork p (List.mem_of_mem_filter hdue)
      exact ⟨hstatus, hage⟩
  case wait =>
    intro r p hwait
    rw [hprocs]
    exact hqueued.wait r p hwait

theorem forkOnSchedule_owned {s : Sim n} (hqueued : s.Queued) (howned : s.Owned) :
    (__forkOnSchedule s).Owned := by
  have hprocs := forkOnSchedule_procs hqueued
  constructor
  case owner => rw [hprocs]; exact howned.owner
  case nodup => rw [hprocs]; exact howned.nodup
  case exited => rw [hprocs]; exact howned.exited

theorem forkOnSchedule_shaped {s : Sim n} (hqueued : s.Queued)
    (hshaped : Pc.Shaped s .iterate) : Pc.Shaped (__forkOnSchedule s) .iterate := by
  intro p hcurrent
  rw [forkOnSchedule_procs hqueued]
  exact hshaped p hcurrent

/-- Forking moves processes between two queues. -/
theorem forkOnSchedule_linked (s : Sim n) (p : Fin n) :
    (__forkOnSchedule s).linked p ↔ s.linked p := by
  have hqueues : p ∈ (__forkOnSchedule s).forkqueue ∨ p ∈ (__forkOnSchedule s).readyqueue ↔
      p ∈ s.forkqueue ∨ p ∈ s.readyqueue := by
    by_cases hdue : (s.procs p).startsAt ≤ s.ticks
    · simp [__forkOnSchedule, hdue, or_comm]
    · simp [__forkOnSchedule, hdue, not_le.mp hdue]
  rw [Sim.linked, Sim.linked, ← or_assoc, ← or_assoc, hqueues]
  rfl

/-! ## Candidates -/

theorem running_eq_some {s : Sim n} {p : Fin n} :
    s.running = some p ↔ s.current = some p ∧ (s.procs p).status ≠ .wait := by
  simp [Sim.running, Option.filter_eq_some_iff]

theorem mem_candidates {s : Sim n} {p : Fin n} : p ∈ s.candidates ↔
    p ∈ s.readyqueue ∨ (s.running = some p ∧ (s.procs p).age < (s.procs p).lifespan) := by
  rw [Sim.candidates, List.mem_append]
  refine or_congr_right ?_
  cases hrunning : s.running with
  | none => simp [Sim.eligible, hrunning]
  | some current =>
      rw [eligible_of_some hrunning]
      by_cases hage : (s.procs current).age < (s.procs current).lifespan
      · simp only [if_pos hage, List.mem_singleton, Option.some.injEq]
        constructor
        · rintro rfl
          exact ⟨rfl, hage⟩
        · rintro ⟨rfl, -⟩
          rfl
      · simp only [if_neg hage, List.not_mem_nil, Option.some.injEq, false_iff, not_and]
        rintro rfl
        exact hage

theorem candidate_age {s : Sim n} (hqueued : s.Queued) {p : Fin n} (hp : p ∈ s.candidates) :
    (s.procs p).age ≤ (s.procs p).lifespan := by
  rcases mem_candidates.mp hp with hready | ⟨-, hage⟩
  · exact (hqueued.ready p hready).2
  · exact hage.le

section Candidates

variable {s : Sim n} (hqueued : s.Queued)
  (hshaped : Pc.Shaped s .iterate)

include hqueued hshaped

/-- The process that ran in the previous tick is still running, or has blocked. -/
theorem current_status {p : Fin n} (hcurrent : s.current = some p) :
    (s.procs p).status = .running ∨ (s.procs p).status = .wait := by
  rcases hshaped p hcurrent with hrun | ⟨r, hwait⟩
  · exact .inl hrun
  · exact .inr (hqueued.wait r p hwait).1

/-- The process that ran in the previous tick, unless it waits, is running. -/
theorem status_of_running {p : Fin n} (hrunning : s.running = some p) :
    (s.procs p).status = .running := by
  obtain ⟨hcurrent, hstatus⟩ := running_eq_some.mp hrunning
  exact (current_status hqueued hshaped hcurrent).resolve_right hstatus

theorem candidates_nodup : s.candidates.Nodup := by
  refine List.Nodup.append hqueued.readyNodup ?_ ?_
  · cases hrunning : s.running with
    | none => simp [eligible_of_none hrunning]
    | some p =>
        rw [eligible_of_some hrunning]
        by_cases hage : (s.procs p).age < (s.procs p).lifespan <;> simp [hage]
  · intro p hready heligible
    cases hrunning : s.running with
    | none => simp [eligible_of_none hrunning] at heligible
    | some current =>
        have hstatus := status_of_running hqueued hshaped hrunning
        rw [eligible_of_some hrunning] at heligible
        have heq : p = current := by
          by_cases hage : (s.procs current).age < (s.procs current).lifespan
          · simpa [hage] using heligible
          · simp [hage] at heligible
        exact hqueued.not_linked (heq ▸ hstatus) (.inr (.inl (heq ▸ hready)))

theorem candidate_status {p : Fin n} (hp : p ∈ s.candidates) :
    (p ∈ s.readyqueue ∧ (s.procs p).status = .ready) ∨
      (s.current = some p ∧ (s.procs p).status = .running) := by
  rcases mem_candidates.mp hp with hready | ⟨hrunning, -⟩
  · exact .inl ⟨hready, (hqueued.ready p hready).1⟩
  · exact .inr ⟨(running_eq_some.mp hrunning).1, status_of_running hqueued hshaped hrunning⟩

end Candidates

end OperatingSystem.Sched
