import OperatingSystem.SchedRounds
import OperatingSystem.SchedWaiters

/-!
# What the priority schedulers pick

`prio_schedule` visits the ready queue and then the current process, if it can run on, and
takes the first process of the highest priority. Since the current process comes last, it
goes on only if it is more important than all that are ready: processes of one priority
take turns.
-/

namespace OperatingSystem.Sched

variable {n : Nat} {policy : Policy n}

/-- `prio_schedule` returns null if there is no candidate, and otherwise the first one of the
highest priority; the ready queue is the sequence of the others then. -/
def Sim.PicksHighest (s : Sim n) : Prop :=
  ∃ next, prioSchedule s =
      .ok (next, { s with readyqueue := next.elim s.candidates s.candidates.erase }) ∧
    (next = none ↔ s.candidates = []) ∧
    ∀ p, next = some p → FirstGreatest s.prio s.candidates p

theorem prioSchedule_picks {s : Sim n}
    (hages : ∀ q ∈ s.readyqueue, (s.procs q).age ≤ (s.procs q).lifespan) : s.PicksHighest := by
  rcases prioSchedule_spec hages with ⟨hempty, hschedule⟩ | ⟨p, hgreatest, hschedule⟩
  · have hready : s.readyqueue = [] := (List.append_eq_nil_iff.mp hempty).1
    refine ⟨none, ?_, by simp [hempty], by simp⟩
    rw [hschedule, Option.elim_none, hempty, ← hready]
  · have hmem := (firstGreatest_iff_dual.mp hgreatest).mem
    refine ⟨some p, hschedule, by simp [List.ne_nil_of_mem hmem], fun q hq => ?_⟩
    rwa [← Option.some.inj hq]

/-! ## Two choices in a row -/

/-- The process that an iteration chooses. -/
def Scheduler.choice (sched : Scheduler n) (s : Sim n) : Option (Fin n) :=
  match sched.schedule (__forkOnSchedule s) with
  | .ok (next, _) => next
  | .error _ => none

/-- From `c` the simulation comes to `later` at the next head of the main loop. -/
def Scheduler.NextHead (sched : Scheduler n) (c later : Config n) : Prop :=
  ∃ count, sched.next^[count + 1] c = later ∧ later.pc = .iterate ∧
    ∀ i, 0 < i → i ≤ count → (sched.next^[i] c).pc ≠ .iterate

/-- `current` is assigned at the head of the main loop only. -/
theorem Effect.current_kept {c next : Config n} (heffect : Effect policy c next)
    (hpc : c.pc ≠ .iterate) : next.sim.current = c.sim.current := by
  cases heffect with
  | finish | idle | dispatch | refuse => exact absurd rfl hpc
  | skip | grant | block | grow | keep | drop | wake | tick | finished | failed => rfl

section Choice

variable {sched : Scheduler n} (hlaw : Lawful sched policy) {script : Script n} {c : Config n}
  (hreach : (sched.machine script).Reachable c)

include hlaw hreach

/-- Until the next head of the main loop the process that was chosen is the current one. -/
theorem current_of_choice (hpc : c.pc = .iterate) (count : Nat)
    (hbetween : ∀ i, 0 < i → i ≤ count → (sched.next^[i] c).pc ≠ .iterate) :
    (sched.next^[count + 1] c).sim.current = sched.choice c.sim ∨
      ∃ fault, (sched.next^[count + 1] c).pc = .failed fault := by
  induction count with
  | zero =>
      obtain ⟨pc, s⟩ := c
      obtain rfl : pc = .iterate := hpc
      have hwf := reachable_wellFormed hlaw hreach
      by_cases hfails : ∃ fault, (sched.next ⟨.iterate, s⟩).pc = .failed fault
      · exact .inr hfails
      · left
        rw [not_exists] at hfails
        have hschedule := iteration_schedule hlaw hwf.queued rfl hfails
        show (sched.next ⟨.iterate, s⟩).sim.current = _
        rw [Scheduler.choice, hschedule]
  | succ count ih =>
      have hbefore := ih fun i hi hle => hbetween i hi (Nat.le_succ_of_le hle)
      have hwf := reachable_wellFormed hlaw (reachable_iterate hreach (count + 1))
      have hpc' := hbetween (count + 1) (Nat.succ_pos count) le_rfl
      rw [Function.iterate_succ_apply']
      rcases hbefore with hcurrent | ⟨fault, hfail⟩
      · left
        rw [(step_effect hlaw hwf).current_kept hpc', hcurrent]
      · right
        refine ⟨fault, ?_⟩
        simp only [Scheduler.next, hfail]

theorem NextHead.current (hpc : c.pc = .iterate) {later : Config n}
    (hnext : sched.NextHead c later) :
    (sched.machine script).Reachable later ∧ later.sim.current = sched.choice c.sim := by
  obtain ⟨count, rfl, hlater, hbetween⟩ := hnext
  refine ⟨reachable_iterate hreach _, ?_⟩
  refine (current_of_choice hlaw hreach hpc count hbetween).resolve_right ?_
  rintro ⟨fault, hfail⟩
  rw [hlater] at hfail
  cases hfail

end Choice

/-- A current process that is picked again is more important than all that are ready. -/
theorem picked_again {s : Sim n} (hqueued : s.Queued) (hshaped : Pc.Shaped s .iterate)
    {p q : Fin n} (hcurrent : s.current = some p) (hpicked : FirstGreatest s.prio s.candidates p)
    (hready : q ∈ s.readyqueue) : s.prio q < s.prio p := by
  rw [firstGreatest_iff_dual] at hpicked
  have hout : p ∉ s.readyqueue := by
    intro hp
    have hstatus := (hqueued.ready p hp).1
    rcases current_status hqueued hshaped hcurrent with hrun | hwait
    · rw [hstatus] at hrun
      cases hrun
    · rw [hstatus] at hwait
      cases hwait
  have hq : q ∈ s.candidates := mem_candidates.mpr (.inl hready)
  rcases hpicked.ahead hq (fun heq => hout (heq ▸ hready)) with hlt | ⟨-, hidx⟩
  · exact hlt
  · -- the ready processes come first
    rw [Sim.candidates, List.idxOf_append_of_notMem hout, List.idxOf_append_of_mem hready] at hidx
    have hlt := List.idxOf_lt_length_of_mem hready
    omega

theorem prioritySchedulers_lawful {sched : Scheduler n} (hsched : sched ∈ prioritySchedulers n) :
    sched.schedule = prioSchedule ∧ ∃ policy, Lawful sched policy := by
  simp only [prioritySchedulers, List.mem_cons, List.not_mem_nil, or_false] at hsched
  rcases hsched with rfl | rfl | rfl
  · exact ⟨rfl, _, prioScheduler_lawful⟩
  · exact ⟨rfl, _, pcpScheduler_lawful⟩
  · exact ⟨rfl, _, pipScheduler_lawful⟩

/-- **Priority choice with round robin.** At every head of the main loop `prio_schedule` takes
the first candidate of the highest priority; and a process that is chosen at two heads in a row
is more important, at the second one, than every process on the ready queue. -/
theorem prio_round_robin {sched : Scheduler n} (hsched : sched ∈ prioritySchedulers n)
    {script : Script n} {c : Config n} (hreach : (sched.machine script).Reachable c)
    (hpc : c.pc = .iterate) :
    (__forkOnSchedule c.sim).PicksHighest ∧
    ∀ later, sched.NextHead c later → ∀ p, sched.choice c.sim = some p →
      sched.choice later.sim = some p → ∀ q ∈ (__forkOnSchedule later.sim).readyqueue,
        (__forkOnSchedule later.sim).prio q < (__forkOnSchedule later.sim).prio p := by
  obtain ⟨hprio, policy, hlaw⟩ := prioritySchedulers_lawful hsched
  have hpicks : ∀ {c : Config n}, (sched.machine script).Reachable c →
      (__forkOnSchedule c.sim).PicksHighest := by
    intro c hreach
    have hqueued := (reachable_wellFormed hlaw hreach).queued
    exact prioSchedule_picks fun q hq => ((forkOnSchedule_queued hqueued).ready q hq).2
  refine ⟨hpicks hreach, fun later hnext p hchoice hagain q hready => ?_⟩
  obtain ⟨hreach', hcurrent⟩ := NextHead.current hlaw hreach hpc hnext
  obtain ⟨-, -, hiterate, -⟩ := hnext
  obtain ⟨hqueued, -, hshaped⟩ := reachable_wellFormed hlaw hreach'
  rw [hiterate] at hshaped
  obtain ⟨next, hschedule, -, hgreatest⟩ := hpicks hreach'
  have hnext : next = some p := by
    simpa [Scheduler.choice, hprio, hschedule] using hagain
  exact picked_again (forkOnSchedule_queued hqueued) (forkOnSchedule_shaped hqueued hshaped)
    (hcurrent.trans hchoice) (hgreatest p hnext) hready

/-- Two processes of one priority, the second of which runs longer, and a less important one. -/
def alternating : Script 3 := ![⟨1, 0, 2, 5, []⟩, ⟨2, 0, 3, 5, []⟩, ⟨3, 0, 1, 4, []⟩]

/-- The fourth head of `alternating` and the fifth: the second process is chosen at both, the
first one having finished, and only the less important one is ready. -/
theorem prio_round_robin_alternating :
    let fourth := prioScheduler.next^[9] alternating.start
    let fifth := prioScheduler.next^[12] alternating.start
    (__forkOnSchedule fourth.sim).PicksHighest ∧
      prioScheduler.choice fourth.sim = some 1 ∧ prioScheduler.choice fifth.sim = some 1 ∧
      2 ∈ (__forkOnSchedule fifth.sim).readyqueue ∧
      (__forkOnSchedule fifth.sim).prio 2 < (__forkOnSchedule fifth.sim).prio 1 := by
  intro fourth fifth
  have hreach : (prioScheduler.machine alternating).Reachable fourth :=
    Machine.reachable_iterate _ _ 9
  have hpc : fourth.pc = .iterate := by decide +kernel
  have hnext : prioScheduler.NextHead fourth fifth := by
    refine ⟨2, (Function.iterate_add_apply prioScheduler.next 3 9 alternating.start).symm,
      by decide +kernel, ?_⟩
    intro i hpos hle
    obtain rfl | rfl : i = 1 ∨ i = 2 := by omega
    · decide +kernel
    · decide +kernel
  have hchosen : prioScheduler.choice fourth.sim = some 1 := by decide +kernel
  have hagain : prioScheduler.choice fifth.sim = some 1 := by decide +kernel
  have hready : 2 ∈ (__forkOnSchedule fifth.sim).readyqueue := by decide +kernel
  obtain ⟨hpicks, hlater⟩ := prio_round_robin (by simp [prioritySchedulers]) hreach hpc
  exact ⟨hpicks, hchosen, hagain, hready, hlater fifth hnext 1 hchosen hagain 2 hready⟩

end OperatingSystem.Sched
