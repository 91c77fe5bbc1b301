import OperatingSystem.SchedWakeup

/-!
# No process is lost

A scheduler keeps the current process as long as its age is below its lifespan, and the
main loop retires a process whose age is its lifespan. The two tests agree unless a process
without a lifespan runs: after one tick it is older than its lifespan, so it is neither kept
nor retired.
-/

namespace OperatingSystem.Sched

variable {n : Nat} {policy : Policy n}

/-- No process of lifespan 0 gets past its acquisitions. -/
def Config.Lives (c : Config n) : Prop :=
  ∀ p skipped, c.pc = .acquire p skipped [] → (c.sim.procs p).lifespan ≠ 0

/-- At the head of the main loop a process has exited, or it is on a queue or the current
one and no older than its lifespan. -/
def Config.Accounted (c : Config n) : Prop :=
  c.pc = .iterate → ∀ p, (c.sim.procs p).status = .exit ∨
    (c.sim.linked p ∨ c.sim.current = some p) ∧ (c.sim.procs p).age ≤ (c.sim.procs p).lifespan

/-! ## Ages below lifespans -/

/-- The process has not reached its lifespan, or never had one. -/
def Process.Unspent (process : Process) : Prop :=
  process.age < process.lifespan ∨ process.lifespan = 0

def Pc.Unspent (s : Sim n) : Pc n → Prop
  | .iterate => ∀ p, s.current = some p → (s.procs p).age ≤ (s.procs p).lifespan
  | .acquire p _ _ => (s.procs p).Unspent
  | .release p _ _ => (s.procs p).age ≤ (s.procs p).lifespan
  | _ => True

structure Config.Unspent (c : Config n) : Prop where
  linked : ∀ q, c.sim.linked q → (c.sim.procs q).Unspent
  running : c.pc.Unspent c.sim

/-- The candidates of a turn are unspent. -/
theorem unspent_candidate {s : Sim n} (hqueued : s.Queued)
    (hlinked : ∀ q, s.linked q → (s.procs q).Unspent) {q : Fin n}
    (hcandidate : q ∈ (__forkOnSchedule s).candidates) : (s.procs q).Unspent := by
  have hprocs := forkOnSchedule_procs hqueued
  rcases mem_candidates.mp hcandidate with hready | ⟨-, hage⟩
  · exact hlinked q ((forkOnSchedule_linked s q).mp (.inr (.inl hready)))
  · rw [hprocs] at hage
    exact .inl hage

/-- The processes on the queues after a turn are unspent. -/
theorem Turn.unspent_linked {s after : Sim n} {next : Option (Fin n)} (hqueued : s.Queued)
    (hlinked : ∀ q, s.linked q → (s.procs q).Unspent)
    (hturn : Turn policy (__forkOnSchedule s) next after) {q : Fin n} (hq : after.linked q) :
    (s.procs q).Unspent := by
  rcases hq with hfork | hready | ⟨r, hwait⟩
  · rw [hturn.forkqueue] at hfork
    exact hlinked q ((forkOnSchedule_linked s q).mp (.inl hfork))
  · exact unspent_candidate hqueued hlinked (hturn.ready_candidate hready)
  · rw [hturn.resources] at hwait
    exact hlinked q (.inr (.inr ⟨r, hwait⟩))

theorem Effect.unspent {c next : Config n} (hwf : c.WellFormed) (hlives : c.Lives)
    (heffect : Effect policy c next) (hunspent : c.Unspent) : next.Unspent := by
  have hfixed := fun q => (heffect.fixed hwf q).1
  have hage := heffect.age hwf
  -- only the process that is about to age changes
  have hkept : ∀ q, c.pc.growing ≠ some q → (c.sim.procs q).Unspent →
      (next.sim.procs q).Unspent := by
    intro q hq hold
    rw [Process.Unspent, hfixed, hage, if_neg hq]
    exact hold
  have hyoung : ∀ q, c.pc.growing ≠ some q → (c.sim.procs q).age ≤ (c.sim.procs q).lifespan →
      (next.sim.procs q).age ≤ (next.sim.procs q).lifespan := by
    intro q hq hold
    rw [hfixed, hage, if_neg hq]
    exact hold
  obtain ⟨hqueued, -, hshaped⟩ := hwf
  cases heffect with
  | finish hturn =>
      refine ⟨fun q hq => hkept q (by simp [Pc.growing]) ?_, trivial⟩
      exact hturn.unspent_linked hqueued hunspent.linked hq
  | @idle s after hturn =>
      refine ⟨fun q hq => hkept q (by simp [Pc.growing]) ?_, fun p hcurrent => ?_⟩
      · exact hturn.unspent_linked hqueued hunspent.linked hq
      · have hnone : after.current = none := hturn.current
        exact absurd (hnone.symm.trans hcurrent) (by simp)
  | dispatch hturn =>
      refine ⟨fun q hq => hkept q (by simp [Pc.growing]) ?_, hkept _ (by simp [Pc.growing]) ?_⟩
      · exact hturn.unspent_linked hqueued hunspent.linked hq
      · exact unspent_candidate hqueued hunspent.linked (hturn.next_candidate rfl)
  | refuse => exact ⟨hunspent.linked, trivial⟩
  | skip => exact ⟨hunspent.linked, hunspent.running⟩
  | @grant s p _ _ rs =>
      refine ⟨fun q hq => hkept q (by simp [Pc.growing]) ?_,
        hkept p (by simp [Pc.growing]) hunspent.running⟩
      exact hunspent.linked q ((s.granted_linked p _ rs _ q).mp hq)
  | @block s p =>
      refine ⟨fun q hq => hkept q (by simp [Pc.growing]) ?_, fun q hcurrent => ?_⟩
      · rcases (s.blocked_linked p _ _ q).mp hq with hq | rfl
        · exact hunspent.linked q hq
        · exact hunspent.running
      · obtain rfl : q = p := Option.some.inj (hcurrent.symm.trans hshaped.1.1)
        exact hyoung q (by simp [Pc.growing]) hshaped.2.2.2
  | @grow s p skipped =>
      refine ⟨fun q hq => ?_, ?_⟩
      · have hne : p ≠ q := by
          rintro rfl
          exact hqueued.not_linked hshaped.1.2 hq
        exact hkept q (by simpa [Pc.growing] using hne) (hunspent.linked q hq)
      · show ((s.grow p).procs p).age ≤ ((s.grow p).procs p).lifespan
        rw [s.grow_self]
        exact hunspent.running.resolve_right (hlives p skipped rfl)
  | keep => exact ⟨fun q hq => hkept q (by simp [Pc.growing]) (hunspent.linked q hq),
      hyoung _ (by simp [Pc.growing]) hunspent.running⟩
  | @drop s p =>
      refine ⟨fun q hq => hkept q (by simp [Pc.growing]) ?_,
        hyoung p (by simp [Pc.growing]) hunspent.running⟩
      exact hunspent.linked q ((s.freed_linked p _ _ _ q).mp hq)
  | @wake s p first waiter rest _ _ rs _ _ _ _ hqueue hmem =>
      have hwait : waiter ∈ (s.resources rs.resourceId).waitqueue := hqueue ▸ hmem
      refine ⟨fun q hq => hkept q (by simp [Pc.growing]) (hunspent.linked q ?_),
        hyoung p (by simp [Pc.growing]) hunspent.running⟩
      rwa [Sim.moveToReady_linked _ _ (by simpa using hwait), s.freed_linked] at hq
  | @tick s p =>
      refine ⟨hunspent.linked, fun q hcurrent => ?_⟩
      obtain rfl : q = p := Option.some.inj (hcurrent.symm.trans hshaped.1.1)
      exact hunspent.running
  | finished | failed => exact hunspent

theorem start_unspent (script : Script n) : script.start.Unspent := by
  refine ⟨fun q _ => ?_, fun p hcurrent => ?_⟩
  · exact (Nat.eq_zero_or_pos (script q).lifespan).symm
  · cases hcurrent

/-! ## Lost processes -/

section Runs

variable {sched : Scheduler n} {script : Script n} {c : Config n} (hlaw : Lawful sched policy)

include hlaw

theorem reachable_unspent
    (hreach : ((sched.machine script).restrict Config.Lives).Reachable c) :
    c.Unspent ∧ c.Located := by
  apply hreach.invariant fun c => c.Unspent ∧ c.Located
  · exact ⟨start_unspent script, fun p => .inr (.inl (.inl (List.mem_finRange p)))⟩
  · rintro state - next hstate ⟨hunspent, hlocated⟩ ⟨hlives, rfl⟩
    have hwf := reachable_wellFormed hlaw hstate.of_restrict
    have heffect := step_effect hlaw hwf
    refine ⟨heffect.unspent hwf hlives hunspent, heffect.located hwf (fun hpc => ?_) hlocated⟩
    have hyoung := hunspent.running
    rwa [hpc] at hyoung

theorem reachable_accounted
    (hreach : ((sched.machine script).restrict Config.Lives).Reachable c) : c.Accounted := by
  intro hpc p
  obtain ⟨hunspent, hlocated⟩ := reachable_unspent hlaw hreach
  obtain ⟨hqueued, -, -⟩ := reachable_wellFormed hlaw hreach.of_restrict
  have hrunning := hunspent.running
  rw [hpc] at hrunning
  rcases hlocated p with hexit | hlinked | hcurrent
  · exact .inl hexit
  · refine .inr ⟨.inl hlinked, ?_⟩
    rcases hlinked with hfork | hready | ⟨r, hwait⟩
    · exact (hqueued.fork p hfork).2.1
    · exact (hqueued.ready p hready).2
    · exact (hqueued.wait r p hwait).2.1
  · exact .inr ⟨.inr hcurrent, hrunning p hcurrent⟩

/-- A step of the release loop goes on to the next entry. -/
theorem release_next {p : Fin n} {kept todo : List ResourceSchedule} {rs : ResourceSchedule}
    {s : Sim n} (hwf : (⟨.release p kept (rs :: todo), s⟩ : Config n).WellFormed) :
    ∃ kept' after,
      sched.next ⟨.release p kept (rs :: todo), s⟩ = ⟨.release p kept' todo, after⟩ := by
  have heffect := step_effect hlaw hwf
  generalize sched.next ⟨.release p kept (rs :: todo), s⟩ = next at heffect
  cases heffect with
  | keep | drop | wake => exact ⟨_, _, rfl⟩

/-- The release loop ends at the head of the main loop and does not age the process. -/
theorem release_ends {p : Fin n} {kept todo : List ResourceSchedule} {s : Sim n}
    (hreach : (sched.machine script).Reachable ⟨.release p kept todo, s⟩) :
    ∃ after, (sched.machine script).Reachable ⟨.iterate, after⟩ ∧ after.Runs p ∧
      (after.procs p).age = (s.procs p).age ∧ (after.procs p).lifespan = (s.procs p).lifespan := by
  induction todo generalizing kept s with
  | nil =>
      have hwf := reachable_wellFormed hlaw hreach
      exact ⟨s.tick, reachable_next hreach, hwf.shaped.1, rfl, rfl⟩
  | cons rs todo ih =>
      have hwf := reachable_wellFormed hlaw hreach
      have heffect := step_effect hlaw hwf
      have hnext := reachable_next hreach
      obtain ⟨kept', state, heq⟩ := release_next hlaw hwf
      rw [heq] at heffect hnext
      obtain ⟨after, hafter, hruns, hage, hlifespan⟩ := ih hnext
      exact ⟨after, hafter, hruns, hage.trans (heffect.age hwf p),
        hlifespan.trans (heffect.fixed hwf p).1⟩

/-- A process without a lifespan that gets past its acquisitions is lost. -/
theorem not_accounted_of_not_lives (hreach : (sched.machine script).Reachable c)
    (hlives : ¬ c.Lives) : ∃ next, (sched.machine script).Reachable next ∧ ¬ next.Accounted := by
  obtain ⟨pc, s⟩ := c
  simp only [Config.Lives, not_forall, not_not] at hlives
  obtain ⟨p, skipped, rfl, hzero⟩ := hlives
  obtain ⟨after, hafter, hruns, hage, hlifespan⟩ := release_ends hlaw (reachable_next hreach)
  refine ⟨_, hafter, fun haccounted => ?_⟩
  rcases haccounted rfl p with hexit | ⟨-, hyoung⟩
  · have hrun : (after.procs p).status = .running := hruns.2
    rw [hrun] at hexit
    cases hexit
  · have hgrown : (after.procs p).age = (s.procs p).age + 1 := by simpa using hage
    have hold : (after.procs p).lifespan = (s.procs p).lifespan := by simpa using hlifespan
    change (after.procs p).age ≤ (after.procs p).lifespan at hyoung
    omega

end Runs

/-- **No process is lost, as long as no process of lifespan 0 runs for a tick.** In every
run in which none does, a process is exited, on a queue or the current one at the head of
the main loop; and a run in which one does loses that process. -/
theorem no_process_lost {sched : Scheduler n} (hsched : sched ∈ schedulers n)
    (script : Script n) :
    (∀ c, ((sched.machine script).restrict Config.Lives).Reachable c → c.Accounted) ∧
    ((∀ c, (sched.machine script).Reachable c → c.Accounted) ↔
      ∀ c, (sched.machine script).Reachable c → c.Lives) := by
  obtain ⟨policy, hlaw⟩ := schedulers_lawful hsched
  refine ⟨fun c hreach => reachable_accounted hlaw hreach, ?_, ?_⟩
  · intro haccounted c hreach
    by_contra hlives
    obtain ⟨next, hnext, hlost⟩ := not_accounted_of_not_lives hlaw hreach hlives
    exact hlost (haccounted next hnext)
  · intro hlives c hreach
    exact reachable_accounted hlaw (hreach.restrict hlives)

/-- A process whose block gives no lifespan. -/
def fleeting : Script 1 := ![⟨1, 0, 0, 0, []⟩]

/-- At the start of the second iteration the process of `fleeting` is older than its lifespan. -/
theorem fleeting_outlives : ¬ (fifoScheduler.next^[3] fleeting.start).Accounted := by
  intro haccounted
  rcases haccounted (by decide +kernel) 0 with hexit | ⟨-, hyoung⟩
  · exact absurd hexit (by decide +kernel)
  · exact absurd hyoung (by decide +kernel)

/-- Some step of `fleeting` runs a process without a lifespan. -/
theorem no_process_lost_fleeting :
    ¬ ∀ c, (fifoScheduler.machine fleeting).Reachable c → c.Lives := by
  intro hlives
  exact fleeting_outlives (((no_process_lost (by simp [schedulers]) fleeting).2.mpr hlives) _
    (Machine.reachable_iterate _ _ 3))

theorem fleeting_lost : ¬ ∀ c, (fifoScheduler.machine fleeting).Reachable c → c.Accounted :=
  fun haccounted => fleeting_outlives (haccounted _ (Machine.reachable_iterate _ _ 3))

end OperatingSystem.Sched
