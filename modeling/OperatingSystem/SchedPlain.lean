import OperatingSystem.SchedBlind

/-!
# Scripts without requests

When no process requests a resource nobody ever waits, so the schedulers that do not look
at the status of `current` are as good as the others.
-/

namespace OperatingSystem.Sched

variable {n : Nat} {policy : Policy n}

/-- No process requests a resource. -/
def Script.Plain (script : Script n) : Prop := ∀ p, (script p).acquires = []

/-- Nothing is requested or held, and nobody waits. -/
structure Sim.Plain (s : Sim n) : Prop where
  pending : ∀ q, (s.procs q).resourcesToAcquire = []
  holding : ∀ q, (s.procs q).resourcesHolding = []
  waitqueue : ∀ r, (s.resources r).waitqueue = []

section Plain

variable {script : Script n} (hplain : script.Plain) {c : Config n}

include hplain

theorem not_onTime {q : Fin n} {age : Nat} {late : Int} {rs : ResourceSchedule} :
    ¬ OnTime (script q) age late rs := by
  rintro ⟨line, hline, -⟩
  simp [hplain q] at hline

theorem Config.Timed.plain (hwf : c.WellFormed) (htimed : c.Timed script) : c.sim.Plain := by
  have hpending : ∀ q, (c.sim.procs q).resourcesToAcquire = [] := by
    intro q
    refine List.eq_nil_iff_forall_not_mem.mpr fun rs hrs => ?_
    have hline := (htimed.follows q).pending rs hrs
    simp [hplain q] at hline
  refine ⟨hpending, fun q => List.eq_nil_iff_forall_not_mem.mpr fun rs hrs => ?_, fun r => ?_⟩
  · obtain ⟨pc, s⟩ := c
    have hholding := htimed.holding
    cases pc with
    | release p kept todo =>
        obtain ⟨hothers, hkept, htodo⟩ := hholding
        by_cases hq : q = p
        · subst hq
          rw [show (s.procs q).resourcesHolding = kept ++ todo from hwf.shaped.2] at hrs
          rcases List.mem_append.mp hrs with hrs | hrs
          · exact not_onTime hplain (hkept rs hrs)
          · exact not_onTime hplain (htodo rs hrs)
        · exact not_onTime hplain (hothers q hq rs hrs)
    | iterate | acquire | finished | failed => exact not_onTime hplain (hholding q rs hrs)
  · refine List.eq_nil_iff_forall_not_mem.mpr fun p hwait => ?_
    have hrequest := (hwf.queued.wait r p hwait).2.2
    simp [Process.request, hpending p] at hrequest

theorem reachable_plain {sched : Scheduler n} (hlaw : Lawful sched policy)
    (hreach : (sched.machine script).Reachable c) : c.sim.Plain :=
  (reachable_timed hlaw hreach).plain hplain (reachable_wellFormed hlaw hreach)

end Plain

theorem Sim.Plain.blockedDone {c : Config n} (hwf : c.WellFormed) (hplain : c.sim.Plain) :
    c.BlockedDone := by
  intro hpc p hcurrent hwait
  have hshaped := hwf.shaped
  rw [hpc] at hshaped
  rcases hshaped p hcurrent with hrun | ⟨r, hmem⟩
  · rw [hrun] at hwait
    cases hwait
  · simp [hplain.waitqueue r] at hmem

section Runs

variable {sched : Scheduler n} (hblind : Blind sched) {script : Script n} (hplain : script.Plain)
  {c : Config n}

include hblind hplain

/-- A run of a blind scheduler is one of the completed scheduler, up to a crash. -/
theorem Blind.plain_reachable (hreach : (sched.machine script).Reachable c) :
    (sched.completed.machine script).Reachable c ∨ c.pc = .failed .nullPointer := by
  apply hreach.invariant fun c => (sched.completed.machine script).Reachable c ∨
    c.pc = .failed .nullPointer
  · exact .inl (show (sched.completed.machine script).Reachable _ from Machine.reachable_init)
  rintro state - next - (hstate | hcrashed) rfl
  · have hwf := reachable_wellFormed hblind.completed_lawful hstate
    have hdone := (reachable_plain hplain hblind.completed_lawful hstate).blockedDone hwf
    rcases hblind.next_eq hwf hdone with heq | heq
    · rw [heq]
      exact .inl (reachable_next hstate)
    · rw [heq]
      exact .inr rfl
  · obtain ⟨pc, s⟩ := state
    obtain rfl : pc = .failed .nullPointer := hcrashed
    exact .inr rfl

theorem Blind.plain_next (hreach : (sched.completed.machine script).Reachable c)
    (hok : c.pc = .iterate → sched.schedule (__forkOnSchedule c.sim) ≠ .error .nullPointer) :
    sched.next c = sched.completed.next c := by
  have hwf := reachable_wellFormed hblind.completed_lawful hreach
  have hdone := (reachable_plain hplain hblind.completed_lawful hreach).blockedDone hwf
  exact hblind.next_completed hwf hdone hok

end Runs

end OperatingSystem.Sched
