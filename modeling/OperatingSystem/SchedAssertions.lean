import OperatingSystem.SchedHolding

/-!
# Assertions

On a regular script every entry is granted at its age, and released before the process
reaches its lifespan. A process that has reached it is therefore running and has
nothing left to acquire or to release, so no assertion fails.
-/

namespace OperatingSystem.Sched

variable {n : Nat} {policy : Policy n}

/-- The processes live, and their requests end within their lives. -/
structure Script.Regular (script : Script n) : Prop where
  lifespan : ∀ p, 1 ≤ (script p).lifespan
  duration : ∀ p, ∀ line ∈ (script p).acquires, 1 ≤ line.duration
  ends : ∀ p, ∀ line ∈ (script p).acquires, line.atAge + line.duration ≤ (script p).lifespan

def Pc.Young (s : Sim n) : Pc n → Prop
  | .iterate => ∀ p, s.current = some p → (s.procs p).age ≤ (s.procs p).lifespan
  | .acquire p _ _ => (s.procs p).age < (s.procs p).lifespan
  | .release p _ _ => (s.procs p).age ≤ (s.procs p).lifespan
  | _ => True

structure Config.Prompt (c : Config n) : Prop where
  durations : ∀ q, ∀ rs ∈ (c.sim.procs q).resourcesHolding, 1 ≤ rs.duration
  pending : ∀ q, ∀ rs ∈ (c.sim.procs q).resourcesToAcquire, (c.sim.procs q).age ≤ rs.atAge
  linked : ∀ q, c.sim.linked q → (c.sim.procs q).age < (c.sim.procs q).lifespan
  young : c.pc.Young c.sim

section Step

variable {script : Script n} (hregular : script.Regular) {c next : Config n} (hwf : c.WellFormed)
  (htimed : c.Timed script)

/-- The candidates of a turn are young. -/
theorem young_candidate {s : Sim n} (hqueued : s.Queued)
    (hlinked : ∀ q, s.linked q → (s.procs q).age < (s.procs q).lifespan) {q : Fin n}
    (hcandidate : q ∈ (__forkOnSchedule s).candidates) :
    (s.procs q).age < (s.procs q).lifespan := by
  have hprocs := forkOnSchedule_procs hqueued
  rcases mem_candidates.mp hcandidate with hready | ⟨-, hage⟩
  · exact hlinked q ((forkOnSchedule_linked s q).mp (.inr (.inl hready)))
  · rwa [hprocs] at hage

/-- A turn keeps the processes on the queues young. -/
theorem Turn.young_linked {s after : Sim n} {next : Option (Fin n)} (hqueued : s.Queued)
    (hlinked : ∀ q, s.linked q → (s.procs q).age < (s.procs q).lifespan)
    (hturn : Turn policy (__forkOnSchedule s) next after) (q : Fin n) (hafter : after.linked q) :
    (after.procs q).age < (after.procs q).lifespan := by
  rw [hturn.procs hqueued]
  rcases hafter with hfork | hready | ⟨r, hwait⟩
  · rw [hturn.forkqueue] at hfork
    exact hlinked q ((forkOnSchedule_linked s q).mp (.inl hfork))
  · exact young_candidate hqueued hlinked (hturn.ready_candidate hready)
  · rw [hturn.resources] at hwait
    exact hlinked q (.inr (.inr ⟨r, hwait⟩))

include hwf

theorem Effect.young_linked (heffect : Effect policy c next) (hprompt : c.Prompt) (q : Fin n)
    (hlinked : next.sim.linked q) :
    (next.sim.procs q).age < (next.sim.procs q).lifespan := by
  cases heffect with
  | finish hturn | dispatch hturn => exact hturn.young_linked hwf.queued hprompt.linked q hlinked
  | @idle s after hturn => exact hturn.young_linked hwf.queued hprompt.linked q hlinked
  | refuse | skip | tick | finished | failed => exact hprompt.linked q hlinked
  | @grant s p skipped todo rs =>
      rw [s.granted_frame]
      exact hprompt.linked q ((s.granted_linked p _ rs _ q).mp hlinked)
  | @block s p =>
      rw [s.blocked_frame]
      rcases (s.blocked_linked p _ _ q).mp hlinked with hlinked | rfl
      · exact hprompt.linked q hlinked
      · exact hprompt.young
  | @grow s p =>
      have hq : q ≠ p := by
        rintro rfl
        exact hwf.queued.not_linked hwf.shaped.1.2 hlinked
      rw [s.grow_of_ne p hq]
      exact hprompt.linked q hlinked
  | @keep s p =>
      rw [s.setHolding_frame]
      exact hprompt.linked q hlinked
  | @drop s p =>
      rw [s.freed_frame]
      exact hprompt.linked q ((s.freed_linked p _ _ _ q).mp hlinked)
  | @wake s p first waiter rest kept todo rs prios _ _ _ hqueue hmem =>
      have hwait : waiter ∈ (s.resources rs.resourceId).waitqueue := hqueue ▸ hmem
      rw [Sim.moveToReady_frame, s.freed_frame]
      have hfreed := (Sim.moveToReady_linked _ _ (by simpa using hwait) q).mp hlinked
      exact hprompt.linked q ((s.freed_linked p _ _ _ q).mp hfreed)

theorem Effect.young (heffect : Effect policy c next) (hprompt : c.Prompt) :
    next.pc.Young next.sim := by
  have hshaped := hwf.shaped
  cases heffect with
  | finish | refuse | finished | failed => trivial
  | @idle s after hturn =>
      intro p hcurrent
      have hnone : after.current = none := hturn.current
      exact absurd (hnone.symm.trans hcurrent) (by simp)
  | @dispatch s after p hturn =>
      show (after.procs p).age < (after.procs p).lifespan
      rw [hturn.procs hwf.queued]
      exact young_candidate hwf.queued hprompt.linked (hturn.next_candidate rfl)
  | skip => exact hprompt.young
  | @grant s p skipped todo rs =>
      show ((s.granted p _ rs _).procs p).age < ((s.granted p _ rs _).procs p).lifespan
      rw [s.granted_self]
      exact hprompt.young
  | @block s p =>
      intro r hcurrent
      obtain rfl : r = p := Option.some.inj (hcurrent.symm.trans hshaped.1.1)
      rw [s.blocked_frame]
      exact Nat.le_of_lt hprompt.young
  | @grow s p =>
      show ((s.grow p).procs p).age ≤ ((s.grow p).procs p).lifespan
      rw [s.grow_self]
      exact hprompt.young
  | @keep s p =>
      show ((s.setHolding p _).procs p).age ≤ ((s.setHolding p _).procs p).lifespan
      rw [s.setHolding_self]
      exact hprompt.young
  | @drop s p =>
      show ((s.freed p _ _ _).procs p).age ≤ ((s.freed p _ _ _).procs p).lifespan
      rw [s.freed_frame]
      exact hprompt.young
  | @wake s p =>
      show (((s.freed p _ _ _).moveToReady _ _).procs p).age ≤
        (((s.freed p _ _ _).moveToReady _ _).procs p).lifespan
      rw [Sim.moveToReady_frame, s.freed_frame]
      exact hprompt.young
  | @tick s p =>
      intro q hcurrent
      obtain rfl : q = p := Option.some.inj (hcurrent.symm.trans hshaped.1.1)
      exact hprompt.young

/-- A process ages only past the entries that it does not ask for. -/
theorem Effect.pending_ahead (heffect : Effect policy c next) (hprompt : c.Prompt) (q : Fin n) :
    ∀ rs ∈ (next.sim.procs q).resourcesToAcquire, (next.sim.procs q).age ≤ rs.atAge := by
  intro rs hrs
  have hpending := heffect.pending_subset hwf q hrs
  have hahead := hprompt.pending q rs hpending
  rw [heffect.age hwf]
  by_cases hgrowing : c.pc.growing = some q
  · have hnone := List.find?_eq_none.mp (Option.map_eq_none_iff.mp (hwf.request_passed hgrowing))
    have hne : rs.atAge ≠ (c.sim.procs q).age := by simpa using hnone rs hpending
    rw [if_pos hgrowing]
    exact Nat.lt_of_le_of_ne hahead hne.symm
  · rw [if_neg hgrowing]
    exact hahead

include hregular htimed

/-- The entries that stay are those that a countdown does not end. -/
theorem Effect.durations (heffect : Effect policy c next) (hprompt : c.Prompt) (q : Fin n) :
    ∀ rs ∈ (next.sim.procs q).resourcesHolding, 1 ≤ rs.duration := by
  intro other hother
  have hold := hprompt.durations q
  cases heffect.moves hwf q with
  | stay _ hholding =>
      rw [hholding] at hother
      exact hold other hother
  | @grant _ _ rs _ _ hsplit _ hholding =>
      rw [hholding] at hother
      rcases List.mem_append.mp hother with hother | hother
      · exact hold other hother
      · obtain rfl := List.mem_singleton.mp hother
        have hline := (htimed.follows q).pending other (by rw [hsplit]; simp)
        exact hregular.duration q _ (List.mem_of_getElem? hline)
  | @keep kept todo rs hduration hsplit _ hholding =>
      rw [hsplit] at hold
      rw [hholding] at hother
      simp only [List.mem_append, List.mem_cons] at hother
      rcases hother with hother | rfl | hother
      · exact hold other (by simp [hother])
      · have hpositive := hold rs (by simp)
        simp only [ResourceSchedule.countDown]
        omega
      · exact hold other (by simp [hother])
  | @drop kept todo rs _ hsplit _ hholding =>
      rw [hsplit] at hold
      rw [hholding] at hother
      refine hold other ?_
      simp only [List.mem_append, List.mem_cons] at hother ⊢
      tauto

theorem Effect.prompt (heffect : Effect policy c next) (hprompt : c.Prompt) : next.Prompt where
  durations := heffect.durations hregular hwf htimed hprompt
  pending := heffect.pending_ahead hwf hprompt
  linked := heffect.young_linked hwf hprompt
  young := heffect.young hwf hprompt

end Step

theorem start_prompt {script : Script n} (hregular : script.Regular) : script.start.Prompt where
  durations := by simp [Script.start, Script.load, Description.process]
  pending := by simp [Script.start, Script.load, Description.process]
  linked := fun q _ => hregular.lifespan q
  young := by simp [Script.start, Script.load, Pc.Young]

theorem reachable_prompt {sched : Scheduler n} (hlaw : Lawful sched policy) {script : Script n}
    (hregular : script.Regular) {c : Config n} (hreach : (sched.machine script).Reachable c) :
    c.Prompt :=
  reachable_invariant hlaw _ (start_prompt hregular)
    (fun _ _ hstate hwf heffect hprompt =>
      heffect.prompt hregular hwf (reachable_timed hlaw hstate) hprompt) hreach

/-- A process that has reached its lifespan has nothing left to do. -/
theorem Config.Prompt.retired {script : Script n} (hregular : script.Regular) {s : Sim n}
    (htimed : (⟨.iterate, s⟩ : Config n).Timed script)
    (hprompt : (⟨.iterate, s⟩ : Config n).Prompt) {p : Fin n}
    (hage : (s.procs p).age = (s.procs p).lifespan) :
    (∀ r, p ∉ (s.resources r).waitqueue) ∧ (s.procs p).resourcesHolding = [] ∧
      (s.procs p).resourcesToAcquire = [] := by
  have hlifespan : (s.procs p).lifespan = (script p).lifespan := (htimed.follows p).lifespan
  refine ⟨fun r hwait => ?_, ?_, ?_⟩
  · have hyoung := hprompt.linked p (.inr (.inr ⟨r, hwait⟩))
    exact absurd hage hyoung.ne
  · refine List.eq_nil_iff_forall_not_mem.mpr fun rs hrs => ?_
    have htime : OnTime (script p) (s.procs p).age 0 rs := htimed.holding p rs hrs
    obtain ⟨line, hline, -, -, hend, -⟩ := htime
    have hduration : 1 ≤ rs.duration := hprompt.durations p rs hrs
    have hends := hregular.ends p line (List.mem_of_getElem? hline)
    omega
  · refine List.eq_nil_iff_forall_not_mem.mpr fun rs hrs => ?_
    have hline := List.mem_of_getElem? ((htimed.follows p).pending rs hrs)
    have hpending : (s.procs p).age ≤ rs.atAge := hprompt.pending p rs hrs
    have hduration := hregular.duration p _ hline
    have hends := hregular.ends p _ hline
    omega

/-! ## The assertions that can fail -/

/-- The assertions of `__exit_process`. -/
def Fault.OfExit : Fault → Prop
  | .exitLinked | .exitHolding | .exitPending => True
  | _ => False

theorem exitProcess_fault {s : Sim n} {p : Fin n} {fault : Fault}
    (herror : __exitProcess s p = .error fault) : fault.OfExit := by
  unfold __exitProcess at herror
  split_ifs at herror <;> cases herror <;> trivial

theorem updatePrev_fault {s : Sim n} {prev : Option (Fin n)} {fault : Fault}
    (herror : updatePrev s prev = .error fault) : fault.OfExit := by
  cases prev with
  | none => cases herror
  | some p =>
      simp only [updatePrev] at herror
      split_ifs at herror <;> exact exitProcess_fault herror

/-- Only the retirement of a process fails. -/
theorem next_fault {sched : Scheduler n} (hlaw : Lawful sched policy) {c : Config n}
    (hwf : c.WellFormed) {fault : Fault} (hfail : (sched.next c).pc = .failed fault) :
    c.pc = .failed fault ∨ fault.OfExit := by
  have heffect := step_effect hlaw hwf
  generalize hnext : sched.next c = next at heffect hfail
  cases heffect with
  | @refuse s prev refusal hcurrent hage hassert =>
      obtain rfl : refusal = fault := Pc.failed.inj hfail
      have hprocs := forkOnSchedule_procs hwf.queued
      obtain ⟨chosen, queue, hschedule, -⟩ := hlaw.schedule (__forkOnSchedule s) fun q hq =>
        ((forkOnSchedule_queued hwf.queued).ready q hq).2
      let after := { __forkOnSchedule s with readyqueue := queue, current := chosen }
      have hattached : ¬ after.Detached prev := by
        rintro ⟨hlinked, hholding, hpending⟩
        rw [show Sim.procs _ = s.procs from hprocs] at hholding hpending
        rcases hassert with ⟨r, hwait⟩ | hheld | hawaited
        · exact hlinked (.inr (.inr ⟨r, hwait⟩))
        · exact hheld hholding
        · exact hawaited hpending
      obtain ⟨other, herror⟩ := updatePrev_error (hprocs ▸ hage) hattached
      have hstep : sched.next ⟨.iterate, s⟩ = ⟨.failed other, s⟩ := by
        simp only [Scheduler.next, iteration, hschedule, ok_bind]
        rw [show (__forkOnSchedule s).current = some prev from hcurrent, herror]
        rfl
      rw [hstep] at hnext
      obtain rfl : other = refusal := Pc.failed.inj (congrArg Config.pc hnext)
      exact .inr (updatePrev_fault herror)
  | failed => exact .inl hfail
  | _ => cases hfail

theorem reachable_fault {sched : Scheduler n} (hlaw : Lawful sched policy) {script : Script n}
    {c : Config n} (hreach : (sched.machine script).Reachable c) {fault : Fault}
    (hfail : c.pc = .failed fault) : fault.OfExit := by
  refine hreach.invariant (fun c => ∀ fault, c.pc = .failed fault → fault.OfExit) ?_ ?_ fault hfail
  · intro fault hpc
    cases hpc
  · rintro state - next hstate hinv rfl fault hpc
    exact (next_fault hlaw (reachable_wellFormed hlaw hstate) hpc).elim (hinv fault) id

theorem reachable_not_failed {sched : Scheduler n} (hlaw : Lawful sched policy)
    {script : Script n} (hregular : script.Regular) {c : Config n}
    (hreach : (sched.machine script).Reachable c) (fault : Fault) : c.pc ≠ .failed fault := by
  refine reachable_invariant hlaw (fun c => ∀ fault, c.pc ≠ .failed fault) ?_ ?_ hreach fault
  · intro fault hpc
    cases hpc
  · intro c next hstate hwf heffect hinv fault hpc
    cases heffect with
    | refuse hcurrent hage hassert =>
        obtain ⟨hwait, hholding, hpending⟩ := (reachable_prompt hlaw hregular hstate).retired
          hregular (reachable_timed hlaw hstate) hage
        rcases hassert with ⟨r, hmem⟩ | hnonempty | hnonempty
        · exact hwait r hmem
        · exact hnonempty hholding
        · exact hnonempty hpending
    | failed => exact hinv _ rfl
    | _ => cases hpc

/-- **Regular scripts never trip an assertion.** -/
theorem regular_never_fails {sched : Scheduler n} (hsched : sched ∈ schedulers n)
    {script : Script n} (hregular : script.Regular) {c : Config n}
    (hreach : (sched.machine script).Reachable c) (fault : Fault) : c.pc ≠ .failed fault := by
  obtain ⟨policy, hlaw⟩ := schedulers_lawful hsched
  exact reachable_not_failed hlaw hregular hreach fault

/-- The last assertion of an exit has not failed on `contended` after thirty steps. -/
theorem regular_never_fails_contended :
    (pipScheduler.next^[30] contended.start).pc ≠ .failed .exitPending := by
  have hregular : contended.Regular := ⟨by decide, by decide, by decide⟩
  exact regular_never_fails (by simp [schedulers]) hregular (Machine.reachable_iterate _ _ 30) _

end OperatingSystem.Sched
